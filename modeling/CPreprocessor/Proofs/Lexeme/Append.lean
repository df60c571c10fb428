import CPreprocessor.Proofs.Lexeme.Cover
import CPreprocessor.Proofs.Source.Append

/-!
# Dividing a text in parts

Only asm blocks and block comments reach over the end of a line. Whatever else is read on a line
depends on that line alone, so a text that is cut behind a newline is divided part by part.

* `read_append`, `skip_append`: what is read on a line is read whatever stands behind the line.
* `divide_append`: the lexemes of two parts, the second one taken up at the place behind the first.
-/

namespace CPreprocessor

open Source

namespace Cut

/-- The same cut in a text with more behind it. -/
def followedBy (behind : List Char) (cut : Cut) : Cut := ⟨cut.text, cut.rest ++ behind⟩

@[simp] theorem text_followedBy (behind : List Char) (cut : Cut) :
    (cut.followedBy behind).text = cut.text := rfl

@[simp] theorem rest_followedBy (behind : List Char) (cut : Cut) :
    (cut.followedBy behind).rest = cut.rest ++ behind := rfl

@[simp] theorem followedBy_cons (behind : List Char) (c : Char) (cut : Cut) :
    (cut.cons c).followedBy behind = (cut.followedBy behind).cons c := rfl

theorem map_cons_followedBy (behind : List Char) (c : Char) (cut : Option Cut) :
    (cut.map (Cut.cons c)).map (followedBy behind) =
      (cut.map (followedBy behind)).map (Cut.cons c) := by
  cases cut <;> rfl

theorem takeWhile_append {keep : Char → Bool} {chars : List Char} {c : Char} (h : c ∈ chars)
    (hc : keep c = false) (behind : List Char) :
    takeWhile keep (chars ++ behind) = (takeWhile keep chars).followedBy behind := by
  induction chars with
  | nil => contradiction
  | cons d rest ih =>
    cases hd : keep d with
    | false => simp [takeWhile, followedBy, hd]
    | true =>
      have hr : c ∈ rest := by
        rcases List.mem_cons.1 h with rfl | h
        · exact absurd (hc.symm.trans hd) nofun
        · exact h
      have hi := ih hr
      simp only [takeWhile, followedBy, Cut.mk.injEq] at hi
      simp [takeWhile, followedBy, hd, hi]

end Cut

namespace Lexeme

variable {chars : List Char} {cut : Cut}

/-! ## Readers -/

theorem mem_of_ne {c : Char} {rest : List Char} (h : '\n' ∈ c :: rest) (hc : c ≠ '\n') :
    '\n' ∈ rest := (List.mem_cons.1 h).resolve_left hc.symm

theorem closeComment?_append (h : closeComment? chars = some cut) (behind : List Char) :
    closeComment? (chars ++ behind) = some (cut.followedBy behind) := by
  fun_induction closeComment? chars generalizing cut with
  | case1 => contradiction
  | case2 rest =>
    obtain rfl := Option.some.inj h
    rfl
  | case3 c rest hn ih =>
    obtain ⟨inner, found, rfl⟩ := Option.map_eq_some_iff.1 h
    rw [List.cons_append, closeComment?, ih found]
    · rfl
    · rintro more rfl he
      cases rest with
      | nil => contradiction
      | cons d rest =>
        obtain ⟨rfl, -⟩ := List.cons.inj he
        exact hn rest rfl rfl

theorem closeBrace?_append {depth : Nat} (h : closeBrace? depth chars = some cut)
    (behind : List Char) : closeBrace? depth (chars ++ behind) = some (cut.followedBy behind) := by
  fun_induction closeBrace? depth chars generalizing cut with
  | case1 => contradiction
  | case3 rest =>
    obtain rfl := Option.some.inj h
    rfl
  | case2 depth rest ih | case4 rest depth ih =>
    obtain ⟨inner, found, rfl⟩ := Option.map_eq_some_iff.1 h
    rw [List.cons_append, closeBrace?, ih found]
    rfl
  | case5 depth c rest ho hz hs ih =>
    obtain ⟨inner, found, rfl⟩ := Option.map_eq_some_iff.1 h
    rw [List.cons_append, closeBrace?, ih found]
    · rfl
    · exact ho
    · exact hz
    · exact hs

theorem closeOnLine?_append (mark : Char) (h : '\n' ∈ chars) (behind : List Char) :
    closeOnLine? mark (chars ++ behind) =
      (closeOnLine? mark chars).map (Cut.followedBy behind) := by
  induction chars with
  | nil => contradiction
  | cons c rest ih =>
    rw [List.cons_append, closeOnLine?, closeOnLine?]
    by_cases hc : c = '\n'
    · rw [if_pos hc, if_pos hc]
      rfl
    · rw [if_neg hc, if_neg hc]
      split
      · rfl
      · rw [ih (mem_of_ne h hc), Cut.map_cons_followedBy]

theorem headerName?_append (h : '\n' ∈ chars) (behind : List Char) :
    headerName? (chars ++ behind) = (headerName? chars).map (Cut.followedBy behind) := by
  cases chars with
  | nil => contradiction
  | cons c rest =>
    rw [List.cons_append]
    by_cases ha : c = '<'
    · subst ha
      rw [headerName?, headerName?, closeOnLine?_append '>' (mem_of_ne h (by decide)),
        Cut.map_cons_followedBy]
    by_cases hq : c = '"'
    · subst hq
      rw [headerName?, headerName?, closeOnLine?_append '"' (mem_of_ne h (by decide)),
        Cut.map_cons_followedBy]
    · rw [headerName?, headerName?]
      · rfl
      all_goals simp_all

theorem closeQuote?_append (quote : Char) (escaped : Bool) (h : '\n' ∈ chars)
    (behind : List Char) : closeQuote? quote escaped (chars ++ behind) =
      (closeQuote? quote escaped chars).map (Cut.followedBy behind) := by
  induction chars generalizing escaped with
  | nil => contradiction
  | cons c rest ih =>
    rw [List.cons_append, closeQuote?, closeQuote?]
    by_cases hc : c = '\n'
    · rw [if_pos hc, if_pos hc]
      rfl
    · rw [if_neg hc, if_neg hc]
      split
      · rfl
      · rw [ih _ (mem_of_ne h hc), Cut.map_cons_followedBy]

theorem strip?_append {lead : List Char} (hl : '\n' ∉ lead) (h : '\n' ∈ chars)
    (behind : List Char) :
    strip? lead (chars ++ behind) = (strip? lead chars).map (Cut.followedBy behind) := by
  fun_induction strip? lead chars with
  | case1 => rfl
  | case2 c lead rest ih =>
    obtain ⟨hc, hl⟩ := not_or.1 (mt List.mem_cons.2 hl)
    rw [List.cons_append, strip?, if_pos rfl, ih hl (mem_of_ne h (Ne.symm hc)),
      Cut.map_cons_followedBy]
  | case3 l lead c rest hc => rw [List.cons_append, strip?, if_neg hc]; rfl
  | case4 => contradiction

theorem punctuator?_append (h : '\n' ∈ chars) (behind : List Char) :
    punctuator? (chars ++ behind) = (punctuator? chars).map (Cut.followedBy behind) := by
  have hline : ∀ text ∈ punctuatorTexts, '\n' ∉ text := by decide +kernel
  unfold punctuator?
  generalize punctuatorTexts = texts at hline
  induction texts with
  | nil => rfl
  | cons text rest ih =>
    obtain ⟨ht, hr⟩ := List.forall_mem_cons.1 hline
    rw [List.findSome?_cons, List.findSome?_cons, strip?_append ht h, ih hr]
    cases strip? text chars <;> rfl

theorem quoteAfter?_append {encoding : List Char} (hl : '\n' ∉ encoding) (h : '\n' ∈ chars)
    (behind : List Char) : quoteAfter? encoding (chars ++ behind) =
      (quoteAfter? encoding chars).map fun found => (found.1, found.2 ++ behind) := by
  fun_induction quoteAfter? encoding chars with
  | case1 quote rest hq => rw [List.cons_append, quoteAfter?, if_pos hq]; rfl
  | case2 quote rest hq => rw [List.cons_append, quoteAfter?, if_neg hq]; rfl
  | case3 e encoding rest ih =>
    obtain ⟨hc, hl⟩ := not_or.1 (mt List.mem_cons.2 hl)
    rw [List.cons_append, quoteAfter?, if_pos rfl, ih hl (mem_of_ne h (Ne.symm hc))]
  | case4 e encoding c rest hc => rw [List.cons_append, quoteAfter?, if_neg hc]; rfl
  | case5 => contradiction

/-- The same opening in a text with more behind it. -/
def Opening.followedBy (behind : List Char) (opening : Opening) : Opening :=
  { opening with rest := opening.rest ++ behind }

theorem opening?_append (h : '\n' ∈ chars) (behind : List Char) :
    opening? (chars ++ behind) = (opening? chars).map (Opening.followedBy behind) := by
  have hline : ∀ encoding ∈ encodings, '\n' ∉ encoding := by decide
  unfold opening?
  generalize encodings = listed at hline
  induction listed with
  | nil => rfl
  | cons encoding rest ih =>
    obtain ⟨he, hr⟩ := List.forall_mem_cons.1 hline
    rw [List.findSome?_cons, List.findSome?_cons, quoteAfter?_append he h, ih hr]
    cases quoteAfter? encoding chars <;> rfl

/-- A line does not end in the encoding of a literal, or in its opening quote. -/
theorem mem_of_opening? {opening : Opening} (h : '\n' ∈ chars)
    (ho : opening? chars = some opening) : '\n' ∈ opening.rest := by
  have hline : ∀ encoding ∈ encodings, '\n' ∉ encoding := by decide
  obtain ⟨rfl, hq⟩ := eq_of_opening? ho
  rcases List.mem_append.1 h with he | hr
  · obtain ⟨encoding, hm, found⟩ := List.exists_of_findSome?_eq_some ho
    obtain ⟨_, -, rfl⟩ := Option.map_eq_some_iff.1 found
    exact absurd he (hline encoding hm)
  · refine mem_of_ne hr ?_
    rintro he
    rw [he] at hq
    contradiction

theorem numberTail_append (exponent : Bool) (h : '\n' ∈ chars) (behind : List Char) :
    numberTail exponent (chars ++ behind) = (numberTail exponent chars).followedBy behind := by
  have hline : ∀ exponent, ¬(Unicode.isWord '\n' || '\n' = '.' ||
      (exponent && ('\n' = '+' || '\n' = '-'))) := by decide +kernel
  fun_induction numberTail exponent chars with
  | case1 => contradiction
  | case2 exponent c rest hc ih =>
    have hr : '\n' ∈ rest := mem_of_ne h fun he => hline exponent (he ▸ hc)
    rw [List.cons_append, numberTail, if_pos hc, ih hr, Cut.followedBy_cons]
  | case3 exponent c rest hc => rw [List.cons_append, numberTail, if_neg hc]; rfl

/-! ## One lexeme -/

variable {c : Char} {rest : List Char}

theorem directiveHash?_append (context : Context) (h : '\n' ∈ chars) (behind : List Char) :
    directiveHash? context (chars ++ behind) =
      (directiveHash? context chars).map (Cut.followedBy behind) := by
  match chars, h with
  | [d], h =>
    obtain rfl := List.mem_singleton.1 h
    rfl
  | d :: e :: rest, h =>
    rw [List.cons_append, List.cons_append]
    by_cases hd : d = '#'
    · subst hd
      simp only [directiveHash?]
      split <;> rfl
    by_cases he : d = '%' ∧ e = ':'
    · obtain ⟨rfl, rfl⟩ := he
      simp only [directiveHash?]
      split <;> rfl
    · rw [directiveHash?, directiveHash?]
      · rfl
      all_goals simp_all

theorem readPlain_append (h : '\n' ∈ rest) (behind : List Char) :
    readPlain c (rest ++ behind) =
      ((readPlain c rest).1, (readPlain c rest).2.followedBy behind) := by
  have hstart : startsNumber c (rest ++ behind) = startsNumber c rest := by
    obtain ⟨d, more, rfl⟩ := List.exists_cons_of_ne_nil (List.ne_nil_of_mem h)
    rfl
  have hword : Unicode.isWord '\n' = false := by decide +kernel
  have hp := punctuator?_append (List.mem_cons_of_mem c h) behind
  rw [List.cons_append] at hp
  rw [readPlain, readPlain, hstart, numberTail_append false h, Cut.takeWhile_append h hword, hp]
  split
  · rfl
  · split
    · rfl
    · cases punctuator? (c :: rest) <;> rfl

theorem readLiteral_append {kind : Token.Kind} (h : '\n' ∈ rest)
    (hr : readLiteral c rest = .lexeme kind cut) (behind : List Char) :
    readLiteral c (rest ++ behind) = .lexeme kind (cut.followedBy behind) := by
  have ho := opening?_append (List.mem_cons_of_mem c h) behind
  rw [List.cons_append] at ho
  unfold readLiteral at hr ⊢
  rw [ho, readPlain_append h]
  cases hopen : opening? (c :: rest) with
  | none =>
    rw [hopen] at hr
    obtain ⟨rfl, rfl⟩ := Reading.lexeme.inj hr
    rfl
  | some opening =>
    rw [hopen] at hr
    dsimp only at hr
    rw [Option.map_some]
    dsimp only [Opening.followedBy]
    rw [closeQuote?_append _ _ (mem_of_opening? (List.mem_cons_of_mem c h) hopen)]
    split at hr
    · next inner hclose =>
      obtain ⟨rfl, rfl⟩ := Reading.lexeme.inj hr
      rw [hclose]
      rfl
    · contradiction

theorem readText_append {context : Context} {kind : Token.Kind} (h : '\n' ∈ rest)
    (hr : readText context c rest = .lexeme kind cut) (behind : List Char) :
    readText context c (rest ++ behind) = .lexeme kind (cut.followedBy behind) := by
  unfold readText at hr ⊢
  split at hr
  · next hb =>
    rw [if_pos hb]
    split at hr
    · next inner hclose =>
      obtain ⟨rfl, rfl⟩ := Reading.lexeme.inj hr
      rw [closeBrace?_append hclose]
      rfl
    · contradiction
  · next hb =>
    rw [if_neg hb]
    exact readLiteral_append h hr behind

/-- A lexeme is read whatever stands behind its line. -/
theorem read_append {directives : Bool} {context : Context} {kind : Token.Kind}
    (h : '\n' ∈ c :: rest) (hr : read directives context c rest = .lexeme kind cut)
    (behind : List Char) :
    read directives context c (rest ++ behind) = .lexeme kind (cut.followedBy behind) := by
  have hhash : (if directives then directiveHash? context (c :: (rest ++ behind)) else none) =
      (if directives then directiveHash? context (c :: rest) else none).map
        (Cut.followedBy behind) := by
    have happend := directiveHash?_append context h behind
    rw [List.cons_append] at happend
    rw [happend]
    cases directives <;> rfl
  have hname : (if context = .header then headerName? (c :: (rest ++ behind)) else none) =
      (if context = .header then headerName? (c :: rest) else none).map
        (Cut.followedBy behind) := by
    have happend := headerName?_append h behind
    rw [List.cons_append] at happend
    rw [happend]
    split <;> rfl
  unfold read at hr ⊢
  rw [hhash, hname]
  split at hr
  · next hc =>
    obtain ⟨rfl, rfl⟩ := Reading.lexeme.inj hr
    rw [if_pos hc]
    rfl
  · next hc =>
    rw [if_neg hc]
    split at hr
    · next found =>
      obtain ⟨rfl, rfl⟩ := Reading.lexeme.inj hr
      rw [found]
      rfl
    · next found =>
      rw [found]
      split at hr
      · next found =>
        obtain ⟨rfl, rfl⟩ := Reading.lexeme.inj hr
        rw [found]
        rfl
      · next found =>
        rw [found]
        exact readText_append (mem_of_ne h hc) hr behind

/-! ## What stands between lexemes -/

theorem skip_block (h : closeComment? rest = some cut) :
    skip ('/' :: '*' :: rest) = (skip cut.rest).prepend ('/' :: '*' :: cut.text) := by
  rw [skip]
  split
  · next found =>
    obtain rfl := Option.some.inj (h.symm.trans found)
    rfl
  · next found => cases h.symm.trans found

/-- What is skipped in front of a lexeme is skipped whatever stands behind its line. -/
theorem skip_append {gap : List Char} (hc : Closed chars)
    (h : skip chars = .skipped gap (c :: rest)) (behind : List Char) :
    skip (chars ++ behind) = .skipped gap (c :: rest ++ behind) := by
  fun_induction skip chars generalizing gap with
  | case1 => cases (Gap.skipped.inj h).2
  | case2 more line =>
    rename_i ih
    obtain ⟨inner, hs, rfl⟩ := eq_of_prepend h
    have hclosed : Closed (Cut.takeWhile (· ≠ '\n') more).rest :=
      hc.of_suffix ((List.dropWhile_suffix _).trans ⟨['/', '/'], rfl⟩)
    have hline : '\n' ∈ more := by
      refine (List.dropWhile_suffix (· ≠ '\n')).mem (hclosed.mem ?_)
      intro he
      rw [he, skip] at hs
      cases (Gap.skipped.inj hs).2
    rw [List.cons_append, List.cons_append, skip, Cut.takeWhile_append hline rfl,
      Cut.rest_followedBy, ih hclosed hs]
    rfl
  | case3 more cut closed ih =>
    obtain ⟨inner, hs, rfl⟩ := eq_of_prepend h
    have hclosed : Closed cut.rest :=
      hc.of_suffix ⟨'/' :: '*' :: cut.text, by rw [← whole_closeComment? closed]; rfl⟩
    rw [List.cons_append, List.cons_append, skip_block (closeComment?_append closed behind),
      Cut.rest_followedBy, ih hclosed hs]
    rfl
  | case4 => contradiction
  | case5 d more hl hk hb ih =>
    obtain ⟨inner, hs, rfl⟩ := eq_of_prepend h
    have hclosed : Closed more := hc.of_suffix (List.suffix_cons d more)
    rw [List.cons_append, skip, if_pos hb, ih hclosed hs]
    · rfl
    all_goals
      rintro behind rfl
      contradiction
  | case6 d more hl hk hb =>
    obtain ⟨rfl, he⟩ := Gap.skipped.inj h
    obtain ⟨rfl, rfl⟩ := List.cons.inj he
    -- A comment that begins here would begin behind the cut.
    have hcut {mark : Char} {after : List Char}
        (hn : ∀ after, d = '/' → more = mark :: after → False) (hs : d = '/')
        (he : more ++ behind = mark :: after) : False := by
      cases more with
      | nil => exact absurd (hs.symm.trans (hc d rfl)) (by decide)
      | cons e more => exact hn more hs (by rw [(List.cons.inj he).1])
    rw [List.cons_append, skip, if_neg hb]
    · exact fun _ hs he => hcut hl hs he
    · exact fun _ hs he => hcut hk hs he

/-- What is skipped does not end with a newline. -/
theorem Skipped.eq_nil {gap rest : List Char} (h : Skipped gap rest) (hc : Closed gap) :
    gap = [] := by
  induction h with
  | nil => rfl
  | @blank d gap rest hd _ ih =>
    obtain rfl := ih (hc.of_suffix (List.suffix_cons d gap))
    obtain rfl := hc d rfl
    contradiction
  | @line text rest ht hr =>
    have hm : '\n' ∈ '/' :: '/' :: text := hc.mem (List.cons_ne_nil _ _)
    exact absurd (mem_of_ne (mem_of_ne hm (by decide)) (by decide)) ht
  | @block text gap rest ht _ ih =>
    have hsuffix : gap <:+ '/' :: '*' :: (text ++ '*' :: '/' :: gap) :=
      ⟨'/' :: '*' :: (text ++ ['*', '/']), by simp⟩
    obtain rfl := ih (hc.of_suffix hsuffix)
    have hlast : Closed ['/'] := hc.of_suffix ⟨'/' :: '*' :: (text ++ ['*']), by simp⟩
    exact absurd (hlast '/' rfl) (by decide)

/-! ## What ends a line -/

theorem text_closeBrace? {depth : Nat} (h : closeBrace? depth chars = some cut) :
    ∃ front, cut.text = front ++ ['\x7d'] := by
  fun_induction closeBrace? depth chars generalizing cut with
  | case1 => contradiction
  | case3 rest =>
    obtain rfl := Option.some.inj h
    exact ⟨[], rfl⟩
  | case2 depth rest ih | case4 rest depth ih | case5 depth c rest _ _ _ ih =>
    obtain ⟨inner, found, rfl⟩ := Option.map_eq_some_iff.1 h
    obtain ⟨front, ht⟩ := ih found
    exact ⟨_ :: front, by rw [Cut.text_cons, ht]; rfl⟩

/-- No lexeme but a newline ends with one. -/
theorem newline_of_closed {directives : Bool} {context : Context} {kind : Token.Kind}
    (hr : read directives context c rest = .lexeme kind cut) (hc : Closed cut.text) :
    kind = .newline := by
  have hm := hc.mem (List.ne_nil_of_mem (List.mem_of_head? (front_of_read hr).2))
  cases readAs_of_read hr with
  | newline => rfl
  | hash _ _ hf => exact absurd hm (not_mem_directiveHash? hf)
  | header _ _ _ hf => exact absurd hm (not_mem_headerName? hf)
  | block _ _ _ hb =>
    -- Newlines may stand in a block, but it ends with its brace.
    obtain ⟨front, ht⟩ := text_closeBrace? hb
    rw [Cut.text_cons, ht, ← List.cons_append] at hc
    exact absurd (hc '\x7d' List.getLast?_concat) (by decide)
  | literal hn _ _ _ hl => exact absurd hm (not_mem_readLiteral hn hl)

/-! ## The whole text -/

/-- The place behind several lexemes. -/
def Context.behind (context : Context) (lexemes : List Lexeme) : Context :=
  lexemes.foldl (fun context lexeme => context.next lexeme.kind lexeme.text) context

/-- Nothing is left open at the end of a text. -/
def Ending.IsComplete : Ending → Prop
  | complete _ _ => True
  | unclosed _ _ _ => False

theorem divide_cons {directives : Bool} {context : Context} {gap : List Char} {kind : Token.Kind}
    (hs : skip chars = .skipped gap (c :: rest))
    (hr : read directives context c rest = .lexeme kind cut) :
    divide directives context chars =
      (divide directives (context.next kind cut.text) cut.rest).cons ⟨gap, kind, cut.text⟩ := by
  rw [divide]
  split
  · next h => cases hs.symm.trans h
  · next h => cases (Gap.skipped.inj (hs.symm.trans h)).2
  · next h =>
    obtain ⟨rfl, he⟩ := Gap.skipped.inj (hs.symm.trans h)
    obtain ⟨rfl, rfl⟩ := List.cons.inj he
    split
    · next h => cases hr.symm.trans h
    · next h =>
      obtain ⟨rfl, rfl⟩ := Reading.lexeme.inj (hr.symm.trans h)
      rfl

/-- The line has begun at the end of a text if it has behind the last lexeme. -/
theorem ending_eq {directives : Bool} {context : Context}
    (h : (divide directives context chars).ending.IsComplete) :
    ∃ gap, (divide directives context chars).ending =
      .complete gap (context.behind (divide directives context chars).lexemes).midLine := by
  fun_induction divide directives context chars with
  | case1 | case3 => contradiction
  | case2 context chars gap hs => exact ⟨gap, rfl⟩
  | case4 context chars gap c rest hs kind cut hr ih => exact ih h

/-- What is skipped at the end of a text does not end with a newline. -/
theorem eq_nil_of_skip {gap : List Char} (hc : Closed chars) (hs : skip chars = .skipped gap []) :
    chars = [] := by
  have hw := whole_skip chars
  rw [hs, Gap.whole, List.append_nil] at hw
  subst hw
  exact (skipped_of_skip hs).eq_nil hc

/-- What is left behind a lexeme is closed where the whole text is. -/
theorem closed_rest {directives : Bool} {context : Context} {gap : List Char} {kind : Token.Kind}
    (hc : Closed chars) (hs : skip chars = .skipped gap (c :: rest))
    (hr : read directives context c rest = .lexeme kind cut) :
    Closed (c :: rest) ∧ Closed cut.rest := by
  have hw := whole_skip chars
  rw [hs, Gap.whole] at hw
  have hcover := covers_read directives context c rest
  rw [hr] at hcover
  have hline : Closed (c :: rest) := hc.of_suffix ⟨gap, hw⟩
  exact ⟨hline, hline.of_suffix ⟨cut.text, hcover.1⟩⟩

theorem eq_nil_of_lexemes {directives : Bool} {context : Context} (hc : Closed chars)
    (h : (divide directives context chars).ending.IsComplete)
    (hn : (divide directives context chars).lexemes = []) : chars = [] := by
  fun_induction divide directives context chars with
  | case1 | case3 | case4 => contradiction
  | case2 context chars gap hs => exact eq_nil_of_skip hc hs

/-- A text that ends with a newline ends with a newline as a lexeme. -/
theorem newline_of_mem_getLast? {directives : Bool} {context : Context} (hc : Closed chars)
    (h : (divide directives context chars).ending.IsComplete) :
    ∀ last ∈ (divide directives context chars).lexemes.getLast?, last.kind = .newline := by
  fun_induction divide directives context chars with
  | case1 | case3 => contradiction
  | case2 context chars gap hs =>
    intro last hm
    contradiction
  | case4 context chars gap c rest hs kind cut hr ih =>
    obtain ⟨hline, hrest⟩ := closed_rest hc hs hr
    intro last hm
    rw [Division.cons, List.getLast?_cons] at hm
    obtain rfl := Option.some.inj hm
    cases hl : (divide directives (context.next kind cut.text) cut.rest).lexemes.getLast? with
    | some last => exact ih hrest h last hl
    | none =>
      have hempty := eq_nil_of_lexemes hrest h (List.getLast?_eq_none_iff.1 hl)
      have hcover := covers_read directives context c rest
      rw [hr] at hcover
      obtain ⟨hwhole, -⟩ := hcover
      rw [Cut.whole, hempty, List.append_nil] at hwhole
      exact newline_of_closed hr (hwhole ▸ hline)

/-- A text that is cut behind a newline is divided part by part, if nothing is left open there. -/
theorem divide_append {directives : Bool} {context : Context} (hc : Closed chars)
    (h : (divide directives context chars).ending.IsComplete) (behind : List Char) :
    divide directives context (chars ++ behind) =
      ⟨(divide directives context chars).lexemes ++
          (divide directives (context.behind (divide directives context chars).lexemes)
            behind).lexemes,
        (divide directives (context.behind (divide directives context chars).lexemes)
          behind).ending⟩ := by
  fun_induction divide directives context chars with
  | case1 | case3 => contradiction
  | case2 context chars gap hs =>
    obtain rfl := eq_nil_of_skip hc hs
    rfl
  | case4 context chars gap c rest hs kind cut hr ih =>
    obtain ⟨hline, hrest⟩ := closed_rest hc hs hr
    have hread := read_append (hline.mem (List.cons_ne_nil c rest)) hr behind
    rw [divide_cons (skip_append hc hs behind) hread, Cut.text_followedBy, Cut.rest_followedBy,
      ih hrest h]
    rfl

end Lexeme

end CPreprocessor

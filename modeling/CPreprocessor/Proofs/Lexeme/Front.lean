import CPreprocessor.Proofs.Lexeme.Append

/-!
# The front of a text

What has been read of a text up to a newline is read in the same way if the text ends there, even
where the reading of the whole stops at something that is left open.

* `read_front`, `skip_front`: what is read on the lines in front of a cut is read without what is
  behind the cut.
* `divide_front`: the lexemes up to a newline are those of the text up to it.
-/

namespace CPreprocessor.Lexeme

open Source

variable {directives : Bool} {context : Context} {c : Char} {rest less text behind : List Char}
  {kind : Token.Kind}

/-! ## Readers that look behind the line -/

/-- A block is read up to the brace that closes it. -/
theorem closeBrace?_congr {depth : Nat} {chars : List Char} {cut : Cut}
    (h : closeBrace? depth chars = some cut) (less : List Char) :
    closeBrace? depth (cut.text ++ less) = some ⟨cut.text, less⟩ := by
  fun_induction closeBrace? depth chars generalizing cut with
  | case1 => contradiction
  | case3 behind =>
    obtain rfl := Option.some.inj h
    rfl
  | case2 depth behind ih | case4 behind depth ih =>
    obtain ⟨inner, found, rfl⟩ := Option.map_eq_some_iff.1 h
    rw [Cut.text_cons, List.cons_append, closeBrace?, ih found]
    rfl
  | case5 depth d behind ho hz hs ih =>
    obtain ⟨inner, found, rfl⟩ := Option.map_eq_some_iff.1 h
    rw [Cut.text_cons, List.cons_append, closeBrace?, ih found]
    · rfl
    · exact ho
    · exact hz
    · exact hs

/-- A comment is read up to the first mark that closes it. -/
theorem closeComment?_of_not_infix (h : ¬['*', '/'] <:+: text ++ ['*']) (rest : List Char) :
    closeComment? (text ++ '*' :: '/' :: rest) = some ⟨text ++ ['*', '/'], rest⟩ := by
  induction text with
  | nil => rfl
  | cons d text ih =>
    rw [List.cons_append, List.infix_cons_iff, not_or] at h
    obtain ⟨hstart, hinner⟩ := h
    rw [List.cons_append, closeComment?, ih hinner]
    · rfl
    · rintro more rfl he
      refine hstart (List.cons_prefix_cons.2 ⟨rfl, ?_⟩)
      cases text with
      | nil => exact absurd (List.cons.inj he).1 (by decide)
      | cons e text =>
        obtain ⟨rfl, -⟩ := List.cons.inj he
        exact List.cons_prefix_cons.2 ⟨rfl, List.nil_prefix⟩

/-! ## What stands between lexemes -/

/-- What may be passed over is passed over. -/
theorem skip_of_skipped {gap : List Char} (h : Skipped gap rest) :
    skip (gap ++ rest) = (skip rest).prepend gap := by
  induction h with
  | nil rest =>
    rw [List.nil_append]
    cases skip rest <;> rfl
  | @blank d gap rest hd _ ih =>
    have hs : d ≠ '/' := by
      rintro rfl
      contradiction
    rw [List.cons_append, skip, if_pos hd, ih]
    · cases skip rest <;> rfl
    all_goals exact fun _ he => absurd he hs
  | @line text rest ht hr =>
    have hkeep : ∀ d ∈ text, decide (d ≠ '\n') = true :=
      fun d hm => decide_eq_true fun he => ht (he ▸ hm)
    have hdrop : rest.dropWhile (fun d => decide (d ≠ '\n')) = rest ∧
        rest.takeWhile (fun d => decide (d ≠ '\n')) = [] := by
      cases rest with
      | nil => exact ⟨rfl, rfl⟩
      | cons d rest =>
        obtain rfl := hr d rfl
        exact ⟨rfl, rfl⟩
    rw [List.cons_append, List.cons_append, skip, Cut.takeWhile,
      List.takeWhile_append_of_pos hkeep, List.dropWhile_append_of_pos hkeep, hdrop.1, hdrop.2,
      List.append_nil]
  | @block text gap rest ht _ ih =>
    have hclose := closeComment?_of_not_infix ht (gap ++ rest)
    have hsplit : '/' :: '*' :: (text ++ '*' :: '/' :: gap) ++ rest =
        '/' :: '*' :: (text ++ '*' :: '/' :: (gap ++ rest)) := by simp
    rw [hsplit, skip_block hclose, ih]
    cases skip rest <;> simp [Gap.prepend]

/-- Nothing is skipped in front of a character that is no blank and begins no comment. -/
theorem skip_eq_self_iff : skip (c :: rest) = .skipped [] (c :: rest) ↔
    isBlank c = false ∧ (c = '/' → ∀ d ∈ rest.head?, d ≠ '/' ∧ d ≠ '*') := by
  constructor
  · intro h
    by_cases hs : c = '/'
    · subst hs
      refine ⟨rfl, fun _ d hd => ?_⟩
      obtain ⟨more, rfl⟩ := List.head?_eq_some_iff.1 hd
      constructor
      · rintro rfl
        rw [skip] at h
        obtain ⟨_, _, he⟩ := eq_of_prepend h
        contradiction
      · rintro rfl
        cases hc : closeComment? more with
        | none =>
          rw [skip] at h
          split at h
          · next found => cases hc.symm.trans found
          · contradiction
        | some cut =>
          rw [skip_block hc] at h
          obtain ⟨_, _, he⟩ := eq_of_prepend h
          contradiction
    · refine ⟨?_, fun he => absurd he hs⟩
      by_contra hb
      rw [skip, if_pos (by simpa using hb)] at h
      · obtain ⟨_, _, he⟩ := eq_of_prepend h
        contradiction
      all_goals exact fun _ he => absurd he hs
  · rintro ⟨hb, hs⟩
    rw [skip, if_neg (by simp [hb])]
    · rintro more he rfl
      exact (hs he '/' rfl).1 rfl
    · rintro more he rfl
      exact (hs he '*' rfl).2 rfl

/-- Where nothing is passed over in front of a text, nothing is in front of its first lines. -/
theorem skip_nil_front (h : skip (c :: rest) = .skipped [] (c :: rest)) (hp : less <+: rest) :
    skip (c :: less) = .skipped [] (c :: less) := by
  rw [skip_eq_self_iff] at h ⊢
  refine ⟨h.1, fun hc d hd => h.2 hc d ?_⟩
  obtain ⟨behind, rfl⟩ := hp
  rw [List.head?_append, hd]
  rfl

/-- Where a lexeme is read, nothing is skipped any more. -/
theorem skip_behind {gap chars : List Char} (h : skip chars = .skipped gap (c :: rest)) :
    skip (c :: rest) = .skipped [] (c :: rest) := by
  have hwhole := whole_skip chars
  rw [h, Gap.whole] at hwhole
  rw [← hwhole, skip_of_skipped (skipped_of_skip h)] at h
  obtain ⟨inner, hs, he⟩ := eq_of_prepend h
  rwa [List.self_eq_append_right.1 he] at hs

/-- What is skipped in front of a lexeme is skipped without what is behind the cut. -/
theorem skip_front {gap chars : List Char} (h : skip chars = .skipped gap (c :: rest))
    (hp : less <+: rest) : skip (gap ++ c :: less) = .skipped gap (c :: less) := by
  have hfront : Skipped gap (c :: less) := (skipped_of_skip h).congr rfl
  rw [skip_of_skipped hfront, skip_nil_front (skip_behind h) hp, Gap.prepend, List.append_nil]

/-! ## One lexeme -/

theorem eq_of_whole_append {cut : Cut} {chars : List Char} (hw : cut.whole = chars ++ behind)
    (hr : cut.rest = less ++ behind) : chars = cut.text ++ less := by
  rw [Cut.whole, hr, ← List.append_assoc] at hw
  exact (List.append_cancel_right hw).symm

theorem readLiteral_front (hn : '\n' ∈ rest) {cut : Cut}
    (hr : readLiteral c (rest ++ behind) = .lexeme kind cut) (hb : cut.rest = less ++ behind) :
    readLiteral c rest = .lexeme kind ⟨cut.text, less⟩ := by
  have ho := opening?_append (List.mem_cons_of_mem c hn) behind
  rw [List.cons_append] at ho
  unfold readLiteral at hr ⊢
  rw [ho, readPlain_append hn] at hr
  cases hopen : opening? (c :: rest) with
  | none =>
    rw [hopen] at hr
    obtain ⟨rfl, rfl⟩ := Reading.lexeme.inj hr
    rw [← List.append_cancel_right (hb : _ ++ behind = _)]
    rfl
  | some opening =>
    rw [hopen, Option.map_some] at hr
    dsimp only [Opening.followedBy] at hr ⊢
    rw [closeQuote?_append _ _ (mem_of_opening? (List.mem_cons_of_mem c hn) hopen)] at hr
    cases hclose : closeQuote? opening.quote false opening.rest with
    | none =>
      rw [hclose] at hr
      contradiction
    | some inner =>
      rw [hclose] at hr
      obtain ⟨rfl, rfl⟩ := Reading.lexeme.inj hr
      rw [← List.append_cancel_right (hb : inner.rest ++ behind = _)]
      rfl

theorem readText_front (hn : '\n' ∈ rest) {cut : Cut}
    (hr : readText context c (rest ++ behind) = .lexeme kind cut) (hb : cut.rest = less ++ behind) :
    readText context c rest = .lexeme kind ⟨cut.text, less⟩ := by
  unfold readText at hr ⊢
  split at hr
  · next hasm =>
    rw [if_pos hasm]
    split at hr
    · next inner hclose =>
      obtain ⟨rfl, rfl⟩ := Reading.lexeme.inj hr
      rw [eq_of_whole_append (whole_closeBrace? hclose) hb, closeBrace?_congr hclose less]
      rfl
    · contradiction
  · next hasm =>
    rw [if_neg hasm]
    exact readLiteral_front hn hr hb

/-- A lexeme in front of a cut is read without what is behind the cut. -/
theorem read_front (hn : '\n' ∈ c :: rest) {cut : Cut}
    (hr : read directives context c (rest ++ behind) = .lexeme kind cut)
    (hb : cut.rest = less ++ behind) :
    read directives context c rest = .lexeme kind ⟨cut.text, less⟩ := by
  cases hfront : read directives context c rest with
  | lexeme _ found =>
    have happend := read_append hn hfront behind
    obtain ⟨rfl, rfl⟩ := Reading.lexeme.inj (happend.symm.trans hr)
    rw [← List.append_cancel_right (hb : found.rest ++ behind = _)]
    rfl
  | unclosed opener before opened =>
    -- Only a literal or a block can be left open, and each is read as without the lines behind it.
    exfalso
    have hhash := directiveHash?_append context hn behind
    have hname := headerName?_append hn behind
    rw [List.cons_append] at hhash hname
    unfold read at hr hfront
    rw [hhash, hname] at hr
    split at hfront
    · contradiction
    · next hc =>
      rw [if_neg hc] at hr
      split at hfront
      · contradiction
      · next hnone =>
        have hfound : (if directives then
            (directiveHash? context (c :: rest)).map (Cut.followedBy behind) else none) = none := by
          cases directives with
          | false => rfl
          | true => exact Option.map_eq_none_iff.2 hnone
        rw [hfound] at hr
        dsimp only at hr
        split at hfront
        · contradiction
        · next hnone =>
          have hfound : (if context = .header then
              (headerName? (c :: rest)).map (Cut.followedBy behind) else none) = none := by
            split at hnone
            · next hh => rw [if_pos hh, hnone]; rfl
            · next hh => exact if_neg hh
          rw [hfound] at hr
          dsimp only at hr
          rw [readText_front (mem_of_ne hn hc) hr hb] at hfront
          contradiction

theorem text_of_newline {cut : Cut} (h : read directives context c rest = .lexeme .newline cut) :
    cut.text = ['\n'] := by
  cases readAs_of_read h with
  | newline hc => rw [hc]
  | literal _ _ _ _ hl =>
    have hordinary := isOrdinary_readLiteral hl
    contradiction

/-! ## One line -/

theorem inner_of_skip {gap chars : List Char} (hn : '\n' ∉ chars)
    (hs : skip chars = .skipped gap (c :: rest)) : '\n' ∉ c :: rest := by
  have hwhole := whole_skip chars
  rw [hs, Gap.whole] at hwhole
  exact fun hm => hn (hwhole ▸ List.mem_append_right _ hm)

/-- On one line no newline is read, and the line goes on behind what is read. -/
theorem inner_of_read {cut : Cut} (hn : '\n' ∉ c :: rest)
    (hr : read directives context c rest = .lexeme kind cut) :
    kind ≠ .newline ∧ '\n' ∉ cut.rest := by
  have hcover := covers_read directives context c rest
  rw [hr] at hcover
  have hwhole : cut.text ++ cut.rest = c :: rest := hcover.1
  refine ⟨?_, fun hm => hn (hwhole ▸ List.mem_append_right _ hm)⟩
  rintro rfl
  refine hn (hwhole ▸ List.mem_append_left _ ?_)
  rw [text_of_newline hr]
  exact List.mem_cons_self

/-! ## The whole text -/

/-- The text of a lexeme and what is skipped in front of it. -/
def whole (lexeme : Lexeme) : List Char := lexeme.gap ++ lexeme.text

theorem divide_nil (directives : Bool) (context : Context) :
    divide directives context [] = ⟨[], .complete [] context.midLine⟩ := by
  have hs : skip [] = .skipped [] [] := by rw [skip]
  rw [divide]
  split
  · next h => cases hs.symm.trans h
  · next h =>
    obtain ⟨rfl, -⟩ := Gap.skipped.inj (hs.symm.trans h)
    rfl
  · next h => cases (Gap.skipped.inj (hs.symm.trans h)).2

theorem divide_eq_cons {chars : List Char} {lexeme : Lexeme} {lexemes : List Lexeme}
    {ending : Ending} (h : divide directives context chars = ⟨lexeme :: lexemes, ending⟩) :
    ∃ c rest cut, skip chars = .skipped lexeme.gap (c :: rest) ∧
      read directives context c rest = .lexeme lexeme.kind cut ∧ cut.text = lexeme.text ∧
      divide directives (context.next lexeme.kind lexeme.text) cut.rest = ⟨lexemes, ending⟩ := by
  rw [divide] at h
  split at h
  · cases (Division.mk.inj h).1
  · cases (Division.mk.inj h).1
  · next gap c rest hs =>
    split at h
    · cases (Division.mk.inj h).1
    · next kind cut hr =>
      obtain ⟨hl, rfl⟩ := Division.mk.inj h
      obtain ⟨rfl, rfl⟩ := List.cons.inj hl
      exact ⟨c, rest, cut, hs, hr, rfl, rfl⟩

theorem eq_of_divide_nil {chars : List Char} {ending : Ending}
    (h : divide directives context chars = ⟨[], ending⟩) (hc : ending.IsComplete) :
    ∃ gap, skip chars = .skipped gap [] ∧ ending = .complete gap context.midLine := by
  rw [divide] at h
  split at h
  · obtain ⟨-, rfl⟩ := Division.mk.inj h
    contradiction
  · next gap hs =>
    obtain ⟨-, rfl⟩ := Division.mk.inj h
    exact ⟨gap, hs, rfl⟩
  · split at h
    · obtain ⟨-, rfl⟩ := Division.mk.inj h
      contradiction
    · cases (Division.mk.inj h).1

/-- A text without a lexeme in which something other than a comment is left open begins with what is
left open. -/
theorem exists_open_of_divide_nil {chars before opened : List Char} {opener : Opener}
    (h : divide directives context chars = ⟨[], .unclosed opener before opened⟩)
    (hc : opener ≠ .comment) :
    ∃ gap c rest encoding, skip chars = .skipped gap (c :: rest) ∧
      read directives context c rest = .unclosed opener encoding opened := by
  rw [divide] at h
  split at h
  · obtain ⟨-, he⟩ := Division.mk.inj h
    exact absurd (Ending.unclosed.inj he).1.symm hc
  · obtain ⟨-, he⟩ := Division.mk.inj h
    contradiction
  · next gap c rest hs =>
    split at h
    · next encoding opened hr =>
      obtain ⟨-, he⟩ := Division.mk.inj h
      obtain ⟨rfl, -, rfl⟩ := Ending.unclosed.inj he
      exact ⟨gap, c, rest, encoding, hs, hr⟩
    · cases (Division.mk.inj h).1

theorem text_ne_nil_of_mem_divide {chars : List Char} :
    ∀ lexeme ∈ (divide directives context chars).lexemes, lexeme.text ≠ [] := by
  fun_induction divide directives context chars with
  | case1 | case2 | case3 =>
    intro lexeme hm
    contradiction
  | case4 context chars gap c rest _ kind cut hr ih =>
    have hcover := covers_read directives context c rest
    rw [hr] at hcover
    exact List.forall_mem_cons.2 ⟨hcover.2, ih⟩

theorem newline_of_mem_divide {chars : List Char} :
    ∀ lexeme ∈ (divide directives context chars).lexemes, lexeme.kind = .newline →
      lexeme.text = ['\n'] := by
  fun_induction divide directives context chars with
  | case1 | case2 | case3 =>
    intro lexeme hm
    contradiction
  | case4 context chars gap c rest _ kind cut hr ih =>
    intro lexeme hm
    rcases List.mem_cons.1 hm with rfl | hm
    · rintro rfl
      exact text_of_newline hr
    · exact ih lexeme hm

/-- A lexeme is made of characters of the text. -/
theorem mem_of_mem_divide {d : Char} {chars : List Char} :
    ∀ lexeme ∈ (divide directives context chars).lexemes, d ∈ lexeme.text → d ∈ chars := by
  fun_induction divide directives context chars with
  | case1 | case2 | case3 =>
    intro lexeme hm
    contradiction
  | case4 context chars gap c rest hs kind cut hr ih =>
    have hwhole := whole_skip chars
    rw [hs, Gap.whole] at hwhole
    have hcover := covers_read directives context c rest
    rw [hr] at hcover
    rw [← hwhole, ← hcover.1, Cut.whole]
    intro lexeme hm hd
    rcases List.mem_cons.1 hm with rfl | hm
    · simp [hd]
    · simp [ih lexeme hm hd]

/-- The lexemes up to a newline are those of the text up to it, and the others are those of the text
behind it. -/
theorem divide_front {chars : List Char} {front more : List Lexeme} {ending : Ending}
    (h : divide directives context chars = ⟨front ++ more, ending⟩)
    (hl : ∀ last ∈ front.getLast?, last.kind = .newline) :
    ∃ behind, chars = front.flatMap whole ++ behind ∧
      divide directives context (front.flatMap whole) =
        ⟨front, .complete [] (context.behind front).midLine⟩ ∧
      divide directives (context.behind front) behind = ⟨more, ending⟩ := by
  induction front generalizing context chars with
  | nil => exact ⟨chars, rfl, divide_nil directives context, h⟩
  | cons lexeme front ih =>
    have hnewline := @newline_of_mem_divide directives context chars
    rw [h] at hnewline
    obtain ⟨c, rest, cut, hs, hr, ht, hd⟩ := divide_eq_cons h
    have hlast : ∀ last ∈ front.getLast?, last.kind = .newline := by
      intro last hm
      refine hl last ?_
      rw [List.getLast?_cons, Option.mem_def.1 hm]
      rfl
    obtain ⟨behind, hrest, hfront, hmore⟩ := ih hd hlast
    obtain ⟨hwhole, hne⟩ : cut.whole = c :: rest ∧ cut.text ≠ [] := by
      have hcover := covers_read directives context c rest
      rwa [hr] at hcover
    rw [Cut.whole, hrest, ht, ← List.append_assoc] at hwhole
    -- The text of the lexeme and of those behind it is what is left of its line and others.
    obtain ⟨less, hless⟩ : ∃ less, lexeme.text ++ front.flatMap whole = c :: less := by
      rw [ht] at hne
      obtain ⟨d, text, he⟩ := List.exists_cons_of_ne_nil hne
      rw [he] at hwhole ⊢
      obtain ⟨rfl, -⟩ := List.cons.inj hwhole
      exact ⟨_, rfl⟩
    rw [hless] at hwhole
    obtain rfl : less ++ behind = rest := (List.cons.inj hwhole).2
    have hn : '\n' ∈ c :: less := by
      rw [← hless]
      obtain ⟨last, hm⟩ := Option.isSome_iff_exists.1
        (List.getLast?_isSome.2 (List.cons_ne_nil lexeme front))
      have hin := List.mem_of_getLast? hm
      have hlt := hnewline last (List.mem_append_left more hin) (hl last hm)
      rcases List.mem_cons.1 hin with rfl | hin
      · rw [hlt]
        exact List.mem_cons_self
      · refine List.mem_append_right _ (List.mem_flatMap.2 ⟨last, hin, ?_⟩)
        exact List.mem_append_right _ (hlt ▸ List.mem_cons_self)
    have hskip := skip_front hs (List.prefix_append less behind)
    have hread := read_front hn hr hrest
    rw [ht] at hread
    have hsplit : (lexeme :: front).flatMap whole = lexeme.gap ++ c :: less := by
      rw [List.flatMap_cons, whole, List.append_assoc, hless]
    refine ⟨behind, ?_, ?_, hmore⟩
    · have hw := whole_skip chars
      rw [hs, Gap.whole] at hw
      rw [hsplit, ← hw, List.append_assoc]
      rfl
    · rw [hsplit, divide_cons hskip hread, hfront]
      rfl

end CPreprocessor.Lexeme

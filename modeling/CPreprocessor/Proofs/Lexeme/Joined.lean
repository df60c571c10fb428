import CPreprocessor.Proofs.Lexeme.Single

/-!
# Two texts that are read as one lexeme

Two texts of tokens are written without a gap and read again. If one token is read, nothing of the
two is lost, neither as a comment nor as a splice: where a comment begins no token is left, and a
literal with a line terminator in it is left open.

* `Guarded`, `Producible`: the texts that tokens of an expansion can have.
* `Seen`, `Producible.seen`: what a scanner makes of such a text. `Seen.bare`: it begins a lexeme,
  whatever stands behind it.
* `Seen.eq_append_of_alone`: the one lexeme of two such texts is both of them.
-/

namespace CPreprocessor.Lexeme

open Source Unicode

variable {c d quote : Char} {text line body rest left right : List Char}
  {kind second : Token.Kind} {lexeme : Lexeme}

/-! ## Texts of tokens -/

/-- What may stand between the quotes that a text is put in. A line terminator may, if no backslash
stands in front of it. -/
inductive Guarded : List Char → Prop where
  | nil : Guarded []
  | plain {c : Char} {text : List Char} (hq : c ≠ '"') (hb : c ≠ '\\') (h : Guarded text) :
      Guarded (c :: text)
  | escaped {c : Char} {text : List Char} (hc : Inner c)
      (hs : c = '\\' → ∀ d ∈ text.head?, Inner d) (h : Guarded text) : Guarded ('\\' :: c :: text)

/-- The texts of the tokens of an expansion: what a scanner reads, but for blocks of assembly text
and a stray backslash, and any text that is put in quotes. -/
inductive Producible : Token.Kind → List Char → Prop where
  | ofClass {kind : Token.Kind} {text : List Char} (h : OfClass kind text)
      (hi : ∀ c ∈ text, Inner c) : Producible kind text
  | other {c : Char} (hb : isBlank c = false) (hq : isQuote c = false) (hi : Inner c)
      (hs : c ≠ '\\') : Producible .other [c]
  | quoted {body : List Char} (h : Guarded body) : Producible .string ('"' :: (body ++ ['"']))

/-- The punctuators that a comment mark can end in. -/
def commentEnds : List (List Char) := [['/'], ['/', '='], ['*'], ['*', '=']]

/-- A text on one line without blanks and quotes, in which no comment begins. -/
structure Unquoted (text : List Char) : Prop where
  solid : Solid text
  ne_nil : text ≠ []
  inner : ∀ c ∈ text, Inner c
  last : text.getLast? ≠ some '\\'
  slash : text.getLast? = some '/' → text = ['/']
  mark : ∀ d ∈ text.head?, d ∈ ['/', '*'] → text ∈ commentEnds

/-- What a scanner makes of the text of a token. -/
inductive Seen : List Char → Prop where
  | plain {text : List Char} (h : Unquoted text) : Seen text
  | literal {encoding body : List Char} {quote : Char} (he : encoding ∈ encodings)
      (hq : isQuote quote) (hb : InQuotes quote body)
      (hi : ∀ c ∈ encoding ++ quote :: (body ++ [quote]), Inner c) :
      Seen (encoding ++ quote :: (body ++ [quote]))
  /-- A literal that a line terminator leaves open. -/
  | broken {line rest : List Char} {c : Char} (h : InQuotes '"' line) (hi : ∀ d ∈ line, Inner d)
      (hl : line.getLast? ≠ some '\\') (hc : ¬Inner c) : Seen ('"' :: (line ++ c :: rest))

theorem solid_of_forall
    (h : ∀ d ∈ text, isBlank d = false ∧ isQuote d = false ∧ d ≠ '\n' ∧ d ≠ '/') : Solid text := by
  induction text with
  | nil => exact .nil
  | cons d rest ih =>
    obtain ⟨⟨hb, hq, hn, hs⟩, hrest⟩ := List.forall_mem_cons.1 h
    exact .cons hb hq hn (fun he => absurd he hs) (ih hrest)

/-- An identifier or a number has none of the characters that anything else begins with. -/
theorem unquoted_of_word (h : ∀ d ∈ text, isWord d ∨ d ∈ ['.', '+', '-']) (hn : text ≠ []) :
    Unquoted text := by
  have hnot : ∀ e ∈ [' ', '\t', '\x0b', '\x0c', '"', '\x27', '\r', '\n', '\\', '/', '*'],
      ¬(isWord e ∨ e ∈ ['.', '+', '-']) := forall_of_all (by decide +kernel)
  have hnone : ∀ e ∈ [' ', '\t', '\x0b', '\x0c', '"', '\x27', '\r', '\n', '\\', '/', '*'],
      e ∉ text := fun e he hm => hnot e he (h e hm)
  simp only [List.forall_mem_cons, List.not_mem_nil, false_imp_iff, forall_const, and_true] at hnone
  obtain ⟨hspace, htab, hvertical, hfeed, hdouble, hsingle, hreturn, hline, hback, hslash, hstar⟩ :=
    hnone
  refine ⟨solid_of_forall fun d hd => ?_, hn, fun d hd => ⟨?_, ?_⟩, fun hl => ?_, fun hl => ?_,
    fun d hd hm => ?_⟩
  · simp [isBlank, isQuote, ne_of_mem_of_not_mem hd, *]
  · exact ne_of_mem_of_not_mem hd hreturn
  · exact ne_of_mem_of_not_mem hd hline
  · exact absurd (List.mem_of_getLast? hl) hback
  · exact absurd (List.mem_of_getLast? hl) hslash
  · rcases List.mem_pair.1 hm with rfl | rfl
    · exact absurd (List.mem_of_head? hd) hslash
    · exact absurd (List.mem_of_head? hd) hstar

theorem unquoted_of_punctuator (h : text ∈ punctuatorTexts) : Unquoted text := by
  have hall : ∀ text ∈ punctuatorTexts,
      (text.all fun d =>
        (isBlank d = false ∧ isQuote d = false ∧ d ≠ '\n') ∧ (d ≠ '\r' ∧ d ≠ '\n') ∧ d ≠ '\\') ∧
        (¬['/', '/'] <:+: text ∧ ¬['/', '*'] <:+: text) ∧
        (text.getLast? = some '/' → text = ['/']) ∧
        (text.head? = some '/' ∨ text.head? = some '*' → text ∈ commentEnds) := by
    decide +kernel
  obtain ⟨hc, ⟨hline, hblock⟩, hslash, hmark⟩ := hall text h
  replace hc := forall_of_all hc
  have hsolid : Solid text := solid_of_not_infix (fun d hd => (hc d hd).1) hline hblock
  have hopen : ∀ d ∈ text.head?, d ∈ ['/', '*'] → text ∈ commentEnds := by
    intro d hd hm
    rcases List.mem_pair.1 hm with rfl | rfl
    · exact hmark (.inl hd)
    · exact hmark (.inr hd)
  exact ⟨hsolid, punctuatorTexts_ne_nil _ h,
    fun d hd => (hc d hd).2.1, fun hl => (hc _ (List.mem_of_getLast? hl)).2.2 rfl, hslash, hopen⟩

theorem unquoted_singleton (hb : isBlank c = false) (hq : isQuote c = false) (hi : Inner c)
    (hs : c ≠ '\\') : Unquoted [c] := by
  refine ⟨.cons hb hq hi.2 (fun _ d hd => absurd hd (Option.not_mem_none d)) .nil, by simp,
    List.forall_mem_singleton.2 hi, by simpa using hs, by simp, fun d hd hm => ?_⟩
  obtain rfl := Option.some.inj hd
  simp only [List.mem_cons, List.not_mem_nil, or_false] at hm
  rcases hm with rfl | rfl <;> decide

/-- A text in quotes stays in one line, or a line terminator leaves it open. -/
theorem Guarded.cases (h : Guarded body) :
    (InQuotes '"' body ∧ ∀ c ∈ body, Inner c) ∨
      ∃ line c rest, body = line ++ c :: rest ∧ InQuotes '"' line ∧ (∀ d ∈ line, Inner d) ∧
        line.getLast? ≠ some '\\' ∧ ¬Inner c := by
  induction h with
  | nil => exact .inl ⟨.nil, List.forall_mem_nil _⟩
  | @plain c text hq hb h ih =>
    by_cases hc : Inner c
    · rcases ih with ⟨hin, hi⟩ | ⟨line, d, rest, rfl, hin, hi, hl, hd⟩
      · exact .inl ⟨.plain hq hb hc.2 hin, List.forall_mem_cons.2 ⟨hc, hi⟩⟩
      · refine .inr ⟨c :: line, d, rest, rfl, .plain hq hb hc.2 hin,
          List.forall_mem_cons.2 ⟨hc, hi⟩, fun hlast => ?_, hd⟩
        rw [List.getLast?_cons] at hlast
        cases hline : line.getLast? with
        | none => exact hb (by simpa [hline] using hlast)
        | some e => exact hl (by rw [hline]; simpa [hline] using hlast)
    · exact .inr ⟨[], c, text, rfl, .nil, List.forall_mem_nil _, by simp, hc⟩
  | @escaped c text hc hs h ih =>
    rcases ih with ⟨hin, hi⟩ | ⟨line, d, rest, rfl, hin, hi, hl, hd⟩
    · exact .inl ⟨.escaped hc.2 hin,
        List.forall_mem_cons.2 ⟨by decide, List.forall_mem_cons.2 ⟨hc, hi⟩⟩⟩
    · refine .inr ⟨'\\' :: c :: line, d, rest, rfl, .escaped hc.2 hin,
        List.forall_mem_cons.2 ⟨by decide, List.forall_mem_cons.2 ⟨hc, hi⟩⟩, fun hlast => ?_, hd⟩
      cases line with
      | nil => exact hd (hs (Option.some.inj hlast) d rfl)
      | cons e line => exact hl (by simpa [List.getLast?_cons] using hlast)

theorem Producible.seen (h : Producible kind text) : Seen text := by
  cases h with
  | ofClass h hi =>
    cases h with
    | identifier h =>
      obtain ⟨c, rest, rfl, -, hstart, hrest⟩ := h
      have hword : ∀ d ∈ c :: rest, isWord d :=
        List.forall_mem_cons.2 ⟨isWord_of_isWordStart hstart, hrest⟩
      exact .plain (unquoted_of_word (fun d hd => .inl (hword d hd)) (List.cons_ne_nil _ _))
    | number h =>
      obtain ⟨c, rest, rfl⟩ := h.exists_cons
      exact .plain (unquoted_of_word h.isWord_or_sign (List.cons_ne_nil _ _))
    | literal hq h =>
      obtain ⟨encoding, he, body, hb, rfl⟩ := h
      exact .literal he hq hb hi
    | punctuator h => exact .plain (unquoted_of_punctuator h)
  | other hb hq hi hs => exact .plain (unquoted_singleton hb hq hi hs)
  | @quoted body h =>
    rcases h.cases with ⟨hb, hi⟩ | ⟨line, c, rest, rfl, hb, hi, hl, hc⟩
    · have hinner : ∀ c ∈ [] ++ '"' :: (body ++ ['"']), Inner c :=
        List.forall_mem_cons.2 ⟨by decide, List.forall_mem_append.2
          ⟨hi, List.forall_mem_singleton.2 (by decide)⟩⟩
      exact .literal List.mem_cons_self rfl hb hinner
    · rw [List.append_assoc]
      exact .broken hb hi hl hc

/-! ## What is read of two of them -/

/-- A text in front of another one is taken up as it is, unless they share a line terminator or a
spliced line. -/
theorem phases_inner_append (hi : ∀ c ∈ left, Inner c) (hl : left.getLast? ≠ some '\\')
    (right : List Char) : phases false (left ++ right) = left ++ phases false right := by
  have ha : Apart left right := fun hr => absurd rfl (hi _ (List.mem_of_getLast? hr)).1
  rw [phases_cut ha hl, phases_of_inner hi]

theorem exists_phases_of_not_inner (hc : ¬Inner c) (rest : List Char) :
    ∃ behind, phases false (c :: rest) = '\n' :: behind := by
  have hafter : afterTerminator? (c :: rest) ≠ none := fun hn => hc (inner_of_afterTerminator? hn)
  obtain ⟨behind, hbehind⟩ := Option.ne_none_iff_exists'.1 hafter
  obtain ⟨mark, he, ht⟩ := terminates_of_afterTerminator? hbehind
  exact ⟨_, by rw [he, phases_terminator ht]⟩

/-- A line terminator in a literal is a newline in it, whatever stands behind the literal. -/
theorem exists_phases_broken (hi : ∀ d ∈ line, Inner d) (hl : line.getLast? ≠ some '\\')
    (hc : ¬Inner c) (rest : List Char) :
    ∃ behind, phases false ('"' :: (line ++ c :: rest)) = '"' :: (line ++ '\n' :: behind) := by
  obtain ⟨behind, hbehind⟩ := exists_phases_of_not_inner hc rest
  refine ⟨behind, ?_⟩
  have hfront : ∀ d ∈ '"' :: line, Inner d := List.forall_mem_cons.2 ⟨by decide, hi⟩
  have hlast : ('"' :: line).getLast? ≠ some '\\' := by
    rw [List.getLast?_cons]
    cases hline : line.getLast? with
    | none => decide
    | some e => simpa [hline] using hl
  rw [← List.cons_append, phases_inner_append hfront hlast, hbehind, List.cons_append]

theorem solid_encoding : ∀ encoding ∈ encodings, Solid encoding := by
  have hall : ∀ encoding ∈ encodings, encoding.all fun d =>
      isBlank d = false ∧ isQuote d = false ∧ d ≠ '\n' ∧ d ≠ '/' := by
    decide +kernel
  exact fun encoding he => solid_of_forall (forall_of_all (hall encoding he))

theorem Seen.ne_nil (h : Seen text) : text ≠ [] := by
  cases h with
  | plain h => exact h.ne_nil
  | literal | broken => simp

/-- Such a text begins a lexeme. -/
theorem Seen.bare (h : Seen text) : Bare (phases false text) ∧ phases false text ≠ [] := by
  cases h with
  | plain h =>
    rw [phases_of_inner h.inner]
    exact ⟨h.solid.bare, h.ne_nil⟩
  | literal he hq hb hi =>
    rw [phases_of_inner hi]
    exact ⟨(solid_encoding _ he).bare_quote hq _, by simp⟩
  | broken h hi hl hc =>
    obtain ⟨behind, hbehind⟩ := exists_phases_broken hi hl hc _
    rw [hbehind]
    exact ⟨Solid.nil.bare_quote rfl _, List.cons_ne_nil _ _⟩

/-- Where a comment is all there is, no token is read. -/
theorem words_comment :
    ∀ text ∈ commentEnds, (divide false (.lineStart false) ('/' :: text)).words = [] := by
  decide +kernel

/-- So no comment begins where two texts meet that are read as one token. -/
theorem Unquoted.apart_of_alone (h : Unquoted left) (hr : Unquoted right)
    (ha : Alone (left ++ right) lexeme) (hl : left.getLast? = some '/') :
    ∀ d ∈ right.head?, d ≠ '/' ∧ d ≠ '*' := by
  intro d hd
  rw [h.slash hl] at ha
  have hnot : d ∉ ['/', '*'] := by
    intro hm
    have hnone := words_comment right (hr.mark d hd hm)
    exact absurd (hnone.symm.trans ha.words) (by simp)
  exact ⟨fun he => hnot (by simp [he]), fun he => hnot (by simp [he])⟩

/-- A literal that a newline leaves open is not read as part of a token. -/
theorem Solid.not_alone_of_open {front : List Char} (h : Solid front) (hq : isQuote quote)
    (hi : InQuotes quote line) (behind : List Char) (lexeme : Lexeme) :
    ¬Alone (front ++ quote :: (line ++ '\n' :: behind)) lexeme := by
  intro ha
  obtain ⟨cut, hclose, -⟩ := h.exists_close_of_alone hq ha
  rw [closeQuote?_newline (hi.not_closed hq) behind] at hclose
  contradiction

/-- In front of another token a literal is read as one of its own. -/
theorem not_alone_of_literal {encoding : List Char} (he : encoding ∈ encodings)
    (hq : isQuote quote) (hb : InQuotes quote body)
    (hi : ∀ c ∈ encoding ++ quote :: (body ++ [quote]), Inner c) (hr : Seen right)
    (lexeme : Lexeme) :
    ¬Alone (phases false (encoding ++ quote :: (body ++ [quote]) ++ right)) lexeme := by
  intro ha
  have hlast : (encoding ++ quote :: (body ++ [quote])).getLast? ≠ some '\\' := by
    rw [← List.cons_append, ← List.append_assoc, List.getLast?_concat]
    exact fun he => (ne_of_isQuote hq).1 (Option.some.inj he)
  have hsplit : encoding ++ quote :: (body ++ [quote]) ++ phases false right =
      encoding ++ quote :: (body ++ quote :: phases false right) := by simp
  rw [phases_inner_append hi hlast, hsplit] at ha
  obtain ⟨cut, hclose, -, hnone⟩ := (solid_encoding _ he).exists_close_of_alone hq ha
  rw [hb.close hq] at hclose
  obtain rfl := Option.some.inj hclose
  exact hr.bare.2 (hnone hr.bare.1)

/-- A text without quotes and another one, read as one token: the other one is not broken. -/
theorem Unquoted.eq_append_of_alone (h : Unquoted left) (hr : Seen right)
    (ha : Alone (phases false (left ++ right)) lexeme) :
    phases false (left ++ right) = left ++ right ∧ Bare (left ++ right) ∧
      lexeme.text = left ++ right := by
  rw [phases_inner_append h.inner h.last] at ha ⊢
  cases hr with
  | plain hr =>
    rw [phases_of_inner hr.inner] at ha ⊢
    have hsolid := h.solid.append hr.solid (h.apart_of_alone hr ha)
    exact ⟨rfl, hsolid.bare, hsolid.eq_of_alone ha⟩
  | @literal encoding body quote he hq hb hi =>
    have hletter : ∀ encoding ∈ encodings, encoding.all fun d => d ≠ '/' ∧ d ≠ '*' := by
      decide +kernel
    rw [phases_of_inner hi, ← List.append_assoc] at ha ⊢
    have hfront := h.solid.append (solid_encoding _ he) fun _ d hd =>
      forall_of_all (hletter _ he) d (List.mem_of_head? hd)
    obtain ⟨cut, hclose, htext, -⟩ := hfront.exists_close_of_alone hq ha
    have hcut := hb.close hq []
    rw [hcut] at hclose
    obtain rfl := Option.some.inj hclose
    exact ⟨rfl, hfront.bare_quote hq _, htext⟩
  | broken hin hi hl hbreak =>
    exfalso
    obtain ⟨behind, hbehind⟩ := exists_phases_broken hi hl hbreak _
    rw [hbehind] at ha
    exact h.solid.not_alone_of_open rfl hin behind lexeme ha

/-- If two texts of tokens are read as one token, it is both of them, and spelled as its class
says. -/
theorem Seen.eq_append_of_alone (hl : Seen left) (hr : Seen right)
    (ha : Alone (phases false (left ++ right)) lexeme) :
    lexeme.text = left ++ right ∧ OfClass lexeme.kind (left ++ right) := by
  have hwhole : phases false (left ++ right) = left ++ right ∧ Bare (left ++ right) ∧
      lexeme.text = left ++ right := by
    cases hl with
    | plain h => exact h.eq_append_of_alone hr ha
    | literal he hq hb hi => exact absurd ha (not_alone_of_literal he hq hb hi hr lexeme)
    | @broken line rest c hin hi hl hbreak =>
      obtain ⟨behind, hbehind⟩ := exists_phases_broken hi hl hbreak (rest ++ right)
      rw [List.cons_append, List.append_assoc, List.cons_append, hbehind] at ha
      exact absurd ha (Solid.nil.not_alone_of_open rfl hin behind lexeme)
  obtain ⟨hphases, hbare, htext⟩ := hwhole
  rw [hphases] at ha
  refine ⟨htext, ?_⟩
  rcases ofClass_or_of_alone hbare ha with h | ⟨d, hd⟩
  · rwa [← htext]
  · -- Two texts have two characters.
    obtain ⟨a, left, rfl⟩ := List.exists_cons_of_ne_nil hl.ne_nil
    obtain ⟨b, right, rfl⟩ := List.exists_cons_of_ne_nil hr.ne_nil
    rw [htext] at hd
    simp at hd

end CPreprocessor.Lexeme

namespace CPreprocessor

open Lexeme

/-- Two tokens that are read as one, written without a gap: its text is both of theirs. -/
theorem text_of_lexFragment_append {file left right : String} {leftKind rightKind : Token.Kind}
    {token : Token} (hl : Producible leftKind left.toList) (hr : Producible rightKind right.toList)
    (h : lexFragment file (left ++ right) = .ok [token]) :
    token.text = left ++ right ∧ OfClass token.kind token.text.toList := by
  obtain ⟨hissue, hwords⟩ := lexFragment_eq_ok_iff.1 h
  have hc := (issue_lex false false file (left ++ right)).1 hissue
  have hw := unplaced_words false false file (left ++ right)
  rw [hwords] at hw
  obtain ⟨lexeme, hlexeme, htoken⟩ := List.map_eq_singleton_iff.1 hw.symm
  rw [scan, String.toList_append] at hc hlexeme
  obtain ⟨htext, hclass⟩ := hl.seen.eq_append_of_alone hr.seen ⟨hlexeme, hc⟩
  have hsame : token.text = left ++ right := by
    have hofList : String.ofList lexeme.text = token.text := congrArg Token.text htoken
    rw [← hofList, htext, ← String.toList_append, String.ofList_toList]
  have hkind : lexeme.kind = token.kind := congrArg Token.kind htoken
  refine ⟨hsame, ?_⟩
  rwa [hsame, String.toList_append, ← hkind]

end CPreprocessor

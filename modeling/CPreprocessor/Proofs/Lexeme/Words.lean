import CPreprocessor.Proofs.Lexeme.Operands

/-!
# Words and signs in a row

A list of parameters is written with nothing between its words and signs. Each of them is read back
as it stands: a word goes on up to the sign behind it, and a parenthesis, a comma or an ellipsis is
read alike in front of anything.

* `IsWord`: the text of an identifier. `isWord_of_mem_divide`: every identifier of a text has one.
  `identifier_of_mem_divide`: nothing else has.
* `divide_word`: a word in front of a character that it ends at (`EndsWord`), such as a blank, a
  parenthesis or a comma (`endsWord_of_mem_delimiters`).
* `divide_sign`: a parenthesis, a comma or an ellipsis.
* `Division.prepend`: lexemes in front of those of a text.
-/

namespace CPreprocessor.Lexeme

variable {directives : Bool} {context : Context} {text other : List Char}

/-- Puts lexemes in front. -/
def Division.prepend (front : List Lexeme) (division : Division) : Division :=
  ⟨front ++ division.lexemes, division.ending⟩

/-! ## Words -/

/-- The text of an identifier. -/
def IsWord (text : List Char) : Prop :=
  ∃ c rest, text = c :: rest ∧ Unicode.isDigit c = false ∧ Unicode.isWordStart c ∧
    ∀ d ∈ rest, Unicode.isWord d

theorem isWord_readPlain {c : Char} {rest : List Char}
    (h : (readPlain c rest).1 = .identifier) : IsWord (readPlain c rest).2.text := by
  unfold readPlain at h ⊢
  split at h
  · contradiction
  · next hn =>
    split at h
    · next hw =>
      rw [if_neg hn, if_pos hw]
      refine ⟨c, _, rfl, ?_, hw, fun d hd => List.mem_takeWhile_imp hd⟩
      rw [startsNumber, Bool.or_eq_true, not_or] at hn
      exact eq_false_of_ne_true hn.1
    · split at h <;> contradiction

theorem isWord_of_readLiteral {c : Char} {rest : List Char} {cut : Cut}
    (h : readLiteral c rest = .lexeme .identifier cut) : IsWord cut.text := by
  unfold readLiteral at h
  split at h
  · split at h
    · have hk := (Reading.lexeme.inj h).1
      split at hk <;> contradiction
    · contradiction
  · obtain ⟨hk, rfl⟩ := Reading.lexeme.inj h
    exact isWord_readPlain hk

theorem isWord_of_read {c : Char} {rest : List Char} {cut : Cut}
    (h : read directives context c rest = .lexeme .identifier cut) : IsWord cut.text := by
  cases readAs_of_read h with
  | literal _ _ _ _ hl => exact isWord_of_readLiteral hl

/-- Every identifier of a text is a word. -/
theorem isWord_of_mem_divide {chars : List Char} {lexeme : Lexeme}
    (hm : lexeme ∈ (divide directives context chars).lexemes) (hk : lexeme.kind = .identifier) :
    IsWord lexeme.text := by
  fun_induction divide directives context chars with
  | case1 | case2 | case3 => contradiction
  | case4 context chars gap c rest hs kind cut hr ih =>
    rcases List.mem_cons.1 hm with rfl | hm
    · obtain rfl : kind = .identifier := hk
      exact isWord_of_read hr
    · exact ih hm

/-- Where a word may begin, a plain lexeme or a literal is read. -/
theorem read_of_isWordStart {c : Char} (hs : Unicode.isWordStart c) (rest : List Char) :
    read directives context c rest = readLiteral c rest := by
  have hne : ∀ d ∈ ['\n', '#', '%', '<', '"', '\x7b'], c ≠ d := by
    have hnot : ∀ d ∈ ['\n', '#', '%', '<', '"', '\x7b'], Unicode.isWordStart d = false :=
      forall_of_all (by decide +kernel)
    rintro d hm rfl
    rw [hnot c hm] at hs
    contradiction
  simp only [List.forall_mem_cons] at hne
  obtain ⟨hnewline, hhash, hpercent, hangle, hquote, hbrace, -⟩ := hne
  have hdirective : (if directives then directiveHash? context (c :: rest) else none) = none := by
    split
    · rw [directiveHash?]
      · rintro _ ⟨rfl, rfl⟩
        contradiction
      · rintro _ ⟨rfl, rfl⟩
        contradiction
    · rfl
  have hheader : (if context = .header then headerName? (c :: rest) else none) = none := by
    split
    · rw [headerName?]
      · rintro _ ⟨rfl, rfl⟩
        contradiction
      · rintro _ ⟨rfl, rfl⟩
        contradiction
    · rfl
  rw [read, if_neg hnewline, hdirective, hheader]
  exact readText_of_not_block fun _ => hbrace

theorem startsNumber_of_isWordStart {c : Char} (hd : Unicode.isDigit c = false)
    (hs : Unicode.isWordStart c) (rest : List Char) : startsNumber c rest = false := by
  have hpoint : c ≠ '.' := by
    rintro rfl
    exact absurd hs (by decide +kernel)
  simp [startsNumber, hd, hpoint]

/-- A word is not read as anything else. -/
theorem identifier_of_isWord {c : Char} {rest : List Char} {kind : Token.Kind} {cut : Cut}
    (h : read directives context c rest = .lexeme kind cut) (hw : IsWord cut.text) :
    kind = .identifier := by
  obtain ⟨d, more, ht, hdigit, hstart, hmore⟩ := hw
  obtain rfl : d = c := by
    have hcover := covers_read directives context c rest
    rw [h] at hcover
    have hwhole : cut.text ++ cut.rest = c :: rest := hcover.1
    rw [ht] at hwhole
    exact (List.cons.inj hwhole).1
  rw [read_of_isWordStart hstart, readLiteral] at h
  split at h
  · next opening ho =>
    split at h
    · obtain ⟨-, rfl⟩ := Reading.lexeme.inj h
      -- The quote of a literal is part of no word.
      have hisQuote := (eq_of_opening? ho).2
      have hword : Unicode.isWord opening.quote := by
        have hall : ∀ c ∈ d :: more, Unicode.isWord c :=
          List.forall_mem_cons.2 ⟨Unicode.isWord_of_isWordStart hstart, hmore⟩
        exact hall _ (ht ▸ by simp)
      simp only [isQuote, Bool.or_eq_true, decide_eq_true_eq] at hisQuote
      rcases hisQuote with hq | hq <;> rw [hq] at hword <;> exact absurd hword (by decide +kernel)
    · contradiction
  · obtain ⟨rfl, -⟩ := Reading.lexeme.inj h
    rw [readPlain, if_neg (by simp [startsNumber_of_isWordStart hdigit hstart]), if_pos hstart]

/-- Every lexeme that is a word is an identifier. -/
theorem identifier_of_mem_divide {chars : List Char} {lexeme : Lexeme}
    (hm : lexeme ∈ (divide directives context chars).lexemes) (hw : IsWord lexeme.text) :
    lexeme.kind = .identifier := by
  fun_induction divide directives context chars with
  | case1 | case2 | case3 => contradiction
  | case4 context chars gap c rest hs kind cut hr ih =>
    rcases List.mem_cons.1 hm with rfl | hm
    · exact identifier_of_isWord hr hw
    · exact ih hm

/-- A character that a word ends in front of, and that no literal begins with behind it. -/
def EndsWord (d : Char) : Prop := Unicode.isWord d = false ∧ isQuote d = false

/-- The characters behind which a word of a signature ends. -/
def delimiters : List Char := [' ', '(', ',', ')']

theorem endsWord_of_mem_delimiters : ∀ d ∈ delimiters, EndsWord d := by
  have hall : delimiters.all fun d => !Unicode.isWord d && !isQuote d := by decide +kernel
  intro d hd
  simpa [EndsWord] using List.all_eq_true.1 hall d hd

theorem isWord_of_mem_encoding {encoding : List Char} (he : encoding ∈ encodings) :
    ∀ d ∈ encoding, Unicode.isWord d := by
  have hall : ∀ encoding ∈ encodings, encoding.all (Unicode.isWord ·) := by decide +kernel
  exact List.all_eq_true.1 (hall encoding he)

/-- A word in front of such a character does not begin a literal. -/
theorem opening?_word (hw : ∀ d ∈ text, Unicode.isWord d) (hd : ∀ d ∈ other.head?, EndsWord d) :
    opening? (text ++ other) = none := by
  rw [Option.eq_none_iff_forall_ne_some]
  intro opening ho
  obtain ⟨encoding, he, hf⟩ := List.exists_of_findSome?_eq_some ho
  obtain ⟨⟨quote, rest⟩, hq, -⟩ := Option.map_eq_some_iff.1 hf
  obtain ⟨hsplit, hquote⟩ := eq_of_quoteAfter? hq
  have hnotWord : Unicode.isWord quote = false := by
    simp only [isQuote, Bool.or_eq_true, decide_eq_true_eq] at hquote
    rcases hquote with rfl | rfl <;> decide +kernel
  have hhead : quote ∉ other.head? := fun hm => by
    rw [(hd quote hm).2] at hquote
    contradiction
  -- The quote would be part of the word, or what is behind the word part of the encoding.
  rcases List.append_eq_append_iff.1 hsplit with ⟨more, rfl, hrest⟩ | ⟨more, rfl, hrest⟩
  · cases more with
    | nil => exact hhead (by simp [hrest])
    | cons d more =>
      have hword := isWord_of_mem_encoding he d (by simp)
      rw [(hd d (by simp [hrest])).1] at hword
      contradiction
  · cases more with
    | nil =>
      rw [List.nil_append] at hrest
      exact hhead (by simp [← hrest])
    | cons d more =>
      obtain ⟨rfl, -⟩ := List.cons.inj hrest
      rw [hw quote (by simp)] at hnotWord
      contradiction

theorem skip_word (hw : IsWord text) (other : List Char) :
    skip (text ++ other) = .skipped [] (text ++ other) := by
  obtain ⟨c, rest, rfl, -, hstart, -⟩ := hw
  have hne : ∀ d ∈ [' ', '\t', '\x0b', '\x0c', '/'], c ≠ d := by
    have hnot : ∀ d ∈ [' ', '\t', '\x0b', '\x0c', '/'], Unicode.isWordStart d = false :=
      forall_of_all (by decide +kernel)
    rintro d hm rfl
    rw [hnot c hm] at hstart
    contradiction
  simp only [List.forall_mem_cons] at hne
  obtain ⟨h1, h2, h3, h4, hslash, -⟩ := hne
  exact skip_of_cons (by simp [isBlank, h1, h2, h3, h4]) hslash

/-- A word is read up to where it ends, at any place. -/
theorem divide_word (hw : IsWord text) (hd : ∀ d ∈ other.head?, EndsWord d) :
    divide directives context (text ++ other) =
      (divide directives (context.next .identifier text) other).cons ⟨[], .identifier, text⟩ := by
  have hskip := skip_word hw other
  have hopen : opening? (text ++ other) = none := by
    obtain ⟨c, rest, rfl, -, hstart, hrest⟩ := hw
    exact opening?_word (List.forall_mem_cons.2 ⟨Unicode.isWord_of_isWordStart hstart, hrest⟩) hd
  obtain ⟨c, rest, rfl, hdigit, hstart, hrest⟩ := hw
  have hplain : readPlain c (rest ++ other) = (.identifier, ⟨c :: rest, other⟩) := by
    have htake : other.takeWhile Unicode.isWord = [] ∧ other.dropWhile Unicode.isWord = other := by
      cases other with
      | nil => exact ⟨rfl, rfl⟩
      | cons d other => simp [(hd d rfl).1]
    rw [readPlain, if_neg (by simp [startsNumber_of_isWordStart hdigit hstart]), if_pos hstart,
      Cut.takeWhile, List.takeWhile_append_of_pos hrest, List.dropWhile_append_of_pos hrest,
      htake.1, htake.2, List.append_nil]
    rfl
  have hread : read directives context c (rest ++ other) =
      .lexeme .identifier ⟨c :: rest, other⟩ := by
    rw [read_of_isWordStart hstart, readLiteral]
    rw [List.cons_append] at hopen
    simp only [hopen, hplain]
  exact divide_cons hskip hread

/-! ## Signs -/

/-- The signs of a signature. -/
def signs : List (List Char) := [['('], [','], [')'], ['.', '.', '.']]

theorem eq_of_mem_signs {c : Char} {rest : List Char} (hs : c :: rest ∈ signs) :
    c = '(' ∧ rest = [] ∨ c = ',' ∧ rest = [] ∨ c = ')' ∧ rest = [] ∨
      c = '.' ∧ rest = ['.', '.'] := by
  simpa [signs] using hs

theorem read_sign (hp : Context.Plain false context) {c : Char} {rest : List Char}
    (hs : c :: rest ∈ signs) :
    read false context c (rest ++ other) = .lexeme .punctuator ⟨c :: rest, other⟩ := by
  rcases eq_of_mem_signs hs with ⟨rfl, rfl⟩ | ⟨rfl, rfl⟩ | ⟨rfl, rfl⟩ | ⟨rfl, rfl⟩
  all_goals
    rw [read_fragment hp (by decide), readText_of_not_block fun _ => by decide]
    rfl

/-- A sign is read in front of anything. -/
theorem divide_sign (hp : Context.Plain false context) (hs : text ∈ signs) (other : List Char) :
    divide false context (text ++ other) =
      (divide false (.text false) other).cons ⟨[], .punctuator, text⟩ := by
  obtain ⟨c, rest, rfl⟩ : ∃ c rest, text = c :: rest := by
    cases text with
    | nil => contradiction
    | cons c rest => exact ⟨c, rest, rfl⟩
  have hnext : context.next .punctuator (c :: rest) = .text false := by
    cases context <;> first | rfl | contradiction
  have hskip : skip (c :: (rest ++ other)) = .skipped [] (c :: (rest ++ other)) := by
    rcases eq_of_mem_signs hs with ⟨rfl, rfl⟩ | ⟨rfl, rfl⟩ | ⟨rfl, rfl⟩ | ⟨rfl, rfl⟩ <;>
      exact skip_of_cons rfl (by decide)
  rw [List.cons_append, divide_cons hskip (read_sign hp hs), hnext]

end CPreprocessor.Lexeme

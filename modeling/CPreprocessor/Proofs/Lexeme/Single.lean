import CPreprocessor.Proofs.Lexeme.Solid

/-!
# Texts that are read as one lexeme

Where a plain text is read as one lexeme, or a plain text with a literal behind it, the lexeme is
all of it: nothing of either can be skipped, and what is left would be read as another one.

* `Alone`: a text that is read as one lexeme.
* `Bare`: a text that begins with a lexeme. `Bare.eq_nil`: it gives one, unless it is empty.
* `Solid.eq_of_alone`, `Solid.exists_close_of_alone`: what the one lexeme of a text is.
* `ofClass_or_of_alone`: it is spelled as its class says.
-/

namespace CPreprocessor.Lexeme

variable {directives : Bool} {context : Context} {c quote : Char}
  {front left right rest chars : List Char} {lexeme : Lexeme}

/-- The lexemes but for the newlines. -/
def Division.words (division : Division) : List Lexeme :=
  division.lexemes.filter (·.kind ≠ .newline)

/-- Newlines aside, the text is read as one lexeme, and nothing is left open. -/
structure Alone (chars : List Char) (lexeme : Lexeme) : Prop where
  words : (divide false (.lineStart false) chars).words = [lexeme]
  complete : (divide false (.lineStart false) chars).ending.IsComplete

theorem not_alone_nil (lexeme : Lexeme) : ¬Alone [] lexeme := by
  rintro ⟨hw, -⟩
  rw [divide_nil] at hw
  contradiction

/-- A text that is empty or begins with a lexeme that is no newline. -/
structure Bare (chars : List Char) : Prop where
  unskipped : skip chars = .skipped [] chars
  inner : ∀ c ∈ chars.head?, c ≠ '\n'

/-- What is read first of such a text, if nothing is left open in it. -/
theorem Bare.exists_read (h : Bare (c :: rest))
    (hc : (divide directives context (c :: rest)).ending.IsComplete) :
    ∃ kind cut, read directives context c rest = .lexeme kind cut ∧
      (divide directives context (c :: rest)).words =
        ⟨[], kind, cut.text⟩ :: (divide directives (context.next kind cut.text) cut.rest).words ∧
      (divide directives (context.next kind cut.text) cut.rest).ending.IsComplete := by
  cases hr : read directives context c rest with
  | unclosed opener before opened =>
    rw [divide_of_open h.unskipped hr] at hc
    contradiction
  | lexeme kind cut =>
    have hk : kind ≠ .newline := by
      rintro rfl
      have hcover := covers_read directives context c rest
      rw [hr] at hcover
      have hwhole : cut.text ++ cut.rest = c :: rest := hcover.1
      rw [text_of_newline hr] at hwhole
      exact h.inner c rfl (List.cons.inj hwhole).1.symm
    rw [divide_cons h.unskipped hr] at hc ⊢
    refine ⟨kind, cut, rfl, ?_, hc⟩
    rw [Division.words, Division.cons, List.filter_cons_of_pos (by simpa using hk)]
    rfl

theorem Bare.eq_nil (h : Bare chars) (hw : (divide directives context chars).words = [])
    (hc : (divide directives context chars).ending.IsComplete) : chars = [] := by
  cases chars with
  | nil => rfl
  | cons c rest =>
    obtain ⟨kind, cut, -, hwords, -⟩ := h.exists_read hc
    rw [hwords] at hw
    contradiction

/-- The one lexeme that such a text is read as: where it ends, none begins. -/
theorem Bare.exists_cut (h : Bare (c :: rest)) (ha : Alone (c :: rest) lexeme) :
    ∃ behind, readLiteral c rest = .lexeme lexeme.kind ⟨lexeme.text, behind⟩ ∧
      c :: rest = lexeme.text ++ behind ∧ (Bare behind → behind = []) := by
  obtain ⟨kind, ⟨text, behind⟩, hr, hwords, hcomplete⟩ := h.exists_read ha.complete
  have hw := ha.words
  rw [hwords] at hw
  obtain ⟨rfl, hnone⟩ := List.cons.inj hw
  have hcover := covers_read false (.lineStart false) c rest
  rw [hr] at hcover
  rw [read_fragment (plain_lineStart false) (h.inner c rfl),
    readText_of_not_block fun ha => absurd ha (by decide)] at hr
  exact ⟨behind, hr, hcover.1.symm, fun hb => hb.eq_nil hnone hcomplete⟩

namespace Solid

/-- Two plain texts make one, unless a comment begins where they meet. -/
theorem append (hl : Solid left) (hr : Solid right)
    (hs : left.getLast? = some '/' → ∀ d ∈ right.head?, d ≠ '/' ∧ d ≠ '*') :
    Solid (left ++ right) := by
  induction hl with
  | nil => exact hr
  | @cons c rest hb hq hn hc h ih =>
    refine .cons hb hq hn ?_ (ih fun hl => hs (by rw [List.getLast?_cons, hl]; rfl))
    rintro rfl d hd
    cases rest with
    | nil => exact hs rfl d hd
    | cons e rest => exact hc rfl d hd

theorem bare (h : Solid chars) : Bare chars := by
  refine ⟨h.skip_eq, ?_⟩
  cases h with
  | nil => exact fun d hd => absurd hd (Option.not_mem_none d)
  | cons _ _ hn =>
    intro d hd
    rwa [← Option.some.inj hd]

theorem bare_quote (h : Solid front) (hq : isQuote quote) (rest : List Char) :
    Bare (front ++ quote :: rest) := by
  have hquote : isBlank quote = false ∧ quote ≠ '/' ∧ quote ≠ '*' ∧ quote ≠ '\n' := by
    rw [isQuote, Bool.or_eq_true, decide_eq_true_eq, decide_eq_true_eq] at hq
    rcases hq with rfl | rfl <;> decide
  obtain ⟨hblank, hslash, hstar, hline⟩ := hquote
  cases h with
  | nil => exact ⟨skip_of_cons hblank hslash, fun d hd => Option.some.inj hd ▸ hline⟩
  | @cons c front hb _ hn hs h =>
    refine ⟨skip_eq_self_iff.2 ⟨hb, fun hc d hd => ?_⟩, fun d hd => Option.some.inj hd ▸ hn⟩
    cases front with
    | nil => exact Option.some.inj hd ▸ ⟨hslash, hstar⟩
    | cons e front => exact hs hc d hd

/-- A plain text that is read as one lexeme is that lexeme. -/
theorem eq_of_alone (h : Solid chars) (ha : Alone chars lexeme) : lexeme.text = chars := by
  cases chars with
  | nil => exact absurd ha (not_alone_nil lexeme)
  | cons c rest =>
    obtain ⟨behind, -, hsplit, hnone⟩ := h.bare.exists_cut ha
    rw [hsplit] at h ⊢
    rw [hnone h.of_append.bare, List.append_nil]

/-- A literal that begins with a plain text and a quote has the plain text as its encoding. -/
theorem eq_of_opening? (h : Solid front) (hq : isQuote quote) {opening : Opening}
    (ho : opening? (front ++ quote :: rest) = some opening) :
    opening = ⟨front, quote, rest⟩ := by
  obtain ⟨hsplit, hquote⟩ := Lexeme.eq_of_opening? ho
  have hencoding : ∀ encoding ∈ encodings, encoding.all (isQuote · = false) := by
    decide +kernel
  have htake (front : List Char) (hf : ∀ d ∈ front, isQuote d = false) (quote : Char)
      (hq : isQuote quote) (rest : List Char) :
      (front ++ quote :: rest).takeWhile (!isQuote ·) = front := by
    rw [List.takeWhile_append_of_pos fun d hd => by simp [hf d hd],
      List.takeWhile_cons_of_neg (by simp [hq]), List.append_nil]
  have hfront := htake front h.not_isQuote quote hq rest
  rw [hsplit, htake _ (forall_of_all (hencoding _ (mem_encodings_of_opening? ho))) _ hquote]
    at hfront
  rw [← hfront] at hsplit
  obtain ⟨rfl, rfl⟩ := List.cons.inj (List.append_cancel_left hsplit)
  rw [← hfront]

/-- No quote is in a lexeme that is read where no literal begins. -/
theorem quote_not_mem_readPlain (ho : opening? (c :: rest) = none) (hq : isQuote quote) :
    quote ∉ (readPlain c rest).2.text := by
  have hm := munched_readPlain ho
  generalize (readPlain c rest).1 = kind, (readPlain c rest).2.text = text at hm
  cases hm with
  | ofClass hp hk =>
    have hclass := (hk kind).2 rfl
    have hn := hclass.not_mem
    cases hclass with
    | identifier | number | punctuator =>
      exact hn (by decide) (by decide) _ (mem_marks_of_isQuote hq)
    | literal hquote hl => exact absurd hp (not_prefix_of_opening?_eq_none ho hquote hl)
  | @other d hp =>
    intro hm
    obtain rfl := List.mem_singleton.1 hm
    obtain ⟨more, hmore⟩ := hp
    have hopen : opening? (quote :: more) = some ⟨[], quote, more⟩ :=
      opening?_eq_some List.mem_cons_self hq more
    rw [← hmore] at ho
    cases ho.symm.trans hopen

/-- A plain text and what stands behind it from a quote on, read as one lexeme: this is a literal
that the plain text is the encoding of. -/
theorem exists_close_of_alone (h : Solid front) (hq : isQuote quote)
    (ha : Alone (front ++ quote :: rest) lexeme) :
    ∃ cut, closeQuote? quote false rest = some cut ∧ lexeme.text = front ++ quote :: cut.text ∧
      (Bare cut.rest → cut.rest = []) := by
  have hbare := h.bare_quote hq rest
  obtain ⟨c, more, hchars⟩ : ∃ c more, front ++ quote :: rest = c :: more :=
    List.exists_cons_of_ne_nil (by simp)
  rw [hchars] at ha hbare
  obtain ⟨behind, hr, hsplit, hnone⟩ := hbare.exists_cut ha
  rw [readLiteral] at hr
  rw [← hchars] at hsplit
  split at hr
  · next opening ho =>
    rw [← hchars] at ho
    rw [h.eq_of_opening? hq ho] at hr
    dsimp only at hr
    split at hr
    · next cut hclose =>
      obtain ⟨-, hcut⟩ := Reading.lexeme.inj hr
      obtain ⟨htext, rfl⟩ := Cut.mk.inj hcut
      exact ⟨cut, hclose, htext.symm, hnone⟩
    · contradiction
  · next ho =>
    -- A plain lexeme ends in front of the quote, and something is left behind it.
    exfalso
    have htext : (readPlain c more).2.text = lexeme.text :=
      congrArg Cut.text (Reading.lexeme.inj hr).2
    have hnot := htext ▸ quote_not_mem_readPlain ho hq
    have hprefix : lexeme.text <+: front ++ quote :: rest := ⟨behind, hsplit.symm⟩
    obtain ⟨left, rfl⟩ := List.prefix_of_prefix_length_le hprefix
      (List.prefix_append front _) (length_le_of_not_mem hprefix hnot)
    rw [List.append_assoc] at hsplit
    obtain rfl := List.append_cancel_left hsplit
    have hnil := hnone (h.of_append.bare_quote hq rest)
    simp at hnil

end Solid

/-- No lexeme begins with a blank. -/
theorem not_isBlank_of_mem_divide (hm : lexeme ∈ (divide directives context chars).lexemes) :
    ∀ c ∈ lexeme.text.head?, isBlank c = false := by
  fun_induction divide directives context chars with
  | case1 | case2 | case3 => contradiction
  | case4 context chars gap c rest hs kind cut hr ih =>
    rcases List.mem_cons.1 hm with rfl | hm
    · intro d hd
      have hcover := covers_read directives context c rest
      rw [hr] at hcover
      obtain ⟨more, hmore⟩ : ∃ more, cut.text = d :: more := List.head?_eq_some_iff.1 hd
      have hwhole : cut.text ++ cut.rest = c :: rest := hcover.1
      rw [hmore] at hwhole
      rw [(List.cons.inj hwhole).1]
      exact (skip_eq_self_iff.1 (skip_behind hs)).1
    · exact ih hm

/-- The one lexeme of a text is spelled as its class says, unless it is a single character. -/
theorem ofClass_or_of_alone (h : Bare chars) (ha : Alone chars lexeme) :
    OfClass lexeme.kind lexeme.text ∨ ∃ d, lexeme.text = [d] := by
  cases chars with
  | nil => exact absurd ha (not_alone_nil lexeme)
  | cons c rest =>
    obtain ⟨behind, hr, -⟩ := h.exists_cut ha
    have hm := munched_readLiteral hr
    dsimp only at hm
    generalize lexeme.kind = kind, lexeme.text = text at hm
    cases hm with
    | ofClass _ hk => exact .inl ((hk kind).2 rfl)
    | other => exact .inr ⟨_, rfl⟩

end CPreprocessor.Lexeme

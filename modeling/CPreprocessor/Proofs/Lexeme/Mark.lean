import CPreprocessor.Proofs.Lexeme.Class

/-!
# Lexemes that depend on their place

The mark of a directive, a header name and a block of assembly text are read at some places only.
There they are what is read wherever the text is spelled like one.

* `BeginsHash`: a text that begins with the mark of a directive.
* `directiveHash_iff`, `headerName_iff`, `asmBlock_iff`: these kinds, told by the place and the text
  that was read.
-/

namespace CPreprocessor.Lexeme

variable {context : Context} {c : Char} {rest chars text : List Char} {kind : Token.Kind}
  {cut : Cut}

/-- The text begins with the mark of a directive. -/
def BeginsHash (text : List Char) : Prop := ['#'] <+: text ∨ ['%', ':'] <+: text

theorem BeginsHash.mono (h : BeginsHash text) (hp : text <+: chars) : BeginsHash chars :=
  h.imp (·.trans hp) (·.trans hp)

theorem BeginsHash.head (h : BeginsHash (c :: rest)) : c = '#' ∨ c = '%' :=
  h.imp (fun hp => (List.cons_prefix_cons.1 hp).1.symm)
    (fun hp => (List.cons_prefix_cons.1 hp).1.symm)

theorem beginsHash_of_directiveHash? (h : directiveHash? context chars = some cut) :
    BeginsHash cut.text := by
  unfold directiveHash? at h
  split at h
  · split at h
    · contradiction
    · obtain rfl := Option.some.inj h
      exact .inl (List.prefix_refl _)
  · split at h
    · contradiction
    · obtain rfl := Option.some.inj h
      exact .inr (List.prefix_refl _)
  · contradiction

/-- Where a text begins with the mark of a directive that is not read, the line has begun. -/
theorem midLine_of_beginsHash (h : directiveHash? context chars = none) (hb : BeginsHash chars) :
    context.midLine := by
  rcases hb with ⟨rest, rfl⟩ | ⟨rest, rfl⟩ <;> simpa [directiveHash?] using h

/-- The mark of a directive is what begins like one at the start of a line. -/
theorem directiveHash_iff (h : read true context c rest = .lexeme kind cut) :
    kind = .directiveHash ↔ context.midLine = false ∧ BeginsHash cut.text := by
  have hp := (front_of_read h).1
  have hother (hd : true → directiveHash? context (c :: rest) = none) :
      ¬(context.midLine = false ∧ BeginsHash cut.text) := by
    rintro ⟨hm, hb⟩
    rw [midLine_of_beginsHash (hd rfl) (hb.mono hp)] at hm
    contradiction
  cases readAs_of_read h with
  | newline hc =>
    subst hc
    exact iff_of_false (by decide) fun hb => absurd hb.2.head (by decide)
  | hash _ _ hf =>
    exact iff_of_true rfl ⟨midLine_of_directiveHash? hf, beginsHash_of_directiveHash? hf⟩
  | header _ hd | block hd => exact iff_of_false (by decide) (hother hd)
  | literal _ hd _ _ hl =>
    refine iff_of_false ?_ (hother hd)
    rintro rfl
    exact kind_readLiteral hl (by decide)

/-- A header name is what is spelled like one where one is expected. -/
theorem headerName_iff (h : read true context c rest = .lexeme kind cut) :
    kind = .headerName ↔ context = .header ∧ IsHeaderName cut.text := by
  have hp := (front_of_read h).1
  cases readAs_of_read h with
  | newline hc =>
    subst hc
    refine iff_of_false (by decide) ?_
    rintro ⟨-, hn⟩
    cases hn
  | hash _ _ hf =>
    refine iff_of_false (by decide) ?_
    rintro ⟨rfl, -⟩
    exact absurd (midLine_of_directiveHash? hf) (by decide)
  | header _ _ hi hf => exact iff_of_true rfl ⟨hi, isHeaderName_of_headerName? hf⟩
  | block _ ha =>
    refine iff_of_false (by decide) ?_
    rintro ⟨rfl, -⟩
    contradiction
  | literal _ _ hh _ hl =>
    refine iff_of_false ?_ fun hn => headerName?_eq_none_iff.1 (hh hn.1) _ hn.2 hp
    rintro rfl
    exact kind_readLiteral hl (by decide)

/-- A block is what a brace begins where braces enclose assembly text. -/
theorem asmBlock_iff (h : read true context c rest = .lexeme kind cut) :
    kind = .asmBlock ↔ context.afterAsm ∧ '\x7b' ∈ cut.text.head? := by
  have hbrace : '\x7b' ∈ cut.text.head? ↔ c = '\x7b' := by
    rw [Option.mem_def, Option.mem_def.1 (front_of_read h).2, Option.some.injEq]
  rw [hbrace]
  cases readAs_of_read h with
  | newline hc =>
    subst hc
    exact iff_of_false (by decide) fun hb => absurd hb.2 (by decide)
  | hash _ _ hf =>
    refine iff_of_false (by decide) fun hb => ?_
    have hbegins := (beginsHash_of_directiveHash? hf).mono (front_of_read h).1
    rw [hb.2] at hbegins
    exact absurd hbegins.head (by decide)
  | header _ _ hi =>
    subst hi
    exact iff_of_false (by decide) fun hb => absurd hb.1 (by decide)
  | block _ ha hb => exact iff_of_true rfl ⟨ha, hb⟩
  | literal _ _ _ hb hl =>
    refine iff_of_false ?_ hb
    rintro rfl
    exact kind_readLiteral hl (by decide)

end CPreprocessor.Lexeme

import CPreprocessor.Proofs.Lexeme.Read
import Mathlib.Data.List.TakeWhile

/-!
# Newlines in lexemes

A lexeme ends with its line, unless it is an assembly block, which goes on over the end of a line,
or the newline itself.

* `not_mem_readPlain`, `not_mem_readLiteral`: no newline stands in a word, a sign or a literal.
* `newline_of_mem_read`: if one stands in a lexeme, it is a newline or an assembly block.
-/

namespace CPreprocessor.Lexeme

variable {context : Context} {c : Char} {rest chars : List Char} {kind : Token.Kind} {cut : Cut}

theorem not_mem_cons_of_ne (hc : c ≠ '\n') {text : List Char} (ht : '\n' ∉ text) :
    '\n' ∉ c :: text := fun hm =>
  (List.mem_cons.1 hm).elim (fun he => hc he.symm) ht

theorem not_mem_numberTail (exponent : Bool) (chars : List Char) :
    '\n' ∉ (numberTail exponent chars).text := by
  have hline : ∀ exponent, ¬(Unicode.isWord '\n' || '\n' = '.' ||
      (exponent && ('\n' = '+' || '\n' = '-'))) := by decide +kernel
  fun_induction numberTail exponent chars with
  | case1 | case3 => exact List.not_mem_nil
  | case2 exponent c rest hc ih =>
    intro hm
    rcases List.mem_cons.1 hm with rfl | hm
    · exact hline exponent hc
    · exact ih hm

theorem not_mem_readPlain (hc : c ≠ '\n') (rest : List Char) :
    '\n' ∉ (readPlain c rest).2.text := by
  unfold readPlain
  split
  · exact not_mem_cons_of_ne hc (not_mem_numberTail false rest)
  · split
    · refine not_mem_cons_of_ne hc fun hm => ?_
      have hword : Unicode.isWord '\n' = false := by decide +kernel
      exact absurd (List.mem_takeWhile_imp hm) (by simp [hword])
    · split
      · next found =>
        have hline : ∀ text ∈ punctuatorTexts, '\n' ∉ text := by decide +kernel
        exact hline _ (whole_punctuator? found).2
      · exact not_mem_cons_of_ne hc List.not_mem_nil

theorem not_mem_closeQuote? {quote : Char} {escaped : Bool}
    (h : closeQuote? quote escaped chars = some cut) : '\n' ∉ cut.text := by
  fun_induction closeQuote? quote escaped chars generalizing cut with
  | case1 | case2 => contradiction
  | case3 escaped c rest hc =>
    obtain rfl := Option.some.inj h
    exact not_mem_cons_of_ne hc List.not_mem_nil
  | case4 escaped c rest hc _ ih =>
    obtain ⟨inner, found, rfl⟩ := Option.map_eq_some_iff.1 h
    exact not_mem_cons_of_ne hc (ih found)

/-- What is read up to a mark is on one line, and the mark is the first one. -/
theorem text_closeOnLine? {mark : Char} (h : closeOnLine? mark chars = some cut) :
    ∃ body, cut.text = body ++ [mark] ∧ '\n' ∉ body ∧ mark ∉ body := by
  fun_induction closeOnLine? mark chars generalizing cut with
  | case1 | case2 => contradiction
  | case3 =>
    obtain rfl := Option.some.inj h
    exact ⟨[], rfl, List.not_mem_nil, List.not_mem_nil⟩
  | case4 c rest hn hc ih =>
    obtain ⟨inner, found, rfl⟩ := Option.map_eq_some_iff.1 h
    obtain ⟨body, ht, hl, hm⟩ := ih found
    refine ⟨c :: body, by rw [Cut.text_cons, ht, List.cons_append], ?_, ?_⟩
    · exact not_mem_cons_of_ne hn hl
    · exact List.not_mem_cons_of_ne_of_not_mem (Ne.symm hc) hm

theorem mem_encodings_of_opening? {opening : Opening} (h : opening? chars = some opening) :
    opening.encoding ∈ encodings := by
  obtain ⟨encoding, he, hf⟩ := List.exists_of_findSome?_eq_some h
  obtain ⟨found, -, rfl⟩ := Option.map_eq_some_iff.1 hf
  exact he

theorem not_mem_readLiteral (hc : c ≠ '\n') (h : readLiteral c rest = .lexeme kind cut) :
    '\n' ∉ cut.text := by
  unfold readLiteral at h
  split at h
  · next opening ho =>
    split at h
    · next inner hclose =>
      obtain ⟨-, rfl⟩ := Reading.lexeme.inj h
      have hquote := (eq_of_opening? ho).2
      have hencoding : ∀ encoding ∈ encodings, '\n' ∉ encoding := by decide
      have hne : opening.quote ≠ '\n' := by
        intro hn
        rw [hn] at hquote
        contradiction
      intro hm
      rcases List.mem_append.1 hm with hm | hm
      · exact hencoding _ (mem_encodings_of_opening? ho) hm
      · exact not_mem_cons_of_ne hne (not_mem_closeQuote? hclose) hm
    · contradiction
  · obtain ⟨-, rfl⟩ := Reading.lexeme.inj h
    exact not_mem_readPlain hc rest

theorem not_mem_directiveHash? (h : directiveHash? context chars = some cut) : '\n' ∉ cut.text := by
  unfold directiveHash? at h
  repeat' split at h
  all_goals first
    | contradiction
    | (obtain rfl := Option.some.inj h; simp)

theorem not_mem_headerName? (h : headerName? chars = some cut) : '\n' ∉ cut.text := by
  unfold headerName? at h
  split at h
  · obtain ⟨inner, hclose, rfl⟩ := Option.map_eq_some_iff.1 h
    obtain ⟨body, ht, hl, -⟩ := text_closeOnLine? hclose
    simp [ht, hl]
  · obtain ⟨inner, hclose, rfl⟩ := Option.map_eq_some_iff.1 h
    obtain ⟨body, ht, hl, -⟩ := text_closeOnLine? hclose
    simp [ht, hl]
  · contradiction

/-- A lexeme in which a newline stands is a newline or an assembly block. -/
theorem newline_of_mem_read {directives : Bool}
    (h : read directives context c rest = .lexeme kind cut) (hm : '\n' ∈ cut.text) :
    kind = .newline ∨ kind = .asmBlock := by
  cases readAs_of_read h with
  | newline => exact .inl rfl
  | hash _ _ hf => exact absurd hm (not_mem_directiveHash? hf)
  | header _ _ _ hf => exact absurd hm (not_mem_headerName? hf)
  | block => exact .inr rfl
  | literal hc _ _ _ hl => exact absurd hm (not_mem_readLiteral hc hl)

end CPreprocessor.Lexeme

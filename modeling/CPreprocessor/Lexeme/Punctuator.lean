import CPreprocessor.Lexeme.Basic

/-!
# Punctuators

The fixed spellings of C, digraphs included. Where several of them begin at one place, the longest
counts.
-/

namespace CPreprocessor.Lexeme

/-- Every punctuator, longer spellings before shorter ones. -/
def punctuators : List String :=
  ["%:%:",
   "...", ">>=", "<<=",
   "->", "++", "--", "&&", "||", "<=", ">=", "==", "!=", "+=", "-=", "*=", "/=", "%=", "&=", "|=",
   "^=", "<<", ">>", "##", "<:", ":>", "<%", "%>", "%:",
   "[", "]", "(", ")", "\x7b", "\x7d", ".", "&", "*", "+", "-", "~", "!", "/", "%", "<", ">", "^",
   "|", "?", ":", ";", "=", ",", "#"]

/-- The punctuators as characters. -/
def punctuatorTexts : List (List Char) := punctuators.map String.toList

/-- Cuts behind `lead`, if the text begins with it. -/
def strip? : (lead chars : List Char) → Option Cut
  | [], chars => some ⟨[], chars⟩
  | l :: lead, c :: chars => if l = c then (strip? lead chars).map (Cut.cons c) else none
  | _ :: _, [] => none

/-- Cuts behind the longest punctuator at the front of the text. -/
def punctuator? (chars : List Char) : Option Cut := punctuatorTexts.findSome? (strip? · chars)

theorem whole_strip? {lead chars : List Char} {cut : Cut} (h : strip? lead chars = some cut) :
    cut.whole = chars ∧ cut.text = lead := by
  fun_induction strip? lead chars generalizing cut with
  | case1 =>
    obtain rfl := Option.some.inj h
    exact ⟨rfl, rfl⟩
  | case2 c lead chars ih =>
    obtain ⟨inner, found, rfl⟩ := Option.map_eq_some_iff.1 h
    simp [ih found]
  | case3 => contradiction
  | case4 => contradiction

theorem punctuatorTexts_ne_nil : ∀ text ∈ punctuatorTexts, text ≠ [] := by
  decide +kernel

theorem whole_punctuator? {chars : List Char} {cut : Cut} (h : punctuator? chars = some cut) :
    cut.whole = chars ∧ cut.text ∈ punctuatorTexts := by
  obtain ⟨text, listed, found⟩ := List.exists_of_findSome?_eq_some h
  obtain ⟨whole, rfl⟩ := whole_strip? found
  exact ⟨whole, listed⟩

end CPreprocessor.Lexeme

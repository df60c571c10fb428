import CPreprocessor.Lexeme.Basic

/-!
# String literals and character constants

A literal is an optional encoding (`u8`, `u`, `U` or `L`), a quote, and everything up to the next
such quote on the same logical line that no backslash escapes.
-/

namespace CPreprocessor.Lexeme

/-- A double or a single quote. -/
def isQuote (c : Char) : Bool := c = '"' || c = '\x27'

/-- The encodings that may stand before a quote, the absent one included. -/
def encodings : List (List Char) := [[], ['u', '8'], ['u'], ['U'], ['L']]

/-- The start of a literal: its encoding, its quote and the text behind the quote. -/
structure Opening where
  encoding : List Char
  quote : Char
  rest : List Char
deriving DecidableEq, Repr

/-- The quote behind the given encoding and the text behind it. -/
def quoteAfter? : List Char → List Char → Option (Char × List Char)
  | [], quote :: rest => if isQuote quote then some (quote, rest) else none
  | e :: encoding, c :: rest => if e = c then quoteAfter? encoding rest else none
  | _, [] => none

/-- The start of a literal at the front of the text. -/
def opening? (chars : List Char) : Option Opening :=
  encodings.findSome? fun encoding =>
    (quoteAfter? encoding chars).map fun found => ⟨encoding, found.1, found.2⟩

/-- Cuts behind the closing quote. The flag tells whether a backslash stands directly before and
takes away the meaning of the first character. -/
def closeQuote? (quote : Char) : (escaped : Bool) → List Char → Option Cut
  | _, [] => none
  | escaped, c :: rest =>
    if c = '\n' then none
    else if !escaped && c = quote then some ⟨[c], rest⟩
    else (closeQuote? quote (!escaped && c = '\\') rest).map (Cut.cons c)

theorem eq_of_quoteAfter? {encoding chars rest : List Char} {quote : Char}
    (h : quoteAfter? encoding chars = some (quote, rest)) :
    chars = encoding ++ quote :: rest ∧ isQuote quote := by
  fun_induction quoteAfter? encoding chars with
  | case1 => simp_all
  | case2 => contradiction
  | case3 e encoding rest ih => simp [ih h]
  | case4 => contradiction
  | case5 => contradiction

theorem eq_of_opening? {chars : List Char} {opening : Opening} (h : opening? chars = some opening) :
    chars = opening.encoding ++ opening.quote :: opening.rest ∧ isQuote opening.quote := by
  obtain ⟨encoding, -, found⟩ := List.exists_of_findSome?_eq_some h
  obtain ⟨⟨quote, rest⟩, located, rfl⟩ := Option.map_eq_some_iff.1 found
  exact eq_of_quoteAfter? located

theorem whole_closeQuote? {quote : Char} {escaped : Bool} {chars : List Char} {cut : Cut}
    (h : closeQuote? quote escaped chars = some cut) : cut.whole = chars := by
  fun_induction closeQuote? quote escaped chars generalizing cut with
  | case1 => contradiction
  | case2 => contradiction
  | case3 =>
    obtain rfl := Option.some.inj h
    rfl
  | case4 escaped c rest _ _ ih =>
    obtain ⟨inner, found, rfl⟩ := Option.map_eq_some_iff.1 h
    rw [Cut.whole_cons, ih found]

end CPreprocessor.Lexeme

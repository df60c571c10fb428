import CPreprocessor.Lexeme.Basic
import CPreprocessor.Unicode.Class

/-!
# Identifiers and preprocessing numbers

An identifier is a letter or underscore and all word characters behind it. A preprocessing number
begins with a digit, or a point and a digit, and goes on over word characters, points, and a sign
directly behind an exponent letter.
-/

namespace CPreprocessor.Lexeme

open Unicode

/-- An exponent letter, behind which a number may go on with a sign. -/
def isExponent (c : Char) : Bool := c = 'e' || c = 'E' || c = 'p' || c = 'P'

/-- Whether a number begins at `c`. -/
def startsNumber (c : Char) (rest : List Char) : Bool :=
  isDigit c || (c = '.' && rest.head?.any isDigit)

/-- The part of a number behind its first character. The flag tells whether an exponent letter
stands directly before. -/
def numberTail : (exponent : Bool) → List Char → Cut
  | _, [] => ⟨[], []⟩
  | exponent, c :: rest =>
    if isWord c || c = '.' || (exponent && (c = '+' || c = '-')) then
      (numberTail (isExponent c) rest).cons c
    else ⟨[], c :: rest⟩

theorem whole_numberTail (exponent : Bool) (chars : List Char) :
    (numberTail exponent chars).whole = chars := by
  fun_induction numberTail exponent chars with
  | case1 => rfl
  | case2 exponent c rest _ ih => rw [Cut.whole_cons, ih]
  | case3 => rfl

end CPreprocessor.Lexeme

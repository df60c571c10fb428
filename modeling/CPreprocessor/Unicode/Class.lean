import CPreprocessor.Unicode.Letter
import CPreprocessor.Unicode.Decimal
import CPreprocessor.Unicode.Digit
import CPreprocessor.Unicode.Numeric
import CPreprocessor.Unicode.Unprintable

/-!
# Character classes

Which characters may begin or continue an identifier or a preprocessing number, and which can be
printed as they are. ASCII is decided directly, all else by the tables of ranges.
-/

namespace CPreprocessor.Unicode

/-- Whether the code point of `c` lies in one of the closed ranges. -/
def inRanges (ranges : List (Nat × Nat)) (c : Char) : Bool :=
  ranges.any fun range => range.1 ≤ c.toNat && c.toNat ≤ range.2

/-- A class that is `ascii` below 128 and given by `ranges` from there on. -/
def ofClass (ascii : Char → Bool) (ranges : List (Nat × Nat)) (c : Char) : Bool :=
  if c.toNat < 128 then ascii c else inRanges ranges c

/-- A letter of any alphabet. -/
def isLetter : Char → Bool := ofClass Char.isAlpha letterRanges

/-- A digit of decimal numbers, of any script. -/
def isDecimal : Char → Bool := ofClass Char.isDigit decimalRanges

/-- A character with a digit value, superscripts and enclosed digits included. -/
def isDigit (c : Char) : Bool := isDecimal c || ofClass (fun _ => false) digitRanges c

/-- A numeric character that is no letter and has no digit value, such as a fraction. -/
def isNumeric : Char → Bool := ofClass (fun _ => false) numericRanges

/-- A letter, a digit or another numeric character. -/
def isAlphanumeric (c : Char) : Bool := isLetter c || isDigit c || isNumeric c

/-- A character that a quoted text shows as itself. -/
def isPrintable (c : Char) : Bool :=
  if c.toNat < 128 then 32 ≤ c.toNat && c.toNat < 127 else !inRanges unprintableRanges c

/-- A character that may begin an identifier. -/
def isWordStart (c : Char) : Bool := c = '_' || isLetter c

/-- A character that may continue an identifier. -/
def isWord (c : Char) : Bool := c = '_' || isAlphanumeric c

theorem isAlphanumeric_of_isDigit {c : Char} (h : isDigit c) : isAlphanumeric c := by
  simp [isAlphanumeric, h]

theorem isWord_of_isWordStart {c : Char} (h : isWordStart c) : isWord c := by
  simp only [isWordStart, isWord, isAlphanumeric, Bool.or_eq_true] at h ⊢
  exact h.imp_right fun letter => .inl (.inl letter)

end CPreprocessor.Unicode

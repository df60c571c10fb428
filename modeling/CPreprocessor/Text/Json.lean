import CPreprocessor.Text.Quoted

/-!
# JSON texts

Strings, numbers and objects written without blanks and in ASCII alone: any other character becomes
one or two escaped units of sixteen bits.
-/

namespace CPreprocessor.Text.Json

/-- A unit of sixteen bits as an escape. -/
def escapedUnit (unit : Nat) : List Char := '\\' :: 'u' :: hexadecimal 4 unit

/-- A code point as one escaped unit, or as two if it takes more than sixteen bits. -/
def escapedPoint (point : Nat) : List Char :=
  if point < 0x10000 then escapedUnit point
  else
    escapedUnit (0xD800 + (point - 0x10000) / 0x400) ++
      escapedUnit (0xDC00 + (point - 0x10000) % 0x400)

/-- A character inside a string. -/
def stringChar (c : Char) : List Char :=
  match c with
  | '"' => ['\\', '"']
  | '\\' => ['\\', '\\']
  | '\n' => ['\\', 'n']
  | '\r' => ['\\', 'r']
  | '\t' => ['\\', 't']
  | '\x08' => ['\\', 'b']
  | '\x0c' => ['\\', 'f']
  | c => if 32 ≤ c.toNat ∧ c.toNat < 127 then [c] else escapedPoint c.toNat

/-- A text as a string. -/
def string (text : String) : String :=
  String.ofList ('"' :: (text.toList.flatMap stringChar ++ ['"']))

/-- A value, or `null` if it is absent. -/
def orNull (value : Option String) : String := value.getD "null"

/-- An object with the given members, whose values are written already. -/
def object (members : List (String × String)) : String :=
  "\x7b" ++ String.intercalate "," (members.map fun member => string member.1 ++ ":" ++ member.2) ++
    "\x7d"

end CPreprocessor.Text.Json

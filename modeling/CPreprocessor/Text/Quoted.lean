import CPreprocessor.Unicode.Class

/-!
# Quoted names

A file name inside a message stands in single quotes, or in double quotes if it holds a single one
and no double one. Whatever cannot be printed is written as an escape.
-/

namespace CPreprocessor.Text

/-- A number in hexadecimal, with leading zeros to the given width. -/
def hexadecimal (width value : Nat) : List Char :=
  let digits := Nat.toDigits 16 value
  List.replicate (width - digits.length) '0' ++ digits

/-- A character inside the given quotes. -/
def quotedChar (mark c : Char) : List Char :=
  if c = mark ∨ c = '\\' then ['\\', c]
  else if c = '\n' then ['\\', 'n']
  else if c = '\r' then ['\\', 'r']
  else if c = '\t' then ['\\', 't']
  else if Unicode.isPrintable c then [c]
  else if c.toNat < 0x100 then '\\' :: 'x' :: hexadecimal 2 c.toNat
  else if c.toNat < 0x10000 then '\\' :: 'u' :: hexadecimal 4 c.toNat
  else '\\' :: 'U' :: hexadecimal 8 c.toNat

/-- The quotes around a name. -/
def quotedMark (name : List Char) : Char :=
  if '\x27' ∈ name ∧ '"' ∉ name then '"' else '\x27'

/-- A name in quotes. -/
def quoted (name : String) : String :=
  let mark := quotedMark name.toList
  String.ofList (mark :: (name.toList.flatMap (quotedChar mark) ++ [mark]))

end CPreprocessor.Text

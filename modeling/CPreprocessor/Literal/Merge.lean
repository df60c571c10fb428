import CPreprocessor.Token.Basic

/-!
# Adjacent string literals

String literals that follow each other become one, unless they have different encodings. Bodies are
joined as written, with one exception: where the left body ends in a numeric escape that could take
in the first character of the right one, that character is respelled as a full octal escape.
-/

namespace CPreprocessor

/-- A string literal in its parts: the encoding, and what stands between the quotes. -/
structure Literal where
  encoding : List Char
  body : List Char
deriving DecidableEq, Repr

namespace Literal

/-- The parts of a spelling: what stands before its first quote, and what stands behind that
without the last character. -/
def split? (text : List Char) : Option Literal :=
  match text.dropWhile (· ≠ '"') with
  | [] => none
  | _ :: rest => some ⟨text.takeWhile (· ≠ '"'), rest.dropLast⟩

/-- The spelling of a literal. -/
def spell (literal : Literal) : List Char :=
  literal.encoding ++ '"' :: (literal.body ++ ['"'])

/-- A digit of base eight. -/
def isOctal (c : Char) : Bool := '0' ≤ c && c ≤ '7'

/-- A digit of base sixteen. -/
def isHexadecimal (c : Char) : Bool :=
  c.isDigit || ('a' ≤ c && c ≤ 'f') || ('A' ≤ c && c ≤ 'F')

/-- How far an escape at the end of a body has come. -/
inductive Escape where
  | absent
  | backslash
  /-- Any number of hexadecimal digits may follow. -/
  | hexadecimal
  /-- At most so many octal digits may follow. -/
  | octal (room : Nat)
deriving DecidableEq, Repr

namespace Escape

/-- What an unescaped character begins. -/
def start (c : Char) : Escape := if c = '\\' then backslash else absent

/-- Reads one more character of the body. -/
def next (c : Char) : Escape → Escape
  | absent => start c
  | backslash =>
    if c = 'x' then hexadecimal else if isOctal c then octal 2 else absent
  | hexadecimal => if isHexadecimal c then hexadecimal else start c
  | octal (room + 1) => if isOctal c then octal room else start c
  | octal 0 => start c

/-- Whether a digit behind it would be read as part of it. -/
def isOpen : Escape → Bool
  | hexadecimal | octal (_ + 1) => true
  | _ => false

end Escape

/-- The escape that a body ends in. -/
def lastEscape (body : List Char) : Escape := body.foldl (fun escape c => escape.next c) .absent

/-- A digit below eight as a character. -/
def octalDigit (value : Nat) : Char := Char.ofNat (48 + value % 8)

/-- The octal escape of three digits for a character. -/
def octalEscape (c : Char) : List Char :=
  ['\\', octalDigit (c.toNat / 64), octalDigit (c.toNat / 8), octalDigit c.toNat]

/-- A body as it has to be written behind `left`. -/
def respell (left right : List Char) : List Char :=
  match right with
  | [] => []
  | c :: rest =>
    if isHexadecimal c && (lastEscape left).isOpen then octalEscape c ++ rest else c :: rest

/-- Two literals as one, unless both have an encoding and these differ. -/
def append? (left right : Literal) : Option Literal :=
  if left.encoding ≠ [] ∧ right.encoding ≠ [] ∧ left.encoding ≠ right.encoding then none
  else
    some
      { encoding := if left.encoding = [] then right.encoding else left.encoding
        body := left.body ++ respell left.body right.body }

/-- Two string literals as one token in the place of the first. -/
def join? (left right : Token) : Option Token := do
  let first ← split? left.text.toList
  let second ← split? right.text.toList
  let joined ← first.append? second
  return { left with kind := .string, text := String.ofList joined.spell }

/-- Reads one token with a literal held back: the tokens that are ready, and what is held now. -/
def absorb (held : Option Token) (token : Token) : List Token × Option Token :=
  if token.kind = .string then
    match held with
    | none => ([], some token)
    | some left =>
      match join? left token with
      | some joined => ([], some joined)
      | none => ([left], some token)
  else (held.toList ++ [token], none)

/-- Merges string literals, one being held back already. -/
def mergeFrom (held : Option Token) : List Token → List Token
  | [] => held.toList
  | token :: rest => (absorb held token).1 ++ mergeFrom (absorb held token).2 rest

/-- Merges runs of adjacent string literals. -/
def merge (tokens : List Token) : List Token := mergeFrom none tokens

end Literal

end CPreprocessor

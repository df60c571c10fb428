/-!
# Logical characters

What is done to the characters of a source first, in one pass over the physical text. Line
terminators (`\r\n`, `\r` and `\n`) become `\n`, trigraphs are replaced if they are on, and a
backslash directly before a line terminator disappears together with it. Each logical character
keeps the physical line and column where it begins.
-/

namespace CPreprocessor.Source

/-- A logical character with the place where its spelling begins. -/
structure Located where
  char : Char
  line : Nat
  column : Nat
deriving DecidableEq, Repr

/-- What follows the line terminator at the front of the text, if there is one. -/
def afterTerminator? : List Char → Option (List Char)
  | '\r' :: '\n' :: rest => some rest
  | '\r' :: rest => some rest
  | '\n' :: rest => some rest
  | _ => none

/-- The character that `??` followed by this one stands for. -/
def trigraph? : Char → Option Char
  | '=' => some '#'
  | '/' => some '\\'
  | '\x27' => some '^'
  | '(' => some '['
  | ')' => some ']'
  | '!' => some '|'
  | '<' => some '{'
  | '>' => some '}'
  | '-' => some '~'
  | _ => none

/-- A character of the source alphabet, the number of physical characters that spell it, and the
text behind it. -/
structure Symbol where
  char : Char
  width : Nat
  rest : List Char

/-- The symbol spelled by `c` and the text behind it. -/
def symbol (trigraphs : Bool) (c : Char) (rest : List Char) : Symbol :=
  match c, rest with
  | '?', '?' :: mark :: behind =>
    match if trigraphs then trigraph? mark else none with
    | some char => ⟨char, 3, behind⟩
    | none => ⟨c, 1, rest⟩
  | _, _ => ⟨c, 1, rest⟩

theorem length_afterTerminator? {text rest : List Char} (h : afterTerminator? text = some rest) :
    rest.length < text.length := by
  unfold afterTerminator? at h
  split at h
  · obtain rfl := Option.some.inj h
    exact Nat.lt_succ_of_lt (Nat.lt_succ_self _)
  · obtain rfl := Option.some.inj h
    exact Nat.lt_succ_self _
  · obtain rfl := Option.some.inj h
    exact Nat.lt_succ_self _
  · contradiction

theorem length_symbol_rest (trigraphs : Bool) (c : Char) (rest : List Char) :
    (symbol trigraphs c rest).rest.length ≤ rest.length := by
  unfold symbol
  split
  · split
    · exact Nat.le_succ_of_le (Nat.le_succ _)
    · exact Nat.le_refl _
  · exact Nat.le_refl _

/-- The logical characters of a text whose first character stands at `line` and `column`. -/
def spliceFrom (trigraphs : Bool) (line column : Nat) : List Char → List Located
  | [] => []
  | c :: cs =>
    match ended : afterTerminator? (c :: cs) with
    | some rest => ⟨'\n', line, column⟩ :: spliceFrom trigraphs (line + 1) 1 rest
    | none =>
      let next := symbol trigraphs c cs
      match joined : if next.char = '\\' then afterTerminator? next.rest else none with
      | some rest => spliceFrom trigraphs (line + 1) 1 rest
      | none =>
        ⟨next.char, line, column⟩ :: spliceFrom trigraphs line (column + next.width) next.rest
termination_by text => text.length
decreasing_by
  · exact length_afterTerminator? ended
  · split at joined
    · exact Nat.lt_succ_of_lt
        (Nat.lt_of_lt_of_le (length_afterTerminator? joined) (length_symbol_rest trigraphs c cs))
    · contradiction
  · exact Nat.lt_succ_of_le (length_symbol_rest trigraphs c cs)

/-- The logical characters of a source text. -/
def splice (trigraphs : Bool) (text : List Char) : List Located := spliceFrom trigraphs 1 1 text

/-- The line and column behind the last logical character. -/
def finish (chars : List Located) : Nat × Nat :=
  match chars.getLast? with
  | none => (1, 1)
  | some last => if last.char = '\n' then (last.line + 1, 1) else (last.line, last.column + 1)

end CPreprocessor.Source

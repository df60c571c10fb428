/-!
# Source positions

A place in a named file, by physical line and column, both counted from one in code points.
-/

namespace CPreprocessor

/-- Where a character, a token or an error stands. -/
structure Position where
  file : String
  line : Nat
  column : Nat
deriving DecidableEq, Repr, Inhabited

namespace Position

/-- The first character of a file. -/
def start (file : String) : Position := ⟨file, 1, 1⟩

/-- Written as `file:line:column`. -/
def render (position : Position) : String :=
  position.file ++ ":" ++ toString position.line ++ ":" ++ toString position.column

end Position

end CPreprocessor

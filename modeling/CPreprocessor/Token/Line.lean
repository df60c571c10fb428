import CPreprocessor.Token.Lex

/-!
# Lines

The tokens of a file in lines, as directives need them. A line that is not ended, because what
begins on it is left open, does not count.
-/

namespace CPreprocessor

/-- The tokens of a line, and the place of its end. -/
structure Line where
  tokens : List Token
  stop : Position
deriving DecidableEq

/-- The lines of a file, and the place of its end if it was reached. -/
structure Lines where
  lines : List Line
  finish : Option Position
deriving DecidableEq

namespace Lines

/-- Puts a line in front. -/
def cons (line : Line) (lines : Lines) : Lines := { lines with lines := line :: lines.lines }

/-- Divides tokens into lines, `current` being the tokens of the line that has begun. -/
def divideFrom (current : List Token) : List Token → Lines
  | [] => ⟨[], none⟩
  | token :: rest =>
    match token.kind with
    | .newline => (divideFrom [] rest).cons ⟨current, token.position⟩
    | .endOfFile => ⟨[], some token.position⟩
    | _ => divideFrom (current ++ [token]) rest

/-- Divides the tokens of a file into lines. -/
def ofTokens (tokens : List Token) : Lines := divideFrom [] tokens

end Lines

end CPreprocessor

import CPreprocessor.Token.Basic

/-!
# Lexemes

The logical text of a file is divided into lexemes, each with the blanks and comments before it.
Readers cut a text in two: what they read, and the rest.
-/

namespace CPreprocessor

/-- A text cut in two. -/
structure Cut where
  text : List Char
  rest : List Char
deriving DecidableEq, Repr

namespace Cut

/-- Moves the cut back over one more character in front. -/
def cons (c : Char) (cut : Cut) : Cut := ⟨c :: cut.text, cut.rest⟩

/-- Cuts before the first character that fails the test. -/
def takeWhile (keep : Char → Bool) (chars : List Char) : Cut :=
  ⟨chars.takeWhile keep, chars.dropWhile keep⟩

/-- The whole text that was cut. -/
def whole (cut : Cut) : List Char := cut.text ++ cut.rest

@[simp] theorem whole_cons (c : Char) (cut : Cut) : (cut.cons c).whole = c :: cut.whole := rfl

@[simp] theorem whole_takeWhile (keep : Char → Bool) (chars : List Char) :
    (takeWhile keep chars).whole = chars := List.takeWhile_append_dropWhile

@[simp] theorem text_cons (c : Char) (cut : Cut) : (cut.cons c).text = c :: cut.text := rfl

@[simp] theorem rest_cons (c : Char) (cut : Cut) : (cut.cons c).rest = cut.rest := rfl

theorem length_rest_lt {cut : Cut} {chars : List Char} (whole : cut.whole = chars)
    (read : cut.text ≠ []) : cut.rest.length < chars.length := by
  have positive := List.length_pos_iff.2 read
  rw [← whole, Cut.whole, List.length_append]
  omega

end Cut

/-- A piece of logical text with its class, and the blanks and comments skipped before it. -/
structure Lexeme where
  gap : List Char
  kind : Token.Kind
  text : List Char
deriving DecidableEq, Repr

/-- What can be left open at the end of a line or a file. -/
inductive Opener where
  | comment
  | string
  | character
  | asmBlock
deriving DecidableEq, Repr

end CPreprocessor

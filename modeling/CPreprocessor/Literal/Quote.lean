/-!
# Quoted texts

A text is written as a string literal by a backslash before each double quote and backslash in it.
Reading drops those backslashes again (`unescape_escape`).
-/

namespace CPreprocessor.Literal

/-- Puts a backslash before each double quote and backslash. -/
def escape : List Char → List Char
  | [] => []
  | c :: rest => if c = '\\' || c = '"' then '\\' :: c :: escape rest else c :: escape rest

/-- Drops each backslash and keeps the character behind it. -/
def unescape : List Char → List Char
  | '\\' :: c :: rest => c :: unescape rest
  | c :: rest => c :: unescape rest
  | [] => []

theorem unescape_escape (text : List Char) : unescape (escape text) = text := by
  induction text with
  | nil => rfl
  | cons c rest ih =>
    rw [escape]
    split
    · rw [unescape, ih]
    · next plain =>
      rw [unescape, ih]
      intro _ _ backslash
      simp [backslash] at plain

/-- A text as a string literal without an encoding. -/
def quote (text : String) : String := String.ofList ('"' :: (escape text.toList ++ ['"']))

end CPreprocessor.Literal

import CPreprocessor.Source.Splice

/-!
# Line terminators

A file is read with every `\r\n` and every other `\r` as `\n`.
-/

namespace CPreprocessor.Source

/-- The text with `\n` for every line terminator. -/
def unifyNewlines : List Char → List Char
  | [] => []
  | '\r' :: '\n' :: rest => '\n' :: unifyNewlines rest
  | c :: rest => (if c = '\r' then '\n' else c) :: unifyNewlines rest

end CPreprocessor.Source

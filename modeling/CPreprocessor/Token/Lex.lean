import CPreprocessor.Fault
import CPreprocessor.Lexeme.Scan
import CPreprocessor.Source.Splice

/-!
# Tokens of a source

The lexemes of the logical text become tokens when they are given the positions of their first
characters. A text that is left open somewhere gives the tokens up to there and one issue.
-/

namespace CPreprocessor

open Source Lexeme

/-- The tokens of a source, and what stopped the reading if it did not reach the end. -/
structure Lexed where
  tokens : List Token
  issue : Option Issue
deriving DecidableEq

namespace Lexed

/-- The place of the next character, or of the end. -/
def positionOf (file : String) (finish : Nat × Nat) : List Located → Position
  | [] => ⟨file, finish.1, finish.2⟩
  | c :: _ => ⟨file, c.line, c.column⟩

/-- Gives lexemes the places of the characters they were read from. -/
def locate (file : String) (finish : Nat × Nat) (ending : Ending) :
    List Located → List Lexeme → Lexed
  | chars, [] =>
    match ending with
    | .complete gap midLine =>
      let position := positionOf file finish (chars.drop gap.length)
      let newline : Token := { kind := .newline, text := "\n", position }
      ⟨(if midLine then [newline] else []) ++ [Token.endOfFile position (!gap.isEmpty)], none⟩
    | .unclosed opener before _ =>
      ⟨[], some (.placed (.unclosed opener) (positionOf file finish (chars.drop before.length)))⟩
  | chars, lexeme :: lexemes =>
    let start := chars.drop lexeme.gap.length
    let token : Token :=
      { kind := lexeme.kind
        text := String.ofList lexeme.text
        position := positionOf file finish start
        space := !lexeme.gap.isEmpty }
    let more := locate file finish ending (start.drop lexeme.text.length) lexemes
    ⟨token :: more.tokens, more.issue⟩

end Lexed

/-- The tokens of a source text, with newlines and the end of the file. -/
def lex (directives trigraphs : Bool) (file source : String) : Lexed :=
  let chars := splice trigraphs source.toList
  let division := divide directives (.lineStart false) (chars.map Located.char)
  Lexed.locate file (finish chars) division.ending chars division.lexemes

/-- The tokens of a text taken as part of a line: no directives, no trigraphs, and newlines only
separate tokens. -/
def lexFragment (file text : String) : Except Issue (List Token) :=
  let lexed := lex false false file text
  match lexed.issue with
  | some issue => .error issue
  | none => .ok (lexed.tokens.filter fun token => token.kind ≠ .newline && token.kind ≠ .endOfFile)

end CPreprocessor

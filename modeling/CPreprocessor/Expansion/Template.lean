import CPreprocessor.Expansion.Arguments

/-!
# Bodies as templates

What each token of a body asks for depends on the definition alone: an operand of `##` takes its
argument as written, an operand of `#` takes it as text, and a parameter elsewhere takes it fully
expanded.
-/

namespace CPreprocessor.Expansion

open Macro

/-- A part of a body. The flag of a parameter tells whether a blank stands before it. -/
inductive Part where
  /-- A token that stands for itself. -/
  | token (token : Token)
  /-- The paste operator. -/
  | paste (operator : Token)
  /-- A parameter beside a paste operator. -/
  | written (name : String) (space : Bool)
  /-- A parameter elsewhere. -/
  | expanded (name : String) (space : Bool)
  /-- A parameter behind the stringizing operator. -/
  | text (name : String) (operator : Token)
deriving DecidableEq

/-- The part that one token makes, given whether a paste operator stands before or behind it. -/
def part (definition : Definition) (pasted : Bool) (token : Token) : Part :=
  if token.isPaste then .paste token
  else if token.kind = .identifier && definition.isParameter token.text then
    if pasted then .written token.text token.space else .expanded token.text token.space
  else .token token

/-- The parts of a body. The flag tells whether a paste operator stands directly before it. -/
def partsFrom (definition : Definition) : (afterPaste : Bool) → List Token → List Part
  | _, [] => []
  | afterPaste, [last] => [part definition afterPaste last]
  | afterPaste, token :: next :: rest =>
    if token.isPunctuator "#" && definition.isParameter next.text then
      .text next.text token :: partsFrom definition false rest
    else
      part definition (afterPaste || next.isPaste) token ::
        partsFrom definition token.isPaste (next :: rest)

/-- The parts of the body of a definition. -/
def parts (definition : Definition) : List Part := partsFrom definition false definition.body

/-- The parameter whose argument is taken fully expanded. -/
def Part.expandedName? : Part → Option String
  | expanded name _ => some name
  | _ => none

/-- The parameters whose arguments are taken fully expanded, in the order of their first use. -/
def expandedNames (definition : Definition) : List String :=
  ((parts definition).filterMap Part.expandedName?).eraseDups

end CPreprocessor.Expansion

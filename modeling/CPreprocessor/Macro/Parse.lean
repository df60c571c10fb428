import CPreprocessor.Fault
import CPreprocessor.Macro.Definition

/-!
# Reading a definition

The tokens behind `define` are a name, a list of parameters if an opening parenthesis follows the
name without a blank, and the body.
-/

namespace CPreprocessor.Macro

/-- Reads parameters up to the closing parenthesis. `nameAt` is the place of the macro's name, and
`seen` are the parameters read so far. -/
def parseParameters (nameAt : Position) (seen : List String) :
    List Token → Except Issue (Parameters × List Token)
  | [] => .error (.placed .parametersUnclosed nameAt)
  | token :: rest =>
    if token.isPunctuator "..." then
      match rest with
      | close :: body =>
        if close.isPunctuator ")" then .ok (⟨seen, true⟩, body)
        else .error (.placed .ellipsisNotLast token.position)
      | [] => .error (.placed .ellipsisNotLast token.position)
    else if token.kind ≠ .identifier ∨ token.text = variadicName then
      .error (.placed .parameterInvalid token.position)
    else if token.text ∈ seen then
      .error (.placed (.parameterRepeated token.text) token.position)
    else
      match rest with
      | [] => .error (.placed .parametersUnclosed nameAt)
      | separator :: more =>
        if separator.isPunctuator ")" then .ok (⟨seen ++ [token.text], false⟩, more)
        else if separator.isPunctuator "," then parseParameters nameAt (seen ++ [token.text]) more
        else .error (.placed .parameterSeparator separator.position)

/-- Reads what follows the opening parenthesis of a list of parameters. -/
def parseParameterList (nameAt : Position) : List Token → Except Issue (Parameters × List Token)
  | [] => .error (.placed .parametersUnclosed nameAt)
  | token :: rest =>
    if token.isPunctuator ")" then .ok (⟨[], false⟩, rest)
    else parseParameters nameAt [] (token :: rest)

/-- Divides the tokens behind the name into parameters and body. -/
def parseTail (nameAt : Position) :
    List Token → Except Issue (Option Parameters × List Token)
  | [] => .ok (none, [])
  | token :: rest =>
    if token.isPunctuator "(" && !token.space then do
      let (parameters, body) ← parseParameterList nameAt rest
      return (some parameters, body)
    else .ok (none, token :: rest)

/-- The first token of a body counts as having no blank before it. -/
def trimStart : List Token → List Token
  | [] => []
  | first :: rest => { first with space := false } :: rest

/-- The fault of a token in a body, `behind` being the tokens that follow it. -/
def tokenFault? (parameters : Option Parameters) (token : Token) (behind : List Token) :
    Option Fault :=
  if token.kind = .identifier && token.text = variadicName
      && !parameters.any Parameters.variadic then
    some .variadicNameMisplaced
  else
    match parameters with
    | none => none
    | some parameters =>
      if token.isPunctuator "#" && !behind.head?.any (parameters.contains ·.text) then
        some .stringizeOperand
      else none

/-- The first fault of the tokens of a body. -/
def tokensIssue? (parameters : Option Parameters) : List Token → Option Issue
  | [] => none
  | token :: rest =>
    match tokenFault? parameters token rest with
    | some fault => some (.placed fault token.position)
    | none => tokensIssue? parameters rest

/-- What is wrong with a body. -/
def bodyIssue? (parameters : Option Parameters) (body : List Token) : Option Issue :=
  match body with
  | [] => none
  | first :: rest =>
    if first.isPaste || (body.getLast?.any Token.isPaste) then
      some (.placed .pasteAtEdge first.position)
    else tokensIssue? parameters (first :: rest)

/-- Whether a name may not be defined. -/
def isReserved (name : String) : Bool := builtinNames.contains name || name = "defined"

/-- The definition in the tokens behind `define`, which stands at `site`. -/
def Definition.parse (site : Position) : List Token → Except Issue Definition
  | [] => .error (.placed .nameMissing site)
  | name :: tail =>
    if name.kind ≠ .identifier then .error (.placed .nameNotIdentifier name.position)
    else if isReserved name.text then .error (.placed (.nameReserved name.text) name.position)
    else do
      let (parameters, tokens) ← parseTail name.position tail
      let body := trimStart tokens
      match bodyIssue? parameters body with
      | some issue => .error issue
      | none => return { name := name.text, parameters, body, position := name.position }

end CPreprocessor.Macro

import CPreprocessor.Token.Basic

/-!
# Macro definitions

A macro replaces its name, or its name and a list of arguments, by its body. Two definitions of one
name agree if they differ only in where their tokens stand.
-/

namespace CPreprocessor.Macro

/-- The name that stands for the further arguments in the body of a variadic macro. -/
def variadicName : String := "__VA_ARGS__"

/-- The names that are replaced without a definition. -/
def builtinNames : List String := ["__FILE__", "__LINE__"]

/-- The parameters of a function-like macro; a variadic one takes further arguments. -/
structure Parameters where
  names : List String
  variadic : Bool
deriving DecidableEq, Repr

/-- Whether a name stands for arguments in the body. -/
def Parameters.contains (parameters : Parameters) (name : String) : Bool :=
  parameters.names.contains name || (parameters.variadic && name = variadicName)

/-- A macro. Without parameters it is object-like. -/
structure Definition where
  name : String
  parameters : Option Parameters
  body : List Token
  position : Position
deriving DecidableEq

namespace Definition

/-- Whether a name stands for arguments in the body. -/
def isParameter (definition : Definition) (name : String) : Bool :=
  definition.parameters.any (·.contains name)

/-- Whether further arguments are taken. -/
def isVariadic (definition : Definition) : Bool := definition.parameters.any Parameters.variadic

/-- Whether empty parentheses give no argument at all, and not one empty argument. -/
def permitsNoArguments (definition : Definition) : Bool :=
  definition.parameters.any fun parameters => parameters.names.isEmpty

/-- The name, with the list of parameters if there is one. -/
def signature (definition : Definition) : String :=
  match definition.parameters with
  | none => definition.name
  | some parameters =>
    let names := parameters.names ++ if parameters.variadic then ["..."] else []
    definition.name ++ "(" ++ String.intercalate "," names ++ ")"

/-- The definition on one line. -/
def render (definition : Definition) : String :=
  definition.signature ++ "=" ++ Token.render definition.body

/-- What counts of a token behind another one in a body. -/
def tokenSpelling (token : Token) : Token.Kind × String × Bool :=
  (token.kind, token.text, token.space)

/-- What counts of a body: classes and spellings, and where blanks separate two tokens. -/
def spelling : List Token → List (Token.Kind × String × Bool)
  | [] => []
  | first :: rest => (first.kind, first.text, false) :: rest.map tokenSpelling

/-- Whether two definitions agree, their places aside. -/
def isEquivalent (left right : Definition) : Bool :=
  left.parameters = right.parameters && spelling left.body = spelling right.body

end Definition

end CPreprocessor.Macro

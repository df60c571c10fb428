import CPreprocessor.Macro.Parse
import CPreprocessor.Macro.Table
import CPreprocessor.Token.Lex

/-!
# Definitions on the command line

`NAME`, `NAME=BODY` and `NAME(PARAMETERS)=BODY`. A missing body is `1`. The table that a run starts
with holds the standard names, then what the command line defines, less what it undefines.
-/

namespace CPreprocessor.Macro

/-- Where definitions on the command line stand. -/
def commandLine : Position := .start "<command line>"

/-- The head of a definition, and its body. -/
def splitDefinition (text : List Char) : List Char × List Char :=
  match text.dropWhile (· ≠ '=') with
  | [] => (text, ['1'])
  | _ :: body => (text.takeWhile (· ≠ '='), body)

/-- A character that may begin a macro name on the command line. -/
def startsName (c : Char) : Bool := c = '_' || c.isAlpha

/-- What follows the macro name at the front of the text, if there is one. -/
def afterName? : List Char → Option (List Char)
  | [] => none
  | c :: rest => if startsName c then some (rest.dropWhile Unicode.isWord) else none

/-- Whether a head is a name alone, or a name and something in parentheses. -/
def isHead (head : List Char) : Bool :=
  match afterName? head with
  | none => false
  | some tail => tail.isEmpty || tail.head? = some '('

/-- Whether the whole text is a macro name. -/
def isName (text : List Char) : Bool := afterName? text = some []

/-- The definition in an argument of the command line. -/
def Definition.ofCommandLine (text : String) : Except Issue Definition :=
  let invalid : Issue := ⟨.commandLineDefinition text, none⟩
  let (head, body) := splitDefinition text.toList
  if !isHead head then .error invalid
  else
    match lexFragment commandLine.file (String.ofList (head ++ ' ' :: body)) with
    | .error _ => .error invalid
    | .ok tokens => Definition.parse commandLine tokens

namespace Table

/-- The definitions that every run starts with. -/
def standard : List String :=
  ["__STDC_NO_ATOMICS__=1", "__STDC_NO_COMPLEX__=1", "__STDC_NO_THREADS__=1",
   "__STDC_NO_VLA__=1"]

/-- Installs definitions from the command line, in order. -/
def installAll (table : Table) : List String → Except Issue Table
  | [] => .ok table
  | text :: rest => do
    let definition ← Definition.ofCommandLine text
    installAll (table.install definition) rest

/-- Forgets names that the command line undefines, in order. -/
def eraseAll (table : Table) : List String → Except Issue Table
  | [] => .ok table
  | name :: rest =>
    if isName name.toList then eraseAll (table.erase name) rest
    else .error ⟨.commandLineUndefinition name, none⟩

/-- The table at the start of a run. -/
def initial (defines undefines : List String) : Except Issue Table := do
  let table ← installAll ∅ (standard ++ defines)
  eraseAll table undefines

end Table

end CPreprocessor.Macro

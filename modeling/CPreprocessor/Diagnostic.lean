import CPreprocessor.Position

/-!
# Diagnostics

What is reported about a source: a category fixes stage, code and severity, a report adds the text
and the place. The log keeps diagnostics in the order of their reports and can raise warnings to
errors.
-/

namespace CPreprocessor

/-- The stage that finds an error. -/
inductive Stage where
  | lexical
  | preprocessing
deriving DecidableEq, Repr

/-- Written as `lex` or `preprocess`. -/
def Stage.label : Stage → String
  | lexical => "lex"
  | preprocessing => "preprocess"

/-- How grave a diagnostic is. -/
inductive Severity where
  | error
  | warning
deriving DecidableEq, Repr

/-- Written as `error` or `warning`. -/
def Severity.label : Severity → String
  | error => "error"
  | warning => "warning"

/-- The families of errors. -/
inductive Category where
  | unterminatedLiteral
  | unterminatedComment
  | unterminatedAsmBlock
  | unknownDirective
  | unresolvedInclude
  | errorDirective
  | malformedDirective
  | invalidDefinition
  | conflictingDefinition
  | argumentCount
  | unterminatedInvocation
  | invalidPaste
  | unreadableInclude
  | includeCycle
  | unclassified (stage : Stage)
deriving DecidableEq, Repr

namespace Category

/-- The stage that reports errors of this family. -/
def stage : Category → Stage
  | unterminatedLiteral | unterminatedComment | unterminatedAsmBlock => .lexical
  | unclassified stage => stage
  | _ => .preprocessing

/-- Only an unknown directive is no more than a warning. -/
def severity : Category → Severity
  | unknownDirective => .warning
  | _ => .error

/-- The stable code of the family. -/
def code : Category → String
  | unterminatedLiteral => "XCPP-LEX-0001"
  | unterminatedComment => "XCPP-LEX-0002"
  | unterminatedAsmBlock => "XCPP-LEX-0003"
  | unknownDirective => "XCPP-PP-0101"
  | unresolvedInclude => "XCPP-PP-0102"
  | errorDirective => "XCPP-PP-0103"
  | malformedDirective => "XCPP-PP-0104"
  | invalidDefinition => "XCPP-PP-0201"
  | conflictingDefinition => "XCPP-PP-0202"
  | argumentCount => "XCPP-PP-0203"
  | unterminatedInvocation => "XCPP-PP-0204"
  | invalidPaste => "XCPP-PP-0205"
  | unreadableInclude => "XCPP-PP-0301"
  | includeCycle => "XCPP-PP-0302"
  | unclassified _ => "XCPP-PP-0000"

end Category

/-- An error of some family, in words, at a place if it has one. -/
structure Report where
  category : Category
  text : String
  position : Option Position
deriving DecidableEq, Repr

/-- The words and the place in one line. -/
def Report.render (report : Report) : String :=
  match report.position with
  | none => report.text
  | some position => report.text ++ " at " ++ position.render

/-- An entry of the log, as it is printed. -/
structure Diagnostic where
  stage : String
  filename : String
  message : String
  line : Option Int := none
  column : Option Int := none
  code : Option String := none
  severity : Severity := .error
deriving DecidableEq, Repr

namespace Diagnostic

/-- The entry for a report; one without a place belongs to the command line. -/
def ofReport (warningsAreErrors : Bool) (report : Report) : Diagnostic :=
  { stage := report.category.stage.label
    filename := (report.position.map Position.file).getD "<command line>"
    message := report.text
    line := report.position.map fun position => position.line
    column := report.position.map fun position => position.column
    code := some report.category.code
    severity := if warningsAreErrors then .error else report.category.severity }

/-- One line of text; the place is left out unless both line and column are known. -/
def render (diagnostic : Diagnostic) : String :=
  let place :=
    match diagnostic.line, diagnostic.column with
    | some line, some column => ":" ++ toString line ++ ":" ++ toString column
    | _, _ => ""
  diagnostic.filename ++ place ++ ": " ++ diagnostic.stage ++ ": " ++ diagnostic.severity.label ++
    ": " ++ diagnostic.message

/-- Whether the entry is an error and no warning. -/
def isError (diagnostic : Diagnostic) : Bool := diagnostic.severity = .error

end Diagnostic

/-- The diagnostics of one run, in the order of their reports. -/
structure Log where
  warningsAreErrors : Bool := false
  entries : List Diagnostic := []
deriving DecidableEq, Repr

namespace Log

/-- Adds the entry for a report at the end. -/
def report (log : Log) (entry : Report) : Log :=
  { log with entries := log.entries ++ [Diagnostic.ofReport log.warningsAreErrors entry] }

/-- Adds the entries for several reports. -/
def reportAll (log : Log) (entries : List Report) : Log :=
  { log with
    entries := log.entries ++ entries.map (Diagnostic.ofReport log.warningsAreErrors) }

/-- The entries that are errors. -/
def errors (log : Log) : List Diagnostic := log.entries.filter Diagnostic.isError

/-- Whether an error has been reported. -/
def hasErrors (log : Log) : Bool := log.entries.any Diagnostic.isError

end Log

/-- The diagnostics of a run that failed, and the first error among them. -/
structure Failure where
  primary : Diagnostic
  entries : List Diagnostic
deriving DecidableEq, Repr

/-- The failure that a log amounts to, if there is an error in it. -/
def Log.failure? (log : Log) : Option Failure :=
  (log.entries.find? Diagnostic.isError).map fun primary => ⟨primary, log.entries⟩

end CPreprocessor

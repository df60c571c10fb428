import CPreprocessor.CommandLine.Arguments
import CPreprocessor.Preprocessed
import CPreprocessor.Text.Json

/-!
# Running a command line

Diagnostics go to the error output, dumps to the standard output. If no dump is asked for, a line
says that all went well.
-/

namespace CPreprocessor

/-- A diagnostic as a JSON object. -/
def Diagnostic.json (diagnostic : Diagnostic) : String :=
  let number : Option Int → String := fun value => Text.Json.orNull (value.map toString)
  Text.Json.object
    [("stage", Text.Json.string diagnostic.stage),
     ("severity", Text.Json.string diagnostic.severity.label),
     ("filename", Text.Json.string diagnostic.filename),
     ("line", number diagnostic.line),
     ("column", number diagnostic.column),
     ("code", Text.Json.orNull (diagnostic.code.map Text.Json.string)),
     ("message", Text.Json.string diagnostic.message)]

namespace CommandLine

/-- What a command line leads to: its exit code, and the lines of both outputs. -/
structure Effect where
  code : Nat
  output : List String := []
  errors : List String := []
deriving DecidableEq, Repr

/-- Ends each line with a line feed. -/
def joinLines (lines : List String) : String := String.join (lines.map (· ++ "\n"))

/-- Diagnostics as lines in a format. -/
def diagnosticLines (format : DiagnosticFormat) (diagnostics : List Diagnostic) : List String :=
  match format with
  | .human => diagnostics.map Diagnostic.render
  | .json => diagnostics.map Diagnostic.json

/-- How to call the program. -/
def usage : String :=
  "usage: xcpp [-h] [-I DIR] [-iquote DIR] [-isystem DIR] [-D MACRO] [-U MACRO] [-trigraphs] " ++
    "[-Werror] [--diag-format \x7bhuman,json\x7d] [--dump-tokens] [--dump-include-trace] " ++
    "[--dump-macro-table] [--dump-pragmas] input"

/-- The lines that a successful run prints. -/
def outputLines (arguments : Arguments) (result : Preprocessed) : List String :=
  let dumps :=
    (if arguments.dumpTokens then result.tokens.map Token.dumpLine else []) ++
    (if arguments.dumpTrace then result.trace else []) ++
    (if arguments.dumpMacros then result.macros else []) ++
    (if arguments.dumpPragmas then result.pragmas.map Pragma.dumpLine else [])
  if arguments.dumpTokens || arguments.dumpTrace || arguments.dumpMacros
      || arguments.dumpPragmas then
    dumps
  else ["xcpp: ok: " ++ result.filename]

/-- Why nothing comes of a command line. -/
inductive Collapse where
  /-- No file can have the name of the input. -/
  | unnameable (fault : Files.Unnameable)
  /-- The system refuses to look a header up. -/
  | overlong (fault : Files.Overlong)
deriving DecidableEq, Repr

/-- The cause in words. -/
def Collapse.message : Collapse → String
  | unnameable fault => fault.message
  | overlong fault => fault.message

/-- Runs with the arguments over the file they name. -/
def executeArguments (files : Files.Tree) (input : String) (arguments : Arguments)
    (path : String) : Except Collapse Effect :=
  match readSource files input path with
  | .error (.unnameable fault) => .error (.unnameable fault)
  | .error fault => .ok { code := 1, errors := ["xcpp: I/O error: " ++ fault.message] }
  | .ok (filename, source) =>
    match preprocess files arguments.options filename source with
    | .error (.unnameable fault) => .error (.unnameable fault)
    | .error (.overlong fault) => .error (.overlong fault)
    | .error (.failed failure) =>
      .ok { code := 1, errors := diagnosticLines arguments.options.format failure.entries }
    | .ok result =>
      .ok
        { code := 0
          output := outputLines arguments result
          errors := diagnosticLines arguments.options.format result.diagnostics }

/-- Runs a command line; `input` is the standard input. -/
def execute (files : Files.Tree) (input : String) (words : List String) :
    Except Collapse Effect :=
  match Arguments.ofWords? words with
  | none => .ok { code := 2, errors := [usage] }
  | some arguments =>
    if arguments.help then .ok { code := 0, output := [usage] }
    else
      match arguments.input with
      | none => .ok { code := 2, errors := [usage] }
      | some path => executeArguments files input arguments path

end CommandLine

end CPreprocessor

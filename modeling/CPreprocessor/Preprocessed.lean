import CPreprocessor.Run

/-!
# Preprocessing as a whole

A source is preprocessed in a fresh session. If any error is reported on the way, the diagnostics
are the result. A source whose name no file can have is not preprocessed at all, and a run that is
broken off has no result, whatever was reported.
-/

namespace CPreprocessor

/-- What preprocessing a source gives. -/
structure Preprocessed where
  filename : String
  source : String
  tokens : List Token
  diagnostics : List Diagnostic
  trace : List String
  macros : List String
  pragmas : List Pragma
deriving DecidableEq

/-- Why there is no result. -/
inductive Refusal where
  /-- Errors were reported. -/
  | failed (failure : Failure)
  /-- No file can have the name of the source. -/
  | unnameable (fault : Files.Unnameable)
  /-- The system refuses to look a header up. -/
  | overlong (fault : Files.Overlong)
deriving DecidableEq, Repr

/-- The result of a run, or the failure that its issues amount to. -/
def Run.result (run : Run) (options : Options) (filename source : String) :
    Except Refusal Preprocessed :=
  let log := run.report { warningsAreErrors := options.warningsAreErrors }
  match run.halt, log.failure? with
  | some fault, _ => .error (.overlong fault)
  | none, some failure => .error (.failed failure)
  | none, none =>
    .ok
      { filename
        source
        tokens := run.tokens
        diagnostics := log.entries
        trace := run.session.trace
        macros := run.session.macros.dump
        pragmas := run.session.pragmas }

/-- Preprocesses a source. -/
def preprocess (files : Files.Tree) (options : Options) (filename source : String) :
    Except Refusal Preprocessed :=
  match Session.initial options with
  | .error issue =>
    let diagnostic := Diagnostic.ofReport options.warningsAreErrors issue.report
    .error (.failed ⟨diagnostic, [diagnostic]⟩)
  | .ok session =>
    match Run.ofSource files options session filename source with
    | .error fault => .error (.unnameable fault)
    | .ok run => run.result options filename source

/-- The name and the text of a main file; a dash stands for the standard input. -/
def readSource (files : Files.Tree) (input path : String) :
    Except Files.ReadFault (String × String) :=
  if path = "-" then .ok ("<stdin>", input)
  else
    let path := Files.Path.ofString path
    (files.readText path).map fun text => (path.render, text)

/-- A token as a line of a dump: its place, its class, and its spelling if it has one. -/
def Token.dumpLine (token : Token) : String :=
  let place :=
    toString token.position.line ++ ":" ++ toString token.position.column ++ "\t" ++
      token.kind.label
  if token.kind = .endOfFile then place else place ++ "\t" ++ token.text

/-- A pragma as a line of a dump. -/
def Pragma.dumpLine (pragma : Pragma) : String :=
  pragma.position.render ++ ": #pragma " ++ pragma.text

end CPreprocessor

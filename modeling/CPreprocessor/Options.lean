/-!
# Options

What a run can be told: where headers are looked for, what the command line defines and undefines,
whether trigraphs are read, how deep headers may nest, and how diagnostics are treated and printed.
-/

namespace CPreprocessor

/-- How diagnostics are printed. -/
inductive DiagnosticFormat where
  | human
  | json
deriving DecidableEq, Repr

namespace DiagnosticFormat

/-- The name of a format. -/
def name : DiagnosticFormat → String
  | human => "human"
  | json => "json"

/-- The format of a name. -/
def ofName? : String → Option DiagnosticFormat
  | "human" => some human
  | "json" => some json
  | _ => none

end DiagnosticFormat

/-- The options of a run. At least the main file can always be entered. -/
structure Options where
  includeDirectories : List String := []
  quoteDirectories : List String := []
  systemDirectories : List String := []
  defines : List String := []
  undefines : List String := []
  trigraphs : Bool := false
  depthLimit : Nat := 200
  format : DiagnosticFormat := .human
  warningsAreErrors : Bool := false
  depthLimit_pos : 0 < depthLimit := by decide
deriving DecidableEq, Repr

/-- What is wrong with the value of an option. -/
inductive OptionFault where
  | unsupportedFormat (name : String)
  | invalidDepthLimit (limit : Int)
deriving DecidableEq, Repr

/-- A fault in words. -/
def OptionFault.message : OptionFault → String
  | unsupportedFormat name => "Unsupported diagnostic format: " ++ name
  | invalidDepthLimit limit => "Invalid include depth limit: " ++ toString limit

namespace Options

/-- Sets the format by its name. -/
def withFormat (options : Options) (name : String) : Except OptionFault Options :=
  match DiagnosticFormat.ofName? name with
  | some format => .ok { options with format }
  | none => .error (.unsupportedFormat name)

/-- Sets how deep headers may nest, the main file included. -/
def withDepthLimit (options : Options) (limit : Int) : Except OptionFault Options :=
  if positive : 0 < limit.toNat then
    .ok { options with depthLimit := limit.toNat, depthLimit_pos := positive }
  else .error (.invalidDepthLimit limit)

/-- Where headers in quotes are looked for behind the directory of the including file. -/
def quotedSearchPath (options : Options) : List String :=
  options.quoteDirectories ++ options.includeDirectories ++ options.systemDirectories

/-- Where headers in angle brackets are looked for. -/
def angledSearchPath (options : Options) : List String :=
  options.includeDirectories ++ options.systemDirectories

end Options

end CPreprocessor

import CPreprocessor.CommandLine.Word
import CPreprocessor.Options

/-!
# Arguments of a command line

One operand names the input; all other words are options and their values. Words are taken from
left to right up to a request for help, and whatever is left over makes the others useless.
-/

namespace CPreprocessor.CommandLine

/-- What a command line asks for. -/
structure Arguments where
  input : Option String := none
  options : Options := {}
  help : Bool := false
  /-- Whether there was a word that nothing could be done with. -/
  excess : Bool := false
  dumpTokens : Bool := false
  dumpTrace : Bool := false
  dumpMacros : Bool := false
  dumpPragmas : Bool := false
deriving DecidableEq, Repr

namespace Arguments

/-- Changes the options of the run. -/
def configure (arguments : Arguments) (change : Options → Options) : Arguments :=
  { arguments with options := change arguments.options }

/-- Takes in an option without a value. -/
def set (arguments : Arguments) : Key → Arguments
  | .help => { arguments with help := true }
  | .trigraphs => arguments.configure ({ · with trigraphs := true })
  | .warningsAreErrors => arguments.configure ({ · with warningsAreErrors := true })
  | .dumpTokens => { arguments with dumpTokens := true }
  | .dumpTrace => { arguments with dumpTrace := true }
  | .dumpMacros => { arguments with dumpMacros := true }
  | .dumpPragmas => { arguments with dumpPragmas := true }
  | _ => arguments

/-- Takes in several options without values. -/
def setAll (arguments : Arguments) (keys : List Key) : Arguments := keys.foldl set arguments

/-- Takes in an option with a value. An option that takes none cannot be given one. -/
def give? (arguments : Arguments) (key : Key) (value : String) : Option Arguments :=
  match key with
  | .includeDirectory =>
    some (arguments.configure fun options =>
      { options with includeDirectories := options.includeDirectories ++ [value] })
  | .quoteDirectory =>
    some (arguments.configure fun options =>
      { options with quoteDirectories := options.quoteDirectories ++ [value] })
  | .systemDirectory =>
    some (arguments.configure fun options =>
      { options with systemDirectories := options.systemDirectories ++ [value] })
  | .define =>
    some (arguments.configure fun options => { options with defines := options.defines ++ [value] })
  | .undefine =>
    some (arguments.configure fun options =>
      { options with undefines := options.undefines ++ [value] })
  | .format =>
    (DiagnosticFormat.ofName? value).map fun format =>
      arguments.configure ({ · with format })
  | _ => none

/-- Takes in an operand. Only the first one counts. -/
def name (arguments : Arguments) (input : String) : Arguments :=
  if arguments.input.isSome then { arguments with excess := true }
  else { arguments with input }

/-- Takes in the rest of the words. A separator counts with the input next to it. -/
def take? (arguments : Arguments) (words : List Word) : Option Arguments :=
  if arguments.help then some arguments
  else
    match words with
    | [] => if arguments.excess then none else some arguments
    | .operand text :: .separator :: rest => take? (arguments.name text) rest
    | .operand text :: rest => take? (arguments.name text) rest
    | .separator :: .operand text :: rest => take? (arguments.name text) rest
    | .separator :: _ => none
    | .unknown :: rest => take? { arguments with excess := true } rest
    | .option flags key (some value) :: rest => do
      take? (← (arguments.setAll flags).give? key value) rest
    | .option flags key none :: .operand value :: rest =>
      if key.takesValue then do
        take? (← (arguments.setAll flags).give? key value) rest
      else take? ((arguments.setAll flags).set key) (.operand value :: rest)
    | .option flags key none :: rest =>
      if key.takesValue then none else take? ((arguments.setAll flags).set key) rest

/-- The arguments that words amount to. -/
def ofWords? (words : List String) : Option Arguments := do ({} : Arguments).take? (← words? words)

end Arguments

end CPreprocessor.CommandLine

import CPreprocessor.Include.Stack
import CPreprocessor.Macro.CommandLine
import CPreprocessor.Options

/-!
# Sessions

What a run keeps from line to line and from one main file to the next: macros, the include
stack, the includes that were resolved, the pragmas, and the files that are read only once.
-/

namespace CPreprocessor

/-- A pragma, and where its directive stands. -/
structure Pragma where
  position : Position
  text : String
deriving DecidableEq, Repr

/-- The state of a run. -/
structure Session where
  macros : Macro.Table
  stack : Include.Stack
  trace : List String := []
  pragmas : List Pragma := []
  once : List String := []
deriving DecidableEq

namespace Session

/-- The state at the start of a run. -/
def initial (options : Options) : Except Issue Session := do
  let macros ← Macro.Table.initial options.defines options.undefines
  return { macros, stack := .empty options.depthLimit }

/-- Enters a file. -/
def enter (session : Session) (frame : Include.Frame) : Session :=
  { session with stack := session.stack.push frame }

/-- Leaves the file that is being read. -/
def leave (session : Session) : Session := { session with stack := session.stack.pop }

/-- Sets how far reading has come in the current file. -/
def moveTo (session : Session) (position : Position) : Session :=
  { session with stack := session.stack.moveTo position }

/-- The session at the end of a file, where its place is known. -/
def reachEnd (session : Session) : Option Position → Session
  | some position => session.moveTo position
  | none => session

end Session

end CPreprocessor

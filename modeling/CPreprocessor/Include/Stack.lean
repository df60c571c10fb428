import CPreprocessor.Fault
import CPreprocessor.Files.Path

/-!
# The include stack

The files that are being read, each included by the one below it. No file may be entered twice at
once, and no more than so many may be open.
-/

namespace CPreprocessor.Include

/-- A file that is being read: what identifies it, the name that positions in it carry, the
directory its quoted includes are looked for in, and how far reading has come. -/
structure Frame where
  identity : String
  filename : String
  directory : Option Files.Path
  position : Position
deriving DecidableEq, Repr

/-- The open files, innermost first, and how many there may be. -/
structure Stack where
  limit : Nat
  frames : List Frame
deriving DecidableEq, Repr

namespace Stack

/-- No file is open. -/
def empty (limit : Nat) : Stack := ⟨limit, []⟩

/-- The number of open files. -/
def depth (stack : Stack) : Nat := stack.frames.length

/-- The file that is being read now. -/
def top? (stack : Stack) : Option Frame := stack.frames.head?

/-- Whether a file is open. -/
def contains (stack : Stack) (identity : String) : Bool :=
  stack.frames.any (·.identity = identity)

/-- Why a file may not be entered. -/
def obstacle? (stack : Stack) (identity : String) : Option Fault :=
  if stack.contains identity then some (.includeCycle identity)
  else if stack.limit ≤ stack.depth then some .includeTooDeep
  else none

/-- Enters a file. -/
def push (stack : Stack) (frame : Frame) : Stack := { stack with frames := frame :: stack.frames }

/-- Enters a file if it may be entered. -/
def push? (stack : Stack) (frame : Frame) : Except Fault Stack :=
  match stack.obstacle? frame.identity with
  | some fault => .error fault
  | none => .ok (stack.push frame)

/-- Leaves the file that is being read. -/
def pop (stack : Stack) : Stack := { stack with frames := stack.frames.tail }

/-- Sets how far reading has come. -/
def moveTo (stack : Stack) (position : Position) : Stack :=
  match stack.frames with
  | [] => stack
  | frame :: frames => { stack with frames := { frame with position } :: frames }

end Stack

end CPreprocessor.Include

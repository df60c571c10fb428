import CPreprocessor.Expansion.Expand
import CPreprocessor.Files.Read
import CPreprocessor.Include.Reference
import CPreprocessor.Literal.Merge
import CPreprocessor.Session

/-!
# Directives

What a directive line does to the session. A directive that fails changes nothing but the trace of
resolved includes; an include that succeeds gives the file to be read next. One whose header the
system refuses to look up is not reported: it breaks off all reading.
-/

namespace CPreprocessor

open Expansion Include

/-- A file to be read. -/
structure Included where
  path : Files.Path
  source : String
deriving DecidableEq, Repr

/-- The frame of an included file. Its path is both its identity and its name. -/
def Included.frame (included : Included) : Frame :=
  { identity := included.path.render
    filename := included.path.render
    directory := some included.path.parent
    position := .start included.path.render }

/-- What keeps a directive from being carried out. -/
inductive Interruption where
  /-- An issue, which is reported, and reading goes on. -/
  | issue (issue : Issue)
  /-- A path that the system refuses, which breaks reading off. -/
  | overlong (fault : Files.Overlong)
deriving DecidableEq, Repr

/-- What a directive does. -/
structure Outcome where
  /-- The issues raised while the operand was expanded. -/
  raised : List Issue := []
  session : Session
  /-- What went wrong, or the file to be read next. -/
  result : Except Interruption (Option Included) := .ok none

namespace Outcome

/-- A directive that fails. -/
def failed (session : Session) (fault : Fault) (position : Position) : Outcome :=
  { session, result := .error (.issue (.placed fault position)) }

/-- A directive that only changes the session. -/
def changed (session : Session) : Outcome := { session }

end Outcome

namespace Directive

/-- Defines a macro. -/
def define (session : Session) (keyword : Token) (operands : List Token) : Outcome :=
  let defined : Except Issue Macro.Table := do
    session.macros.define (← Macro.Definition.parse keyword.position operands)
  match defined with
  | .ok macros => .changed { session with macros }
  | .error issue => { session, result := .error (.issue issue) }

/-- Forgets a macro. Whatever follows its name is ignored. -/
def undefine (session : Session) (keyword : Token) (operands : List Token) : Outcome :=
  match operands with
  | name :: _ =>
    if name.kind = .identifier then
      .changed { session with macros := session.macros.erase name.text }
    else .failed session .undefineOperand keyword.position
  | [] => .failed session .undefineOperand keyword.position

/-- Whether the operand of a pragma is `once` alone. -/
def isOnce : List Token → Bool
  | [only] => only.text = "once"
  | _ => false

/-- Records a pragma; `once` alone marks the current file as one to be read only once. -/
def pragma (session : Session) (frame : Frame) (hash : Token) (operands : List Token) : Outcome :=
  if isOnce operands then .changed { session with once := session.once ++ [frame.identity] }
  else
    .changed { session with
      pragmas := session.pragmas ++ [⟨hash.position, Token.render operands⟩] }

/-- The issues raised by expanding the operand of an include, and the header it names. -/
def reference? (table : Macro.Table) (operands : List Token) : List Issue × Option Reference :=
  let general : List Issue × Option Reference :=
    let events := expand table operands
    (events.filterMap Event.issue?,
      Reference.ofTokens? (Literal.merge (events.filterMap Event.token?)))
  match operands with
  | [name] =>
    if name.kind = .headerName then ([], some (.ofHeaderName name.text)) else general
  | _ => general

/-- The line of the trace for an include that was resolved. -/
def traceLine (filename : String) (line : Nat) (reference : Reference) (path : Files.Path) :
    String :=
  filename ++ ":" ++ toString line ++ ": #include " ++ reference.render ++ " -> " ++ path.render

/-- Opens the file that a reference leads to. One that is read only once is passed over. -/
def openFile (files : Files.Tree) (session : Session) (frame : Frame) (keyword : Token)
    (reference : Reference) (path : Files.Path) : Outcome :=
  if path.render ∈ session.once then .changed session
  else
    let session := { session with
      trace := session.trace ++
        [traceLine frame.filename keyword.position.line reference path] }
    match session.stack.obstacle? path.render with
    | some fault => .failed session fault keyword.position
    | none =>
      match files.readText path with
      | .error fault =>
        .failed session (.includeUnreadable reference.name fault.message) keyword.position
      | .ok source => { session, result := .ok (some ⟨path, source⟩) }

/-- Includes a file. -/
def includeFile (files : Files.Tree) (options : Options) (session : Session) (frame : Frame)
    (keyword : Token) (operands : List Token) : Outcome :=
  let (raised, named) := reference? session.macros operands
  let outcome :=
    match named with
    | none => Outcome.failed session .includeOperand keyword.position
    | some reference =>
      match reference.locate files options frame.directory with
      | .error fault => { session, result := .error (.overlong fault) }
      | .ok none => .failed session (.includeUnresolved reference.render) keyword.position
      | .ok (some path) => openFile files session frame keyword reference path
  { outcome with raised }

/-- Carries out the directive that follows `hash` on a line of the file `frame`. -/
def execute (files : Files.Tree) (options : Options) (session : Session) (frame : Frame)
    (hash keyword : Token) (operands : List Token) : Outcome :=
  let name := if keyword.kind = .identifier then keyword.text else ""
  if name = "define" then define session keyword operands
  else if name = "undef" then undefine session keyword operands
  else if name = "include" then includeFile files options session frame keyword operands
  else if name = "pragma" then pragma session frame hash operands
  else if name = "error" then
    .failed session (.errorDirective (Token.render operands)) hash.position
  else .failed session (.unknownDirective keyword.text) keyword.position

end Directive

end CPreprocessor

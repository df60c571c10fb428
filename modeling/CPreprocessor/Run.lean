import CPreprocessor.SourceFile

/-!
# Runs

A main file is read, expanded and merged, one item at a time. Every token comes out with the
session that reading had come to when it was ready, so that what a run has done by then can be told.
Where reading is broken off, whatever is still held back is lost.
-/

namespace CPreprocessor

open Expansion

/-- What a run produces. -/
inductive Emission where
  /-- A token, and the session at the time it is ready. -/
  | token (session : Session) (token : Token)
  | issue (issue : Issue)
deriving DecidableEq

namespace Emission

/-- The token, if it is one. -/
def token? : Emission → Option Token
  | token _ produced => some produced
  | issue _ => none

/-- The issue, if it is one. -/
def issue? : Emission → Option Issue
  | issue raised => some raised
  | token _ _ => none

/-- An event of expansion in a session. -/
def ofEvent (session : Session) : Event → Emission
  | .token produced => token session produced
  | .issue raised => issue raised

/-- Expands the text among items, a call being suspended. No call is left suspended behind the end
of a file, and one that is where reading was broken off is lost. -/
def expandFrom (held : Option Suspended) : List Item → List Emission
  | [] => []
  | .issue raised :: rest => issue raised :: expandFrom held rest
  | .text session tokens :: rest =>
    let progress := feed session.macros true held tokens
    progress.events.map (ofEvent session) ++ expandFrom progress.held rest

/-- Merges string literals among what a run produces, one being held back. It is ready when the
token behind it is, or at the end if that `whole` is all that is to come. -/
def mergeFrom (whole : Bool) (held : Option (Session × Token)) : List Emission → List Emission
  | [] => if whole then held.toList.map fun last => token last.1 last.2 else []
  | issue raised :: rest => issue raised :: mergeFrom whole held rest
  | token session produced :: rest =>
    let absorbed := Literal.absorb (held.map Prod.snd) produced
    absorbed.1.map (token session) ++ mergeFrom whole (absorbed.2.map (session, ·)) rest

end Emission

/-- What a run over one main file produces, the session behind it, and the path that it was broken
off at, if it was. -/
structure Run where
  emissions : List Emission
  session : Session
  halt : Option Files.Overlong
deriving DecidableEq

namespace Run

/-- The run over what is read. -/
def ofReading (reading : Reading) : Run :=
  { emissions :=
      Emission.mergeFrom reading.halt.isNone none (Emission.expandFrom none reading.items)
    session := reading.session
    halt := reading.halt }

/-- Runs over the main file of a frame in a session. -/
def ofFrame (files : Files.Tree) (options : Options) (session : Session) (frame : Include.Frame)
    (source : String) : Run :=
  ofReading (SourceFile.read files options session frame source)

/-- Runs over a main file in a session. There is no run if no file can have its name. -/
def ofSource (files : Files.Tree) (options : Options) (session : Session)
    (filename source : String) : Except Files.Unnameable Run := do
  return ofFrame files options session (← SourceFile.mainFrame files filename) source

/-- The tokens that come out. -/
def tokens (run : Run) : List Token := run.emissions.filterMap Emission.token?

/-- The issues raised, in order. -/
def issues (run : Run) : List Issue := run.emissions.filterMap Emission.issue?

/-- The log of an earlier run with the issues of this one. -/
def report (run : Run) (log : Log) : Log := log.reportAll (run.issues.map Issue.report)

end Run

end CPreprocessor

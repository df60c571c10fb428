import CPreprocessor.Directive
import CPreprocessor.Token.Line

/-!
# Source files

A main file with everything it includes, as a sequence of items in the order of reading: lines of
text with the session that they are read in, and issues. Directives act here, macros in the text
are not yet expanded.
-/

namespace CPreprocessor

open Include

/-- A piece of what is read. -/
inductive Item where
  | text (session : Session) (tokens : List Token)
  | issue (issue : Issue)
deriving DecidableEq

/-- Items in the order of reading, the session behind them, and the path that reading was broken off
at, if it was. -/
structure Reading where
  items : List Item
  session : Session
  halt : Option Files.Overlong
deriving DecidableEq

namespace Reading

/-- Puts items in front. -/
def after (items : List Item) (reading : Reading) : Reading :=
  { reading with items := items ++ reading.items }

/-- Puts issues in front. -/
def raising (issues : List Issue) (reading : Reading) : Reading :=
  reading.after (issues.map .issue)

/-- Goes on reading in the session behind, unless reading was broken off. -/
def andThen (reading : Reading) (next : Session → Reading) : Reading :=
  match reading.halt with
  | some _ => reading
  | none => (next reading.session).after reading.items

theorem andThen_of_none {reading : Reading} (h : reading.halt = none) (next : Session → Reading) :
    reading.andThen next = (next reading.session).after reading.items := by
  rw [andThen, h]

@[simp] theorem andThen_none (items : List Item) (session : Session) (next : Session → Reading) :
    (mk items session none).andThen next = (next session).after items := rfl

theorem andThen_of_some {reading : Reading} {fault : Files.Overlong} (h : reading.halt = some fault)
    (next : Session → Reading) : reading.andThen next = reading := by
  rw [andThen, h]

theorem andThen_assoc (reading : Reading) (next last : Session → Reading) :
    (reading.andThen next).andThen last =
      reading.andThen fun session => (next session).andThen last := by
  obtain ⟨items, session, halt⟩ := reading
  cases halt with
  | some fault => rfl
  | none =>
    rw [andThen_none, andThen_none]
    obtain ⟨inner, final, halt⟩ := next session
    cases halt with
    | some fault => rfl
    | none => exact congrArg (mk · _ _) (List.append_assoc items inner _)

@[simp] theorem andThen_nil (reading : Reading) :
    (reading.andThen fun session => ⟨[], session, none⟩) = reading := by
  obtain ⟨items, session, halt⟩ := reading
  cases halt with
  | some fault => rfl
  | none => exact congrArg (mk · session none) (List.append_nil items)

end Reading

namespace SourceFile

/-- The names that stand for no file. -/
def memoryNames : List String := ["<input>", "<stdin>"]

/-- The frame of the main file. One that stands for no file is identified by its name; any other
one has to have a name that a file can have, but need not exist. -/
def mainFrame (files : Files.Tree) (filename : String) : Except Files.Unnameable Frame :=
  if filename ∈ memoryNames then .ok ⟨filename, filename, none, .start filename⟩
  else do
    let path := files.resolve (← (Files.Path.ofString filename).nameable)
    return ⟨path.render, filename, some path.parent, .start filename⟩

/-- How an included file is read, in a session that has not entered it yet. The session behind it
has not left it yet. -/
abbrev Enter := Session → Frame → String → Reading

/-- Reads what a directive includes. A file is left even where reading was broken off in it. -/
def follow (enter : Enter) (outcome : Outcome) : Reading :=
  match outcome.result with
  | .error (.issue issue) => ⟨[.issue issue], outcome.session, none⟩
  | .error (.overlong fault) => ⟨[], outcome.session, some fault⟩
  | .ok none => ⟨[], outcome.session, none⟩
  | .ok (some included) =>
    let reading := enter outcome.session included.frame included.source
    { reading with session := reading.session.leave }

/-- Reads one line in the session that has come to its end. -/
def readLine (files : Files.Tree) (options : Options) (enter : Enter) (session : Session)
    (tokens : List Token) : Reading :=
  match tokens, session.stack.top? with
  | hash :: operands, some frame =>
    if hash.kind = .directiveHash then
      match operands with
      | [] => ⟨[], session, none⟩
      | keyword :: operands =>
        let outcome := Directive.execute files options session frame hash keyword operands
        (follow enter outcome).raising outcome.raised
    else ⟨[.text session tokens], session, none⟩
  | _, _ => ⟨[.text session tokens], session, none⟩

/-- Reads lines one after the other. -/
def readLines (files : Files.Tree) (options : Options) (enter : Enter) (session : Session) :
    List Line → Reading
  | [] => ⟨[], session, none⟩
  | line :: rest =>
    (readLine files options enter (session.moveTo line.stop) line.tokens).andThen fun session =>
      readLines files options enter session rest

/-- Reads a file. At most `room` files may be open in it at once, itself included. -/
def readFile (files : Files.Tree) (options : Options) : (room : Nat) → Enter
  | 0, session, _, _ => ⟨[], session, none⟩
  | room + 1, session, frame, source =>
    let lexed := lex true options.trigraphs frame.filename source
    let lines := Lines.ofTokens lexed.tokens
    let reading :=
      readLines files options (readFile files options room) (session.enter frame) lines.lines
    reading.andThen fun session =>
      ⟨lexed.issue.toList.map .issue, session.reachEnd lines.finish, none⟩

/-- How far reading has come in the current file, `frame` being the main file. -/
def reached (session : Session) (frame : Frame) : Position :=
  (session.stack.top?.getD frame).position

/-- Reads a main file and everything it includes. The end of the main file is the last item, unless
reading was broken off. -/
def read (files : Files.Tree) (options : Options) (session : Session) (frame : Frame)
    (source : String) : Reading :=
  let reading := readFile files options options.depthLimit session frame source
  let stop := Token.endOfFile (reached reading.session frame)
  { reading with session := reading.session.leave }.andThen fun final =>
    ⟨[.text final [stop]], final, none⟩

end SourceFile

end CPreprocessor

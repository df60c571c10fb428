import CPreprocessor.Proofs.Directive
import CPreprocessor.SourceFile

/-!
# Reading as a machine

A file is read by a loop of its own inside the one that reads the file including it, and nothing
but the include stack keeps these loops from nesting on and on. `Reader` is their state in the
open: the session, and what is left of each file. One step reads one line or leaves a file, and it
crashes where a loop would be left with an error that nobody catches.

* `Reader.advance`: one step. `Reads`: a whole run with the number of its steps, to the end of all
  files or to a path that the system refuses to look up.
* `ReadsAs`: the machine reads what a reading has. `ReadsAs.andThen`: one part behind the other.
* `Simulates`: files below some depth are read as `SourceFile.readFile` has it, and a refused path
  is all that they may crash at. `simulates_readFile`: for every depth, by induction on the room
  that is left.
* `reads_read`: the machine reads a main file and everything it includes.
-/

namespace CPreprocessor

open Expansion Include

/-- Why a step cannot be taken. -/
inductive Crash where
  /-- A file is entered that may not be entered. -/
  | refused (fault : Fault)
  /-- A file is left while none is open. -/
  | empty
  /-- A literal without a quote is to be joined with another one. -/
  | literal
  /-- A path is to be looked up that the system refuses, behind these issues of its line. -/
  | overlong (raised : List Issue) (fault : Files.Overlong)
deriving DecidableEq

/-- The issues that a line has raised before the crash in it. -/
def Crash.raised : Crash → List Issue
  | overlong raised _ => raised
  | refused _ | empty | literal => []

/-- What is left of a file: its lines, the issue that stops the reading behind them, and the place
of its end. -/
structure Remainder where
  lines : List Line
  issue : Option Issue
  finish : Option Position
deriving DecidableEq

/-- A whole file. -/
def Remainder.ofSource (options : Options) (frame : Frame) (source : String) : Remainder :=
  let lexed := lex true options.trigraphs frame.filename source
  let lines := Lines.ofTokens lexed.tokens
  ⟨lines.lines, lexed.issue, lines.finish⟩

/-- The session, and what is left of the files that are being read, innermost first. -/
structure Reader where
  session : Session
  remainders : List Remainder
deriving DecidableEq

namespace Reader

/-- Enters a file. -/
def enter (options : Options) (reader : Reader) (frame : Frame) (source : String) :
    Except Crash Reader :=
  match reader.session.stack.push? frame with
  | .error fault => .error (.refused fault)
  | .ok stack =>
    .ok ⟨{ reader.session with stack }, .ofSource options frame source :: reader.remainders⟩

/-- Goes on behind a directive, in the file that it includes if it does. -/
def follow (options : Options) (reader : Reader) (outcome : Outcome) :
    Except Crash (List Item × Reader) :=
  let reader := { reader with session := outcome.session }
  let raised := outcome.raised.map Item.issue
  match outcome.result with
  | .error (.issue issue) => .ok (raised ++ [.issue issue], reader)
  | .error (.overlong fault) => .error (.overlong outcome.raised fault)
  | .ok none => .ok (raised, reader)
  | .ok (some included) =>
    (reader.enter options included.frame included.source).map fun inner => (raised, inner)

/-- Carries out a directive. -/
def direct (files : Files.Tree) (options : Options) (reader : Reader) (frame : Frame)
    (hash keyword : Token) (operands : List Token) : Except Crash (List Item × Reader) :=
  if Directive.Includes keyword ∧ !Directive.operandJoins reader.session.macros operands then
    .error .literal
  else
    reader.follow options
      (Directive.execute files options reader.session frame hash keyword operands)

/-- Reads one line in the session that has come to its end. -/
def readLine (files : Files.Tree) (options : Options) (reader : Reader) (tokens : List Token) :
    Except Crash (List Item × Reader) :=
  match tokens, reader.session.stack.top? with
  | hash :: operands, some frame =>
    if hash.kind = .directiveHash then
      match operands with
      | [] => .ok ([], reader)
      | keyword :: operands => reader.direct files options frame hash keyword operands
    else .ok ([.text reader.session tokens], reader)
  | _, _ => .ok ([.text reader.session tokens], reader)

/-- Leaves a file. Behind the main file its end comes out. -/
def leave (session : Session) (outer : List Remainder) : Except Crash (List Item × Reader) :=
  match session.stack.top? with
  | none => .error .empty
  | some frame =>
    let left := session.leave
    .ok (if outer.isEmpty then [.text left [.endOfFile frame.position]] else [], ⟨left, outer⟩)

/-- One step. -/
def advance (files : Files.Tree) (options : Options) (reader : Reader) :
    Except Crash (List Item × Reader) :=
  match reader.remainders with
  | [] => .ok ([], reader)
  | ⟨line :: lines, issue, finish⟩ :: outer =>
    readLine files options ⟨reader.session.moveTo line.stop, ⟨lines, issue, finish⟩ :: outer⟩
      line.tokens
  | ⟨[], issue, finish⟩ :: outer =>
    (leave (reader.session.reachEnd finish) outer).map fun left =>
      (issue.toList.map .issue ++ left.1, left.2)

end Reader

/-- The session with every file left. -/
def Session.leaveAll (session : Session) : Session :=
  { session with stack := { session.stack with frames := [] } }

/-- The machine comes to the end of all files, or to a path that the system refuses, after so many
steps, reads these items, and leaves that session. -/
inductive Reads (files : Files.Tree) (options : Options) :
    Reader → Nat → List Item → Session → Option Files.Overlong → Prop where
  | done (session : Session) : Reads files options ⟨session, []⟩ 0 [] session none
  | halt {reader : Reader} {raised : List Issue} {fault : Files.Overlong}
      (ho : reader.remainders ≠ [])
      (ha : reader.advance files options = .error (.overlong raised fault)) :
      Reads files options reader 1 (raised.map .issue) reader.session.leaveAll (some fault)
  | step {reader next : Reader} {items more : List Item} {steps : Nat} {final : Session}
      {halt : Option Files.Overlong} (ho : reader.remainders ≠ [])
      (ha : reader.advance files options = .ok (items, next))
      (h : Reads files options next steps more final halt) :
      Reads files options reader (steps + 1) (items ++ more) final halt

/-- The machine reads what the reading has: it goes on from the next state behind it, or it is
broken off where the reading is. -/
structure ReadsAs (files : Files.Tree) (options : Options) (start : Reader) (reading : Reading)
    (next : Reader) : Prop where
  goesOn : reading.halt = none → ∀ {steps : Nat} {more : List Item} {final : Session}
    {halt : Option Files.Overlong}, Reads files options next steps more final halt →
    ∃ steps, Reads files options start steps (reading.items ++ more) final halt
  halts : ∀ fault, reading.halt = some fault →
    ∃ steps, Reads files options start steps reading.items reading.session.leaveAll (some fault)

namespace ReadsAs

variable {files : Files.Tree} {options : Options} {start next last : Reader} {reading : Reading}

/-- Nothing is read yet. -/
theorem refl (reader : Reader) (session : Session) :
    ReadsAs files options reader ⟨[], session, none⟩ reader :=
  ⟨fun _ _ _ _ _ h => ⟨_, h⟩, nofun⟩

/-- A step in front. -/
theorem of_step {items : List Item} (ho : start.remainders ≠ [])
    (ha : start.advance files options = .ok (items, next))
    (h : ReadsAs files options next reading last) :
    ReadsAs files options start (reading.after items) last := by
  refine ⟨fun hn _ _ _ _ hr => ?_, fun fault hf => ?_⟩
  · obtain ⟨steps, hr⟩ := h.goesOn hn hr
    rw [Reading.after, List.append_assoc]
    exact ⟨steps + 1, .step ho ha hr⟩
  · obtain ⟨steps, hr⟩ := h.halts fault hf
    exact ⟨steps + 1, .step ho ha hr⟩

/-- What is read behind is read unless the machine is broken off before. -/
theorem andThen {more : Session → Reading} (h : ReadsAs files options start reading next)
    (hm : reading.halt = none → ReadsAs files options next (more reading.session) last) :
    ReadsAs files options start (reading.andThen more) last := by
  cases hh : reading.halt with
  | some fault =>
    rw [Reading.andThen_of_some hh]
    exact ⟨fun hn => absurd (hh.symm.trans hn) nofun, h.halts⟩
  | none =>
    obtain ⟨hgoesOn, hhalts⟩ := hm hh
    rw [Reading.andThen_of_none hh, Reading.after]
    refine ⟨fun hn _ _ _ _ hr => ?_, fun fault hf => ?_⟩
    · obtain ⟨steps, hr⟩ := hgoesOn hn hr
      rw [List.append_assoc]
      exact h.goesOn hh hr
    · obtain ⟨steps, hr⟩ := hhalts fault hf
      exact h.goesOn hh hr

/-- What is broken off is broken off in the including file as well. -/
theorem leave (h : ReadsAs files options start reading next) :
    ReadsAs files options start { reading with session := reading.session.leave } next :=
  ⟨h.goesOn, h.halts⟩

end ReadsAs

/-! ## Where it is broken off -/

namespace Reader

variable {files : Files.Tree} {options : Options} {reader : Reader} {raised : List Issue}
  {fault : Files.Overlong}

/-- Behind a directive the machine is broken off only if the directive is. -/
theorem outcome_of_follow {outcome : Outcome}
    (h : reader.follow options outcome = .error (.overlong raised fault)) :
    outcome.raised = raised ∧ outcome.result = .error (.overlong fault) := by
  obtain ⟨raised, session, result⟩ := outcome
  unfold follow at h
  match result with
  | .error (.issue issue) => contradiction
  | .error (.overlong found) =>
    obtain ⟨rfl, rfl⟩ := Crash.overlong.inj (Except.error.inj h)
    exact ⟨rfl, rfl⟩
  | .ok none => contradiction
  | .ok (some included) =>
    unfold enter at h
    dsimp only at h
    split at h
    · cases h
    · contradiction

/-- A line breaks the machine off only where the search for a header is. -/
theorem locate_of_readLine {tokens : List Token}
    (h : reader.readLine files options tokens = .error (.overlong raised fault)) :
    ∃ (reference : Reference) (directory : Option Files.Path),
      reference.locate files options directory = .error fault := by
  unfold readLine at h
  split at h
  · split at h
    · split at h
      · contradiction
      · unfold direct at h
        split at h
        · cases h
        · obtain ⟨-, hr⟩ := outcome_of_follow h
          obtain ⟨-, reference, -, hl⟩ := Directive.locate_of_overlong hr
          exact ⟨reference, _, hl⟩
    · contradiction
  · contradiction

/-- So does a step. -/
theorem locate_of_advance
    (h : reader.advance files options = .error (.overlong raised fault)) :
    ∃ (reference : Reference) (directory : Option Files.Path),
      reference.locate files options directory = .error fault := by
  obtain ⟨session, remainders⟩ := reader
  rcases remainders with _ | ⟨⟨_ | ⟨line, lines⟩, issue, finish⟩, outer⟩
  · contradiction
  · simp only [advance, leave] at h
    cases ht : (session.reachEnd finish).stack.top? <;> simp [ht, Except.map] at h
  · exact locate_of_readLine h

end Reader

/-- So does a whole run. -/
theorem Reads.locate {files : Files.Tree} {options : Options} {reader : Reader} {steps : Nat}
    {items : List Item} {final : Session} {halt : Option Files.Overlong}
    (h : Reads files options reader steps items final halt) : ∀ fault ∈ halt,
      ∃ (reference : Reference) (directory : Option Files.Path),
        reference.locate files options directory = .error fault := by
  induction h with
  | done => nofun
  | halt _ ha =>
    intro fault hm
    obtain rfl := Option.some.inj hm
    exact Reader.locate_of_advance ha
  | step _ _ _ ih => exact ih

/-! ## Ordinary items -/

/-- The property holds of the tokens of a text, and in the macros that it is expanded with. -/
def Item.Has (P : Token → Prop) : Item → Prop
  | text session tokens => session.macros.Has P ∧ ∀ token ∈ tokens, P token
  | issue _ => True

/-- All items are ordinary, and so are the bodies of the macros behind them. -/
structure Reading.Ordinary (reading : Reading) : Prop where
  items : ∀ item ∈ reading.items, item.Has Token.Ordinary
  macros : reading.session.macros.Has Token.Ordinary

theorem Reading.Ordinary.after {reading : Reading} (h : reading.Ordinary) {items : List Item}
    (hi : ∀ item ∈ items, item.Has Token.Ordinary) : (reading.after items).Ordinary := by
  refine ⟨fun item hm => ?_, h.macros⟩
  rcases List.mem_append.1 hm with hm | hm
  · exact hi item hm
  · exact h.items item hm

theorem Reading.Ordinary.andThen {reading : Reading} (h : reading.Ordinary)
    {next : Session → Reading} (hn : reading.halt = none → (next reading.session).Ordinary) :
    (reading.andThen next).Ordinary := by
  cases hh : reading.halt with
  | some fault =>
    rw [Reading.andThen_of_some hh]
    exact h
  | none =>
    rw [Reading.andThen_of_none hh]
    exact (hn hh).after h.items

theorem ordinary_issues (issues : List Issue) :
    ∀ item ∈ issues.map Item.issue, item.Has Token.Ordinary := by
  intro item hm
  obtain ⟨issue, -, rfl⟩ := List.mem_map.1 hm
  trivial

/-! ## The stack of open files -/

namespace Include.Stack

theorem push?_eq {stack : Stack} {frame : Frame} (h : stack.obstacle? frame.identity = none) :
    stack.push? frame = .ok (stack.push frame) := by
  rw [push?, h]

/-- How far reading has come in a file does not matter once it is left. -/
@[simp] theorem pop_moveTo (stack : Stack) (position : Position) :
    (stack.moveTo position).pop = stack.pop := by
  obtain ⟨limit, frames⟩ := stack
  cases frames <;> rfl

@[simp] theorem limit_moveTo (stack : Stack) (position : Position) :
    (stack.moveTo position).limit = stack.limit := by
  obtain ⟨limit, frames⟩ := stack
  cases frames <;> rfl

@[simp] theorem depth_moveTo (stack : Stack) (position : Position) :
    (stack.moveTo position).depth = stack.depth := by
  obtain ⟨limit, frames⟩ := stack
  cases frames <;> rfl

@[simp] theorem identities_moveTo (stack : Stack) (position : Position) :
    (stack.moveTo position).frames.map Frame.identity = stack.frames.map Frame.identity := by
  obtain ⟨limit, frames⟩ := stack
  cases frames <;> rfl

theorem top?_moveTo {stack : Stack} {frame : Frame} (h : stack.top? = some frame)
    (position : Position) : (stack.moveTo position).top? = some { frame with position } := by
  obtain ⟨limit, _ | ⟨top, below⟩⟩ := stack
  · contradiction
  · obtain rfl := Option.some.inj h
    rfl

theorem top?_isSome {stack : Stack} : stack.top?.isSome ↔ 0 < stack.depth := by
  obtain ⟨limit, frames⟩ := stack
  cases frames <;> simp [top?, depth]

/-- Where no file may be entered any more, there is an obstacle to each. -/
theorem depth_lt_of_obstacle? {stack : Stack} {identity : String}
    (h : stack.obstacle? identity = none) : stack.depth < stack.limit := by
  unfold obstacle? at h
  split at h
  · contradiction
  · split at h
    · contradiction
    · next hd => exact Nat.lt_of_not_le hd

end Include.Stack

@[simp] theorem Session.leaveAll_moveTo (session : Session) (position : Position) :
    (session.moveTo position).leaveAll = session.leaveAll :=
  congrArg (fun limit => { session with stack := ⟨limit, []⟩ })
    (Stack.limit_moveTo session.stack position)

/-! ## One line -/

variable {files : Files.Tree} {options : Options} {room : Nat} {enter : SourceFile.Enter}
  {session : Session}

/-- The machine reads a file below others as the reading has it: through ordinary tokens, and back
to the file that includes it. -/
structure Simulation (files : Files.Tree) (options : Options) (session : Session) (frame : Frame)
    (source : String) (reading : Reading) : Prop where
  ordinary : reading.Ordinary
  stack : ∃ place, reading.session.stack = session.stack.push { frame with position := place }
  reads : ∀ {outer : List Remainder}, outer ≠ [] → ReadsAs files options
    ⟨session.enter frame, .ofSource options frame source :: outer⟩ reading
    ⟨reading.session.leave, outer⟩

/-- The machine reads every file that may be entered as `enter` has it, if the macros are ordinary
and so many files may be open below the ones that are. -/
def Simulates (files : Files.Tree) (options : Options) (room : Nat) (enter : SourceFile.Enter) :
    Prop :=
  ∀ session frame source, session.macros.Has Token.Ordinary →
    session.stack.depth + room = session.stack.limit →
    session.stack.obstacle? frame.identity = none →
    Simulation files options session frame source (enter session frame source)

/-- The machine makes a step, whatever is left of the files, as the reading has it. -/
structure StepSimulation (files : Files.Tree) (options : Options) (session : Session)
    (made : List Remainder → Except Crash (List Item × Reader)) (reading : Reading) : Prop where
  ordinary : reading.Ordinary
  stack : reading.session.stack = session.stack
  reads : ∀ {start : Reader} {remainders : List Remainder}, remainders ≠ [] →
    start.remainders ≠ [] → start.session.leaveAll = session.leaveAll →
    start.advance files options = made remainders →
    ReadsAs files options start reading ⟨reading.session, remainders⟩

/-- A step that stays in the file. -/
theorem StepSimulation.of_eq {made : List Remainder → Except Crash (List Item × Reader)}
    {reading : Reading} (ho : reading.Ordinary) (hs : reading.session.stack = session.stack)
    (hn : reading.halt = none)
    (hm : ∀ remainders, made remainders = .ok (reading.items, ⟨reading.session, remainders⟩)) :
    StepSimulation files options session made reading := by
  refine ⟨ho, hs, fun {start remainders} _ hr _ ha => ?_⟩
  refine ⟨fun _ _ _ _ _ h => ⟨_, .step hr (ha.trans (hm remainders)) h⟩, fun fault hf => ?_⟩
  exact absurd (hn.symm.trans hf) nofun

/-- A step that is broken off. -/
theorem StepSimulation.of_overlong {made : List Remainder → Except Crash (List Item × Reader)}
    {raised : List Issue} {fault : Files.Overlong} {reading : Reading} (ho : reading.Ordinary)
    (hs : reading.session = session) (hi : reading.items = raised.map .issue)
    (hn : reading.halt = some fault)
    (hm : ∀ remainders, made remainders = .error (.overlong raised fault)) :
    StepSimulation files options session made reading := by
  refine ⟨ho, by rw [hs], fun {start remainders} _ hr hl ha => ?_⟩
  refine ⟨fun h => absurd (hn.symm.trans h) nofun, fun broken hf => ⟨1, ?_⟩⟩
  obtain rfl := Option.some.inj (hn.symm.trans hf)
  rw [hi, hs, ← hl]
  exact .halt hr (ha.trans (hm remainders))

theorem simulation_text (hm : session.macros.Has Token.Ordinary) {tokens : List Token}
    (ht : ∀ token ∈ tokens, token.Ordinary) :
    StepSimulation files options session
      (fun remainders => Reader.readLine files options ⟨session, remainders⟩ tokens)
      (SourceFile.readLine files options enter session tokens) := by
  have hn : ∀ hash ∈ tokens, hash.kind ≠ .directiveHash := fun hash hh hk => by
    have hkind := (ht hash hh).kind
    rw [hk] at hkind
    contradiction
  have hs : SourceFile.readLine files options enter session tokens =
      ⟨[.text session tokens], session, none⟩ := by
    unfold SourceFile.readLine
    cases tokens with
    | nil => rfl
    | cons hash operands =>
      cases session.stack.top? with
      | none => rfl
      | some frame => exact if_neg (hn hash List.mem_cons_self)
  have hr (remainders : List Remainder) :
      Reader.readLine files options ⟨session, remainders⟩ tokens =
        .ok ([.text session tokens], ⟨session, remainders⟩) := by
    unfold Reader.readLine
    cases tokens with
    | nil => rfl
    | cons hash operands =>
      dsimp only
      cases session.stack.top? with
      | none => rfl
      | some frame => exact if_neg (hn hash List.mem_cons_self)
  rw [hs]
  exact .of_eq ⟨List.forall_mem_singleton.2 ⟨hm, ht⟩, hm⟩ rfl rfl hr

/-- Behind a directive the machine goes on as the reading does. -/
theorem simulation_follow (he : Simulates files options room enter) {outcome : Outcome}
    {keyword : Token} {operands : List Token}
    (hf : Directive.Effect session keyword operands outcome)
    (hm : session.macros.Has Token.Ordinary)
    (ho : ¬Directive.Includes keyword → ∀ operand ∈ operands, operand.Ordinary)
    (hd : session.stack.depth + room = session.stack.limit) :
    StepSimulation files options session
      (fun remainders => Reader.follow options ⟨session, remainders⟩ outcome)
      ((SourceFile.follow enter outcome).raising outcome.raised) := by
  have hmacros := hf.has_macros hm ho
  have hstack := hf.stack
  have hobstacle : ∀ included, outcome.result = .ok (some included) →
      outcome.session.stack.obstacle? included.frame.identity = none := fun _ hr => hf.obstacle? hr
  have hstill : ∀ fault, outcome.result = .error (.overlong fault) → outcome.session = session :=
    fun _ hr => hf.session_of_overlong hr
  obtain ⟨raised, next, result⟩ := outcome
  have hraised := ordinary_issues raised
  have hi : raised.map Item.issue ++ [] = raised.map Item.issue := List.append_nil _
  match result with
  | .error (.issue issue) =>
    exact .of_eq (.after ⟨List.forall_mem_singleton.2 trivial, hmacros⟩ hraised) hstack rfl
      fun _ => rfl
  | .error (.overlong fault) =>
    exact .of_overlong (.after ⟨List.forall_mem_nil _, hmacros⟩ hraised) (hstill fault rfl) hi rfl
      fun _ => rfl
  | .ok none =>
    refine .of_eq (.after ⟨List.forall_mem_nil _, hmacros⟩ hraised) hstack rfl fun remainders => ?_
    exact congrArg (fun items => Except.ok (items, Reader.mk next remainders)) hi.symm
  | .ok (some included) =>
    have hdepth : next.stack.depth + room = next.stack.limit := by
      rw [hstack]
      exact hd
    obtain ⟨hin, ⟨place, hp⟩, hreads⟩ := he next included.frame included.source hmacros hdepth
      (hobstacle included rfl)
    have hpush := Stack.push?_eq (hobstacle included rfl)
    have hfollow : Reading.Ordinary
        (SourceFile.follow enter ⟨raised, next, .ok (some included)⟩) := ⟨hin.items, hin.macros⟩
    refine ⟨hfollow.after hraised, ?_, fun {start remainders} hne hr _ ha => ?_⟩
    · show Stack.pop _ = session.stack
      rw [hp, ← hstack]
      rfl
    · have hstep : start.advance files options = .ok (raised.map .issue,
          ⟨next.enter included.frame,
            .ofSource options included.frame included.source :: remainders⟩) := by
        rw [ha]
        simp only [Reader.follow, Reader.enter, hpush]
        rfl
      exact .of_step hr hstep (hreads hne).leave

/-- A directive with quoted operands is carried out without a crash. -/
theorem Reader.direct_of_quoted {operands : List Token} (hm : session.macros.Has Token.Ordinary)
    (hq : ∀ operand ∈ operands, operand.Quoted) (remainders : List Remainder) (frame : Frame)
    (hash keyword : Token) :
    Reader.direct files options ⟨session, remainders⟩ frame hash keyword operands =
      Reader.follow options ⟨session, remainders⟩
        (Directive.execute files options session frame hash keyword operands) := by
  have hj : ¬(Directive.Includes keyword ∧ !Directive.operandJoins session.macros operands) := by
    rw [Directive.operandJoins_of_quoted hm hq]
    simp
  rw [Reader.direct, if_neg hj]

/-- A proper line is read by the machine as the reading has it. -/
theorem simulates_readLine (he : Simulates files options room enter) {tokens : List Token}
    (hp : ProperLine tokens) (hm : session.macros.Has Token.Ordinary)
    (hd : session.stack.depth + room = session.stack.limit)
    {frame : Frame} (ht : session.stack.top? = some frame) :
    StepSimulation files options session
      (fun remainders => Reader.readLine files options ⟨session, remainders⟩ tokens)
      (SourceFile.readLine files options enter session tokens) := by
  cases hp with
  | text h => exact simulation_text hm h
  | @null hash hk =>
    have hs : SourceFile.readLine files options enter session [hash] = ⟨[], session, none⟩ := by
      simp only [SourceFile.readLine, ht, if_pos hk]
    rw [hs]
    refine .of_eq ⟨List.forall_mem_nil _, hm⟩ rfl rfl fun remainders => ?_
    simp only [Reader.readLine, ht, if_pos hk]
  | @directive hash keyword operands hk hq ho =>
    simp only [SourceFile.readLine, Reader.readLine, ht, if_pos hk]
    simp only [Reader.direct_of_quoted hm hq]
    exact simulation_follow he Directive.effect_execute hm ho hd

/-! ## Whole files -/

/-- The machine reads the lines that are left of a file as the reading has it. -/
structure LinesSimulation (files : Files.Tree) (options : Options) (session : Session)
    (frame : Frame) (under : Stack) (lines : List Line) (reading : Reading) : Prop where
  ordinary : reading.Ordinary
  stack : ∃ place, reading.session.stack = under.push { frame with position := place }
  reads : ∀ (issue : Option Issue) (finish : Option Position) (outer : List Remainder),
    ReadsAs files options ⟨session, ⟨lines, issue, finish⟩ :: outer⟩ reading
      ⟨reading.session, ⟨[], issue, finish⟩ :: outer⟩

theorem simulates_readLines (he : Simulates files options room enter) {frame : Frame}
    {under : Stack} {lines : List Line} (hp : ∀ line ∈ lines, ProperLine line.tokens)
    (hm : session.macros.Has Token.Ordinary) (hd : under.depth + 1 + room = under.limit)
    {place : Position} (hs : session.stack = under.push { frame with position := place }) :
    LinesSimulation files options session frame under lines
      (SourceFile.readLines files options enter session lines) := by
  induction lines generalizing session place with
  | nil => exact ⟨⟨List.forall_mem_nil _, hm⟩, ⟨place, hs⟩, fun _ _ _ => .refl _ _⟩
  | cons line rest ih =>
    obtain ⟨hline, hrest⟩ := List.forall_mem_cons.1 hp
    have hmoved : (session.moveTo line.stop).stack =
        under.push { frame with position := line.stop } := by
      rw [Session.moveTo, hs]
      rfl
    have hmm : (session.moveTo line.stop).macros.Has Token.Ordinary := hm
    obtain ⟨ho, hstack, hreads⟩ := simulates_readLine he hline hmm (by rw [hmoved]; exact hd)
      (by rw [hmoved]; rfl)
    have hr := ih hrest ho.macros (hstack.trans hmoved)
    rw [SourceFile.readLines]
    refine ⟨ho.andThen fun _ => hr.ordinary, ?_, fun issue finish outer => ?_⟩
    · cases hh : (SourceFile.readLine files options enter (session.moveTo line.stop)
        line.tokens).halt with
      | some fault =>
        rw [Reading.andThen_of_some hh]
        exact ⟨line.stop, hstack.trans hmoved⟩
      | none =>
        rw [Reading.andThen_of_none hh]
        exact hr.stack
    · refine (hreads (List.cons_ne_nil _ _) (List.cons_ne_nil _ _)
        (Session.leaveAll_moveTo session line.stop).symm rfl).andThen fun hn => ?_
      rw [Reading.andThen_of_none hn]
      exact hr.reads issue finish outer

theorem simulates_readFile_zero :
    Simulates files options 0 (SourceFile.readFile files options 0) := by
  intro session frame source _ hd ho
  have hl := Stack.depth_lt_of_obstacle? ho
  omega

theorem Session.stack_reachEnd {under : Stack} {frame : Frame} {place : Position}
    (hs : session.stack = under.push { frame with position := place }) (finish : Option Position) :
    ∃ place,
      (session.reachEnd finish).stack = under.push { frame with position := place } := by
  cases finish with
  | none => exact ⟨place, hs⟩
  | some position =>
    refine ⟨position, ?_⟩
    rw [reachEnd, moveTo, hs]
    rfl

@[simp] theorem Session.leave_reachEnd (session : Session) (finish : Option Position) :
    (session.reachEnd finish).leave = session.leave := by
  cases finish with
  | none => rfl
  | some place => exact congrArg (fun stack => { session with stack }) (Stack.pop_moveTo _ place)

@[simp] theorem Session.macros_reachEnd (session : Session) (finish : Option Position) :
    (session.reachEnd finish).macros = session.macros := by
  cases finish <;> rfl

/-- Behind its last line the machine leaves a file. -/
theorem Reader.advance_end (files : Files.Tree) (options : Options) {under : Stack} {frame : Frame}
    {finish : Option Position} (hs : (session.reachEnd finish).stack = under.push frame)
    (issue : Option Issue) (outer : List Remainder) :
    Reader.advance files options ⟨session, ⟨[], issue, finish⟩ :: outer⟩ =
      .ok (issue.toList.map .issue ++ (if outer.isEmpty then
          [.text (session.reachEnd finish).leave [.endOfFile frame.position]] else []),
        ⟨(session.reachEnd finish).leave, outer⟩) := by
  have ht : (session.reachEnd finish).stack.top? = some frame := by
    rw [hs]
    rfl
  simp only [Reader.advance, Reader.leave, ht]
  rfl

/-- Behind an included file reading goes on in the including one. -/
theorem ReadsAs.of_leave {under : Stack} {frame : Frame} {finish : Option Position}
    (hs : (session.reachEnd finish).stack = under.push frame) (issue : Option Issue)
    {outer : List Remainder} (ho : outer ≠ []) :
    ReadsAs files options ⟨session, ⟨[], issue, finish⟩ :: outer⟩
      ⟨issue.toList.map .issue, session.reachEnd finish, none⟩
      ⟨(session.reachEnd finish).leave, outer⟩ := by
  have ha := Reader.advance_end files options hs issue outer
  rw [List.isEmpty_eq_false_iff.2 ho, if_neg Bool.false_ne_true, List.append_nil] at ha
  exact ⟨fun _ _ _ _ _ h => ⟨_, .step (List.cons_ne_nil _ _) ha h⟩, nofun⟩

/-- Behind the main file its end is read, and nothing else. -/
theorem Reads.of_end (files : Files.Tree) (options : Options) {under : Stack} {frame : Frame}
    {finish : Option Position} (hs : (session.reachEnd finish).stack = under.push frame)
    (issue : Option Issue) :
    Reads files options ⟨session, [⟨[], issue, finish⟩]⟩ 1
      (issue.toList.map .issue ++
        [.text (session.reachEnd finish).leave [.endOfFile frame.position]])
      (session.reachEnd finish).leave none := by
  have ha := Reader.advance_end files options hs issue []
  have hr := Reads.step (List.cons_ne_nil _ _) ha (.done _)
  rwa [List.append_nil] at hr

theorem readFile_succ (files : Files.Tree) (options : Options) (room : Nat) (session : Session)
    (frame : Frame) (source : String) :
    SourceFile.readFile files options (room + 1) session frame source =
      let whole := Remainder.ofSource options frame source
      (SourceFile.readLines files options (SourceFile.readFile files options room)
        (session.enter frame) whole.lines).andThen fun session =>
        ⟨whole.issue.toList.map .issue, session.reachEnd whole.finish, none⟩ := rfl

/-- The machine reads the lines of a file that may be entered if it can read those below it. -/
theorem simulates_file (he : Simulates files options room enter) (frame : Frame) (source : String)
    (hm : session.macros.Has Token.Ordinary)
    (hd : session.stack.depth + 1 + room = session.stack.limit) :
    let whole := Remainder.ofSource options frame source
    LinesSimulation files options (session.enter frame) frame session.stack whole.lines
      (SourceFile.readLines files options enter (session.enter frame) whole.lines) :=
  simulates_readLines he (proper_ofTokens options.trigraphs frame.filename source) hm hd rfl

/-- The machine reads every file that may be entered, whatever is included in it. -/
theorem simulates_readFile (files : Files.Tree) (options : Options) (room : Nat) :
    Simulates files options room (SourceFile.readFile files options room) := by
  induction room with
  | zero => exact simulates_readFile_zero
  | succ room ih =>
    intro session frame source hm hd _
    obtain ⟨hor, ⟨place, hs⟩, hreads⟩ := simulates_file ih frame source hm (by omega)
    obtain ⟨last, hend⟩ :=
      Session.stack_reachEnd hs (Remainder.ofSource options frame source).finish
    rw [readFile_succ]
    refine ⟨hor.andThen fun _ => ⟨ordinary_issues _, ?_⟩, ?_, fun ho => ?_⟩
    · rw [Session.macros_reachEnd]
      exact hor.macros
    · cases hh : (SourceFile.readLines files options (SourceFile.readFile files options room)
        (session.enter frame) (Remainder.ofSource options frame source).lines).halt with
      | some fault =>
        rw [Reading.andThen_of_some hh]
        exact ⟨place, hs⟩
      | none =>
        rw [Reading.andThen_of_none hh]
        exact ⟨last, hend⟩
    · refine (hreads _ _ _).andThen fun hn => ?_
      rw [Reading.andThen_of_none hn]
      exact .of_leave hend _ ho

/-- Where the reading of a main file ends: behind its end with no file open, or where it is broken
off. -/
structure EndsMain (options : Options) (reading : Reading) : Prop where
  stack : reading.session.stack = .empty options.depthLimit
  macros : reading.session.macros.Has Token.Ordinary
  whole : reading.halt = none →
    ∃ front stop, reading.items = front ++ [.text reading.session [.endOfFile stop]] ∧
      ∀ item ∈ front, item.Has Token.Ordinary
  broken : ∀ fault, reading.halt = some fault → ∀ item ∈ reading.items, item.Has Token.Ordinary

theorem Item.Has.quoted {item : Item} (h : item.Has Token.Ordinary) : item.Has Token.Quoted := by
  cases item with
  | text session tokens =>
    exact ⟨fun definition hd token ht => (h.1 definition hd token ht).quoted,
      fun token ht => (h.2 token ht).quoted⟩
  | issue raised => trivial

/-- All literals that are read have quotes. -/
theorem EndsMain.quoted {reading : Reading} (h : EndsMain options reading) :
    ∀ item ∈ reading.items, item.Has Token.Quoted := by
  intro item hm
  cases hh : reading.halt with
  | some fault => exact (h.broken fault hh item hm).quoted
  | none =>
    obtain ⟨front, stop, hitems, hf⟩ := h.whole hh
    rw [hitems] at hm
    rcases List.mem_append.1 hm with hm | hm
    · exact (hf item hm).quoted
    · rw [List.mem_singleton.1 hm]
      refine ⟨fun definition hd token ht => (h.macros definition hd token ht).quoted, ?_⟩
      exact List.forall_mem_singleton.2 nofun

/-- A run starts with the macros of its options and nothing else. -/
theorem ready_of_initial (h : Session.initial options = .ok session) :
    session.macros.Has Token.Ordinary ∧
      session = { macros := session.macros, stack := .empty options.depthLimit } := by
  unfold Session.initial at h
  cases hm : Macro.Table.initial options.defines options.undefines with
  | error issue =>
    rw [hm] at h
    contradiction
  | ok macros =>
    rw [hm] at h
    obtain rfl := Except.ok.inj h
    exact ⟨Macro.Table.has_initial hm, rfl⟩

namespace LinesSimulation

variable {frame : Frame} {lines : List Line} {body : Reading} {issue : Option Issue}
  {finish : Option Position}

/-- A main file that is broken off in its lines is left with the files above it. -/
theorem endsMain_of_broken
    (h : LinesSimulation files options (session.enter frame) frame session.stack lines body)
    (hs : session.stack = .empty options.depthLimit) {fault : Files.Overlong}
    (hb : body.halt = some fault) :
    let reading : Reading := { body with session := body.session.leave }
    EndsMain options reading ∧
      ∃ steps, Reads files options ⟨session.enter frame, [⟨lines, issue, finish⟩]⟩ steps
        reading.items reading.session reading.halt := by
  obtain ⟨place, hstack⟩ := h.stack
  have hleft : body.session.leave.stack = .empty options.depthLimit := by
    show Stack.pop _ = _
    rw [hstack]
    exact hs
  have hall : body.session.leaveAll = body.session.leave := by
    unfold Session.leaveAll Session.leave Stack.pop
    rw [hstack, hs]
    rfl
  obtain ⟨steps, hread⟩ := (h.reads issue finish []).halts fault hb
  rw [hall, ← hb] at hread
  exact ⟨⟨hleft, h.ordinary.macros, fun hn => absurd (hb.symm.trans hn) nofun,
    fun _ _ => h.ordinary.items⟩, steps, hread⟩

/-- Behind the lines of a main file come its issue and its end. -/
theorem endsMain_of_whole
    (h : LinesSimulation files options (session.enter frame) frame session.stack lines body)
    (hs : session.stack = .empty options.depthLimit) (hb : body.halt = none) :
    let final := body.session.reachEnd finish
    let reading : Reading :=
      ⟨body.items ++ issue.toList.map .issue ++
        [.text final.leave [.endOfFile (SourceFile.reached final frame)]], final.leave, none⟩
    EndsMain options reading ∧
      ∃ steps, Reads files options ⟨session.enter frame, [⟨lines, issue, finish⟩]⟩ steps
        reading.items reading.session reading.halt := by
  intro final reading
  obtain ⟨place, hstack⟩ := h.stack
  obtain ⟨last, hend⟩ := Session.stack_reachEnd hstack finish
  have hreached : SourceFile.reached final frame = last := by
    unfold SourceFile.reached
    rw [hend]
    rfl
  have hleft : final.leave.stack = .empty options.depthLimit := by
    show Stack.pop _ = _
    rw [hend]
    exact hs
  have hmacros : final.leave.macros.Has Token.Ordinary := by
    show final.macros.Has Token.Ordinary
    rw [Session.macros_reachEnd]
    exact h.ordinary.macros
  obtain ⟨steps, hread⟩ := (h.reads issue finish []).goesOn hb
    (Reads.of_end files options hend issue)
  rw [← List.append_assoc, ← hreached] at hread
  refine ⟨⟨hleft, hmacros, fun _ => ⟨_, _, rfl, fun item hi => ?_⟩, nofun⟩, steps, hread⟩
  rcases List.mem_append.1 hi with hi | hi
  · exact h.ordinary.items item hi
  · exact ordinary_issues _ item hi

end LinesSimulation

/-- The machine reads a main file and everything it includes, to the end or to a path that the
system refuses. -/
theorem reads_read (files : Files.Tree) (options : Options) (hm : session.macros.Has Token.Ordinary)
    (hs : session.stack = .empty options.depthLimit) (frame : Frame) (source : String) :
    let reading := SourceFile.read files options session frame source
    EndsMain options reading ∧
      ∃ reader steps, Reader.enter options ⟨session, []⟩ frame source = .ok reader ∧
        Reads files options reader steps reading.items reading.session reading.halt := by
  obtain ⟨room, hroom⟩ := Nat.exists_eq_add_one.2 options.depthLimit_pos
  have hd : session.stack.depth + 1 + room = session.stack.limit := by
    rw [hs]
    simp only [Stack.empty, Stack.depth, List.length_nil]
    omega
  have hpush : session.stack.push? frame = .ok (session.stack.push frame) := by
    refine Stack.push?_eq ?_
    rw [hs]
    simp [Stack.obstacle?, Stack.contains, Stack.empty, Stack.depth, hroom]
  have henter : Reader.enter options ⟨session, []⟩ frame source =
      .ok ⟨session.enter frame, [.ofSource options frame source]⟩ := by
    simp only [Reader.enter, hpush]
    rfl
  have hlines := simulates_file (simulates_readFile files options room) frame source hm hd
  unfold SourceFile.read
  rw [hroom, readFile_succ]
  dsimp only at hlines ⊢
  generalize Remainder.ofSource options frame source = whole at *
  generalize SourceFile.readLines files options (SourceFile.readFile files options room)
    (session.enter frame) whole.lines = body at *
  cases hb : body.halt with
  | some fault =>
    have hleft : ({ body with session := body.session.leave } : Reading).halt = some fault := hb
    rw [Reading.andThen_of_some hb, Reading.andThen_of_some hleft]
    obtain ⟨hends, steps, hread⟩ := hlines.endsMain_of_broken hs hb
    exact ⟨hends, _, steps, henter, hread⟩
  | none =>
    rw [Reading.andThen_of_none hb, Reading.andThen_of_none rfl]
    obtain ⟨hends, steps, hread⟩ := hlines.endsMain_of_whole hs hb
    exact ⟨hends, _, steps, henter, hread⟩

end CPreprocessor

import CPreprocessor.Proofs.Inclusion
import CPreprocessor.Proofs.Pipeline
import Mathlib.Logic.Relation

/-!
# The moments of a session

Main files are read one after the other, and each of them may include others. A session is followed
here from line to line through all of them.

* `Moment.Goes`: from one moment to the next one, by the entry of a main file or by one step of the
  reader. `Moment.Later`: any number of times.
* `Advances`: what one step of the reader can do. `advances_advance`: it does one of these things.
* `Reader.Sound`: macros and lines are ordinary, and there is one open file for each that is left to
  be read. `sound_of_later`: at every moment. `Reader.Sound.advance`: the reader can go on then,
  unless a path is to be looked up that the system refuses.
* `once_of_later`: a file that is read only once stays so.
-/

namespace CPreprocessor

open Expansion Include Inclusion

variable {files : Files.Tree} {options : Options} {session next : Session}

/-! ## One step of the reader -/

/-- What a step of the reader can do. -/
inductive Advances (files : Files.Tree) (options : Options) : Reader → Reader → Prop where
  /-- It reads a line that opens no file. -/
  | line {session next : Session} {line : Line} {lines : List Line} {issue : Option Issue}
      {finish : Option Position} {outer : List Remainder}
      (hs : next.stack = session.stack.moveTo line.stop)
      (hm : ProperLine line.tokens → session.macros.Has Token.Ordinary →
        next.macros.Has Token.Ordinary)
      (ho : session.once ⊆ next.once) :
      Advances files options ⟨session, ⟨line :: lines, issue, finish⟩ :: outer⟩
        ⟨next, ⟨lines, issue, finish⟩ :: outer⟩
  /-- It reads a line that includes a file, and enters the file. -/
  | included {session next : Session} {line : Line} {lines : List Line} {issue : Option Issue}
      {finish : Option Position} {outer : List Remainder} {included : Included}
      (hi : line.isInclude)
      (hopen : opened? files options (session.moveTo line.stop) line.tokens = some included)
      (hb : (session.stack.moveTo line.stop).obstacle? included.frame.identity = none)
      (hs : next.stack = (session.stack.moveTo line.stop).push included.frame)
      (hm : next.macros = session.macros) (ho : session.once ⊆ next.once) :
      Advances files options ⟨session, ⟨line :: lines, issue, finish⟩ :: outer⟩
        ⟨next, .ofSource options included.frame included.source ::
          ⟨lines, issue, finish⟩ :: outer⟩
  /-- It leaves a file. -/
  | left (session : Session) (issue : Option Issue) (finish : Option Position)
      (outer : List Remainder) :
      Advances files options ⟨session, ⟨[], issue, finish⟩ :: outer⟩
        ⟨(session.reachEnd finish).leave, outer⟩

/-- Behind a directive that opens no file the reader stays in the file. -/
theorem Reader.follow_of_stays {remainders : List Remainder} {outcome : Outcome}
    (h : ∀ included, outcome.result ≠ .ok (some included)) {items : List Item} {reader : Reader}
    (hf : Reader.follow options ⟨session, remainders⟩ outcome = .ok (items, reader)) :
    reader = ⟨outcome.session, remainders⟩ := by
  obtain ⟨raised, after, result⟩ := outcome
  match result with
  | .error (.issue issue) =>
    obtain ⟨-, rfl⟩ := Prod.mk.inj (Except.ok.inj hf)
    rfl
  | .error (.overlong fault) => contradiction
  | .ok none =>
    obtain ⟨-, rfl⟩ := Prod.mk.inj (Except.ok.inj hf)
    rfl
  | .ok (some included) => exact absurd rfl (h included)

/-- Behind a directive that opens a file the reader is in that file. -/
theorem Reader.follow_of_opened {remainders : List Remainder} {outcome : Outcome}
    {included : Included} (hr : outcome.result = .ok (some included))
    (hb : outcome.session.stack.obstacle? included.frame.identity = none) :
    Reader.follow options ⟨session, remainders⟩ outcome =
      .ok (outcome.raised.map .issue, ⟨outcome.session.enter included.frame,
        .ofSource options included.frame included.source :: remainders⟩) := by
  obtain ⟨raised, after, result⟩ := outcome
  subst hr
  simp only [Reader.follow, Reader.enter, Stack.push?_eq hb]
  rfl

theorem Line.isInclude_iff {line : Line} {hash keyword : Token} {operands : List Token}
    (ht : line.tokens = hash :: keyword :: operands) (hk : hash.kind = .directiveHash) :
    line.isInclude ↔ Directive.Includes keyword := by
  simp [Line.isInclude, Directive.Includes, ht, hk]

/-- Only an include opens a file. -/
theorem Directive.Effect.includes {keyword : Token} {operands : List Token} {outcome : Outcome}
    (h : Effect session keyword operands outcome) {included : Included}
    (hr : outcome.result = .ok (some included)) :
    Includes keyword ∧ outcome.session.macros = session.macros := by
  cases h with
  | including hi => exact ⟨hi, rfl⟩
  | failing => cases hr
  | defining => cases hr
  | erasing => cases hr
  | recording => cases hr

/-- A directive is carried out as one of the steps. -/
theorem advances_direct {line : Line} {lines : List Line} {issue : Option Issue}
    {finish : Option Position} {outer : List Remainder} {frame : Frame} {hash keyword : Token}
    {operands : List Token} (ht : line.tokens = hash :: keyword :: operands)
    (hk : hash.kind = .directiveHash)
    (htop : (session.moveTo line.stop).stack.top? = some frame) {items : List Item}
    {reader : Reader}
    (ha : Reader.direct files options ⟨session.moveTo line.stop, ⟨lines, issue, finish⟩ :: outer⟩
      frame hash keyword operands = .ok (items, reader)) :
    Advances files options ⟨session, ⟨line :: lines, issue, finish⟩ :: outer⟩ reader := by
  unfold Reader.direct at ha
  split at ha
  · contradiction
  have he : Directive.Effect (session.moveTo line.stop) keyword operands
      (Directive.execute files options (session.moveTo line.stop) frame hash keyword operands) :=
    Directive.effect_execute
  have hopened : ∀ included, (Directive.execute files options (session.moveTo line.stop) frame hash
      keyword operands).result = .ok (some included) →
      opened? files options (session.moveTo line.stop) line.tokens = some included := by
    intro included hr
    simp only [opened?, ht, htop, if_pos hk, hr]
  dsimp only at ha
  generalize Directive.execute files options (session.moveTo line.stop) frame hash keyword
    operands = outcome at ha he hopened
  by_cases hr : ∃ included, outcome.result = .ok (some included)
  · obtain ⟨included, hr⟩ := hr
    have hb := he.obstacle? hr
    rw [Reader.follow_of_opened hr hb] at ha
    obtain ⟨-, rfl⟩ := Prod.mk.inj (Except.ok.inj ha)
    obtain ⟨hi, hm⟩ := he.includes hr
    rw [he.stack] at hb
    exact .included ((Line.isInclude_iff ht hk).2 hi) (hopened included hr) hb
      (congrArg (Stack.push · included.frame) he.stack) hm he.once
  · obtain rfl := Reader.follow_of_stays (fun included h => hr ⟨included, h⟩) ha
    refine .line he.stack (fun hp hm => ?_) he.once
    rw [ht] at hp
    exact he.has_macros hm (hp.operands hk).2

/-- A step of the reader is one of these. -/
theorem advances_advance {reader after : Reader} (ho : reader.remainders ≠ []) {items : List Item}
    (ha : reader.advance files options = .ok (items, after)) :
    Advances files options reader after := by
  obtain ⟨session, _ | ⟨⟨lines, issue, finish⟩, outer⟩⟩ := reader
  · contradiction
  cases lines with
  | nil =>
    simp only [Reader.advance, Reader.leave] at ha
    split at ha
    · contradiction
    · obtain ⟨-, rfl⟩ := Prod.mk.inj (Except.ok.inj ha)
      exact .left session issue finish outer
  | cons line lines =>
    have hstay : ∀ {made : Reader},
        made = ⟨session.moveTo line.stop, ⟨lines, issue, finish⟩ :: outer⟩ →
        Advances files options ⟨session, ⟨line :: lines, issue, finish⟩ :: outer⟩ made := by
      rintro _ rfl
      exact .line rfl (fun _ hm => hm) (List.Subset.refl _)
    simp only [Reader.advance] at ha
    unfold Reader.readLine at ha
    split at ha
    · next hash operands frame ht htop =>
      split at ha
      · next hk =>
        split at ha
        · exact hstay (Prod.mk.inj (Except.ok.inj ha)).2.symm
        · exact advances_direct ht hk htop ha
      · exact hstay (Prod.mk.inj (Except.ok.inj ha)).2.symm
    · exact hstay (Prod.mk.inj (Except.ok.inj ha)).2.symm

/-! ## Readers that can go on -/

/-- A fact about the stack that its place does not touch holds at the end of a file. -/
theorem Session.stack_reachEnd_eq (session : Session) (finish : Option Position) :
    (session.reachEnd finish).stack = session.stack ∨
      ∃ place, (session.reachEnd finish).stack = session.stack.moveTo place := by
  cases finish with
  | none => exact .inl rfl
  | some place => exact .inr ⟨place, rfl⟩

/-- The macros and the lines that are left are ordinary, and there is one open file for each that is
left to be read. -/
structure Reader.Sound (options : Options) (reader : Reader) : Prop where
  macros : reader.session.macros.Has Token.Ordinary
  limit : reader.session.stack.limit = options.depthLimit
  depth : reader.session.stack.depth = reader.remainders.length
  proper : ∀ remainder ∈ reader.remainders, ∀ line ∈ remainder.lines, ProperLine line.tokens

theorem proper_ofSource (options : Options) (frame : Frame) (source : String) :
    ∀ line ∈ (Remainder.ofSource options frame source).lines, ProperLine line.tokens :=
  proper_ofTokens options.trigraphs frame.filename source

/-- A step keeps a reader sound. -/
theorem Advances.sound {reader after : Reader} (h : Advances files options reader after)
    (hs : reader.Sound options) : after.Sound options := by
  obtain ⟨hmacros, hlimit, hdepth, hproper⟩ := hs
  cases h with
  | line hstack hm =>
    obtain ⟨hlines, houter⟩ := List.forall_mem_cons.1 hproper
    obtain ⟨hline, hrest⟩ := List.forall_mem_cons.1 hlines
    refine ⟨hm hline hmacros, ?_, ?_, List.forall_mem_cons.2 ⟨hrest, houter⟩⟩
    · rw [hstack, Stack.limit_moveTo]
      exact hlimit
    · rw [hstack, Stack.depth_moveTo]
      exact hdepth
  | included _ _ _ hstack hm =>
    obtain ⟨hlines, houter⟩ := List.forall_mem_cons.1 hproper
    obtain ⟨-, hrest⟩ := List.forall_mem_cons.1 hlines
    refine ⟨hm ▸ hmacros, ?_, ?_, List.forall_mem_cons.2 ⟨proper_ofSource _ _ _,
      List.forall_mem_cons.2 ⟨hrest, houter⟩⟩⟩
    · rw [hstack]
      exact (Stack.limit_moveTo _ _).trans hlimit
    · rw [hstack]
      exact congrArg (· + 1) ((Stack.depth_moveTo _ _).trans hdepth)
  | left session issue finish outer =>
    obtain ⟨-, houter⟩ := List.forall_mem_cons.1 hproper
    have hend : (session.reachEnd finish).stack.limit = options.depthLimit ∧
        (session.reachEnd finish).stack.depth = outer.length + 1 := by
      rcases Session.stack_reachEnd_eq session finish with h | ⟨place, h⟩
      · exact h ▸ ⟨hlimit, hdepth⟩
      · rw [h, Stack.limit_moveTo, Stack.depth_moveTo]
        exact ⟨hlimit, hdepth⟩
    refine ⟨(Session.macros_reachEnd session finish).symm ▸ hmacros, hend.1, ?_, houter⟩
    exact List.length_tail.trans (congrArg Nat.pred hend.2)

/-- A step forgets no file that is read only once. -/
theorem Advances.once {reader after : Reader} (h : Advances files options reader after) :
    reader.session.once ⊆ after.session.once := by
  cases h with
  | line _ _ ho => exact ho
  | included _ _ _ _ _ ho => exact ho
  | left session issue finish outer =>
    cases finish with
    | none => exact List.Subset.refl _
    | some place => exact List.Subset.refl _

/-- What a step comes to unless something is wrong with the reader itself: it goes on, or it is
broken off at a path that the system refuses. -/
inductive GoesOn : Except Crash (List Item × Reader) → Prop where
  | step (items : List Item) (after : Reader) : GoesOn (.ok (items, after))
  | broken (raised : List Issue) (fault : Files.Overlong) : GoesOn (.error (.overlong raised fault))

/-- Behind a directive the reader goes on. -/
theorem Directive.Effect.follow {keyword : Token} {operands : List Token} {outcome : Outcome}
    (h : Effect session keyword operands outcome) (remainders : List Remainder) :
    GoesOn (Reader.follow options ⟨next, remainders⟩ outcome) := by
  match hr : outcome.result with
  | .error (.issue issue) =>
    simp only [Reader.follow, hr]
    exact .step _ _
  | .error (.overlong fault) =>
    simp only [Reader.follow, hr]
    exact .broken _ fault
  | .ok none =>
    simp only [Reader.follow, hr]
    exact .step _ _
  | .ok (some included) =>
    rw [Reader.follow_of_opened hr (h.obstacle? hr)]
    exact .step _ _

/-- A proper line is read so. -/
theorem Reader.goesOn_readLine {tokens : List Token} (hp : ProperLine tokens)
    (hm : session.macros.Has Token.Ordinary) (remainders : List Remainder) :
    GoesOn (Reader.readLine files options ⟨session, remainders⟩ tokens) := by
  unfold Reader.readLine
  split
  · next hash rest frame htop =>
    split
    · next hk =>
      split
      · exact .step _ _
      · next keyword operands =>
        rw [Reader.direct_of_quoted hm (hp.operands hk).1]
        exact Directive.effect_execute.follow remainders
    · exact .step _ _
  · exact .step _ _

/-- A sound reader can go on as long as something is left. -/
theorem Reader.Sound.advance {reader : Reader} (h : reader.Sound options)
    (ho : reader.remainders ≠ []) (files : Files.Tree) :
    GoesOn (reader.advance files options) := by
  obtain ⟨session, _ | ⟨⟨lines, issue, finish⟩, outer⟩⟩ := reader
  · contradiction
  obtain ⟨hmacros, -, hdepth, hproper⟩ := h
  cases lines with
  | cons line lines =>
    obtain ⟨hlines, -⟩ := List.forall_mem_cons.1 hproper
    have hline : ProperLine line.tokens := (List.forall_mem_cons.1 hlines).1
    have hmoved : (session.moveTo line.stop).macros.Has Token.Ordinary := hmacros
    exact Reader.goesOn_readLine hline hmoved _
  | nil =>
    have htop : (session.reachEnd finish).stack.top?.isSome := by
      rw [Stack.top?_isSome]
      rcases Session.stack_reachEnd_eq session finish with h | ⟨place, h⟩
      · rw [h, hdepth]
        exact Nat.succ_pos _
      · rw [h, Stack.depth_moveTo, hdepth]
        exact Nat.succ_pos _
    obtain ⟨frame, htop⟩ := Option.isSome_iff_exists.1 htop
    simp only [Reader.advance, Reader.leave, htop]
    exact .step _ _

/-- A main file can be entered where nothing is left of the one before. -/
theorem Reader.Sound.enter {reader : Reader} (h : reader.Sound options)
    (ho : reader.remainders = []) (frame : Frame) (source : String) :
    reader.session.stack = .empty options.depthLimit ∧
      Reader.enter options reader frame source =
        .ok ⟨reader.session.enter frame, [.ofSource options frame source]⟩ := by
  obtain ⟨session, remainders⟩ := reader
  obtain rfl : remainders = [] := ho
  have hstack : session.stack = .empty options.depthLimit := by
    obtain ⟨macros, ⟨limit, frames⟩⟩ := session
    obtain rfl : limit = options.depthLimit := h.limit
    obtain rfl : frames = [] := List.length_eq_zero_iff.1 h.depth
    rfl
  have hb : session.stack.obstacle? frame.identity = none := by
    have hp := options.depthLimit_pos
    rw [hstack]
    simp [Stack.obstacle?, Stack.contains, Stack.empty, Stack.depth, Nat.ne_of_gt hp]
  refine ⟨hstack, ?_⟩
  simp only [Reader.enter, Stack.push?_eq hb]
  rfl

/-! ## Moments -/

/-- A main file that is read. -/
structure MainFile where
  frame : Frame
  source : String

/-- A moment of a session: the main file that is being read, or was read last, and the reader. -/
structure Moment where
  main : Option MainFile
  reader : Reader

namespace Moment

/-- The moment before anything is read. -/
def start (session : Session) : Moment := ⟨none, ⟨session, []⟩⟩

/-- The open files, innermost first. -/
def frames (moment : Moment) : List Frame := moment.reader.session.stack.frames

/-- What happens next: a main file is entered when nothing is left of the one before, or the reader
makes a step. Where that is broken off, every file is left. -/
inductive Goes (files : Files.Tree) (options : Options) : Moment → Moment → Prop where
  | enter {moment : Moment} {filename source : String} {frame : Frame} {entered : Reader}
      (ho : moment.reader.remainders = []) (hf : SourceFile.mainFrame files filename = .ok frame)
      (he : moment.reader.enter options frame source = .ok entered) :
      Goes files options moment ⟨some ⟨frame, source⟩, entered⟩
  | read {moment : Moment} {items : List Item} {after : Reader}
      (ho : moment.reader.remainders ≠ [])
      (ha : moment.reader.advance files options = .ok (items, after)) :
      Goes files options moment ⟨moment.main, after⟩
  | halt {moment : Moment} {raised : List Issue} {fault : Files.Overlong}
      (ho : moment.reader.remainders ≠ [])
      (ha : moment.reader.advance files options = .error (.overlong raised fault)) :
      Goes files options moment ⟨moment.main, ⟨moment.reader.session.leaveAll, []⟩⟩

/-- One moment is followed by another one, which it may be itself. -/
def Later (files : Files.Tree) (options : Options) : Moment → Moment → Prop :=
  Relation.ReflTransGen (Goes files options)

variable {moment after : Moment}

/-- The reader is sound at the next moment, too. -/
theorem Goes.sound (h : Goes files options moment after) (hs : moment.reader.Sound options) :
    after.reader.Sound options := by
  cases h with
  | read ho ha => exact (advances_advance ho ha).sound hs
  | halt => exact ⟨hs.macros, hs.limit, rfl, List.forall_mem_nil _⟩
  | @enter _ source frame _ ho _ he =>
    obtain ⟨hstack, henter⟩ := hs.enter ho frame source
    obtain rfl := Except.ok.inj (henter.symm.trans he)
    refine ⟨hs.macros, hs.limit, ?_, List.forall_mem_singleton.2 (proper_ofSource _ _ _)⟩
    exact congrArg (fun stack => stack.depth + 1) hstack

theorem sound_start (hs : Session.initial options = .ok session) :
    (start session).reader.Sound options := by
  obtain ⟨hm, hsession⟩ := ready_of_initial hs
  refine ⟨hm, ?_, ?_, List.forall_mem_nil _⟩
  all_goals
    rw [hsession]
    rfl

theorem Later.sound (h : Later files options moment after) (hs : moment.reader.Sound options) :
    after.reader.Sound options := by
  induction h with
  | refl => exact hs
  | tail _ hgoes ih => exact hgoes.sound ih

/-- The reader is sound at every moment of a session. -/
theorem sound_of_later (hs : Session.initial options = .ok session)
    (h : Later files options (start session) moment) : moment.reader.Sound options :=
  h.sound (sound_start hs)

theorem Goes.once (h : Goes files options moment after) :
    moment.reader.session.once ⊆ after.reader.session.once := by
  cases h with
  | read ho ha => exact (advances_advance ho ha).once
  | halt => exact List.Subset.refl _
  | enter _ _ he =>
    unfold Reader.enter at he
    split at he
    · contradiction
    · obtain rfl := Except.ok.inj he
      exact List.Subset.refl _

/-- A file that is read only once stays so. -/
theorem once_of_later (h : Later files options moment after) :
    moment.reader.session.once ⊆ after.reader.session.once := by
  induction h with
  | refl => exact List.Subset.refl _
  | tail _ hgoes ih => exact List.Subset.trans ih hgoes.once

end Moment

end CPreprocessor

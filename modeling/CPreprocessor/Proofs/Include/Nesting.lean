import CPreprocessor.Proofs.Include.Moment

/-!
# The nesting of files

At every moment of a session the open files are different ones, no more of them than may be, and
they form a chain: the main file at the bottom, and every other file included by a line of the one
below it.

* `Opened`: the chain, with the moment at which each file was included.
* `Linked`: the invariant. `Goes.linked`: it is kept from one moment to the next.
* `stack_nested`: the invariant at every moment, what becomes of the stack where a file ends, and
  that the moments of a main file are those of its reading.
-/

namespace CPreprocessor

open Include Inclusion Moment

variable {files : Files.Tree} {options : Options} {session : Session}

namespace Include.Stack

theorem identity_notMem_of_obstacle? {stack : Stack} {identity : String}
    (h : stack.obstacle? identity = none) : identity ∉ stack.frames.map Frame.identity := by
  intro hm
  obtain ⟨frame, hf, he⟩ := List.mem_map.1 hm
  have hc : stack.contains identity := List.any_eq_true.2 ⟨frame, hf, decide_eq_true he⟩
  rw [obstacle?, if_pos hc] at h
  contradiction

end Include.Stack

/-- Where a file is left, its frame is taken from the stack, and no other one. -/
theorem Session.frames_leave_reachEnd (session : Session) (finish : Option Position) :
    (session.reachEnd finish).leave.stack.frames = session.stack.frames.tail :=
  congrArg (fun left : Session => left.stack.frames) (Session.leave_reachEnd session finish)

/-- No step takes a frame from the stack while there is a line left. -/
theorem Advances.keeps {line : Line} {lines : List Line} {issue : Option Issue}
    {finish : Option Position} {outer : List Remainder} {reader : Reader}
    (h : Advances files options ⟨session, ⟨line :: lines, issue, finish⟩ :: outer⟩ reader) :
    (session.stack.moveTo line.stop).frames <:+ reader.session.stack.frames := by
  cases h with
  | line hs => exact hs ▸ List.suffix_refl _
  | included _ _ _ hs =>
    rw [hs]
    exact List.suffix_cons _ _

/-- What may be left of a whole file: its last lines, however many, and its end. -/
structure Remainder.LeftOf (remainder whole : Remainder) : Prop where
  lines : remainder.lines <:+ whole.lines
  issue : remainder.issue = whole.issue
  finish : remainder.finish = whole.finish

theorem Remainder.LeftOf.refl (whole : Remainder) : whole.LeftOf whole :=
  ⟨List.suffix_refl _, rfl, rfl⟩

theorem Remainder.LeftOf.of_cons {line : Line} {lines : List Line} {issue : Option Issue}
    {finish : Option Position} {whole : Remainder}
    (h : Remainder.LeftOf ⟨line :: lines, issue, finish⟩ whole) :
    Remainder.LeftOf ⟨lines, issue, finish⟩ whole :=
  ⟨(List.suffix_cons line lines).trans h.lines, h.issue, h.finish⟩

namespace Nesting

/-- How the open files, innermost first, came to be open, and what is left of each: the main file
is at the bottom, and every other one was included by the line that stood, at some moment since the
main file was entered, in front of what is left of the file below it. -/
inductive Opened (files : Files.Tree) (options : Options) (start : Moment) (main : MainFile) :
    List Frame → List Remainder → Prop where
  | main {place : Position} {remainder : Remainder}
      (hl : remainder.LeftOf (.ofSource options main.frame main.source)) :
      Opened files options start main [{ main.frame with position := place }] [remainder]
  | included {before : Moment} {line : Line} {remainder lower : Remainder} {frame : Frame}
      {below : List Frame} {outer : List Remainder} {included : Included} {place : Position}
      (hb : Later files options start before) (hm : before.main = some main)
      (hr : before.reader.remainders = ⟨line :: lower.lines, lower.issue, lower.finish⟩ :: outer)
      (hs : (before.reader.session.moveTo line.stop).stack.frames = frame :: below)
      (hi : line.isInclude)
      (ho : opened? files options (before.reader.session.moveTo line.stop) line.tokens =
        some included)
      (hl : remainder.LeftOf (.ofSource options included.frame included.source))
      (h : Opened files options start main (frame :: below) (lower :: outer)) :
      Opened files options start main ({ included.frame with position := place } :: frame :: below)
        (remainder :: lower :: outer)

variable {start moment after : Moment} {main : MainFile}

/-- The main file is at the bottom. -/
theorem Opened.getLast? {frames : List Frame} {remainders : List Remainder}
    (h : Opened files options start main frames remainders) :
    ∃ place, frames.getLast? = some { main.frame with position := place } := by
  induction h with
  | @main place => exact ⟨place, rfl⟩
  | included _ _ _ _ _ _ _ _ ih => exact ih

/-- A line is taken from what is left of the innermost file. -/
theorem Opened.move {stack : Stack} {line : Line} {lines : List Line} {issue : Option Issue}
    {finish : Option Position} {outer : List Remainder}
    (h : Opened files options start main stack.frames (⟨line :: lines, issue, finish⟩ :: outer))
    (place : Position) :
    Opened files options start main (stack.moveTo place).frames
      (⟨lines, issue, finish⟩ :: outer) := by
  obtain ⟨limit, frames⟩ := stack
  cases h with
  | main hl => exact .main hl.of_cons
  | included hb hm hr hs hi ho hl h => exact .included hb hm hr hs hi ho hl.of_cons h

/-- The file below the innermost one was open before that one was. -/
theorem Opened.tail {frames : List Frame} {remainder lower : Remainder} {outer : List Remainder}
    (h : Opened files options start main frames (remainder :: lower :: outer)) :
    Opened files options start main frames.tail (lower :: outer) := by
  cases h with
  | included _ _ _ _ _ _ _ h => exact h

/-- The open files are different ones, no more than may be, and each was included by the one below
it. -/
structure Linked (files : Files.Tree) (options : Options) (start moment : Moment) : Prop where
  distinct : (moment.frames.map Frame.identity).Nodup
  depth_le : moment.frames.length ≤ options.depthLimit
  opened : moment.reader.remainders ≠ [] → ∃ main ∈ moment.main,
    Opened files options start main moment.frames moment.reader.remainders

theorem linked_start (files : Files.Tree) (hs : Session.initial options = .ok session) :
    Linked files options (.start session) (.start session) := by
  have hframes : (Moment.start session).frames = [] :=
    List.length_eq_zero_iff.1 (sound_start hs).depth
  refine ⟨?_, ?_, fun ho => absurd rfl ho⟩
  · rw [hframes]
    exact List.nodup_nil
  · rw [hframes]
    exact Nat.zero_le _

/-! ## From one moment to the next -/

/-- A line that opens no file leaves the files linked. -/
theorem Linked.line {main : Option MainFile} {next : Session} {line : Line} {lines : List Line}
    {issue : Option Issue} {finish : Option Position} {outer : List Remainder}
    (h : Linked files options start ⟨main, ⟨session, ⟨line :: lines, issue, finish⟩ :: outer⟩⟩)
    (hs : next.stack = session.stack.moveTo line.stop) :
    Linked files options start ⟨main, ⟨next, ⟨lines, issue, finish⟩ :: outer⟩⟩ := by
  have hids : next.stack.frames.map Frame.identity = session.stack.frames.map Frame.identity := by
    rw [hs, Stack.identities_moveTo]
  have hlength : next.stack.frames.length = session.stack.frames.length := by
    simpa only [List.length_map] using congrArg List.length hids
  refine ⟨hids ▸ h.distinct, hlength ▸ h.depth_le, fun _ => ?_⟩
  obtain ⟨main, hm, ho⟩ := h.opened (List.cons_ne_nil _ _)
  refine ⟨main, hm, ?_⟩
  have hmove := ho.move line.stop
  rwa [← hs] at hmove

/-- A file that may be entered is linked to the one that includes it. -/
theorem Linked.included {main : Option MainFile} {next : Session} {line : Line}
    {lines : List Line} {issue : Option Issue} {finish : Option Position}
    {outer : List Remainder} {included : Included}
    (h : Linked files options start ⟨main, ⟨session, ⟨line :: lines, issue, finish⟩ :: outer⟩⟩)
    (hl : Later files options start ⟨main, ⟨session, ⟨line :: lines, issue, finish⟩ :: outer⟩⟩)
    (hlimit : session.stack.limit = options.depthLimit) (hi : line.isInclude)
    (ho : opened? files options (session.moveTo line.stop) line.tokens = some included)
    (hb : (session.stack.moveTo line.stop).obstacle? included.frame.identity = none)
    (hs : next.stack = (session.stack.moveTo line.stop).push included.frame) :
    Linked files options start ⟨main, ⟨next,
      .ofSource options included.frame included.source :: ⟨lines, issue, finish⟩ :: outer⟩⟩ := by
  have hmoved : Linked files options start
      ⟨main, ⟨session.moveTo line.stop, ⟨lines, issue, finish⟩ :: outer⟩⟩ := h.line rfl
  have hframes : next.stack.frames =
      included.frame :: (session.stack.moveTo line.stop).frames := by
    rw [hs]
    rfl
  refine ⟨?_, ?_, fun _ => ?_⟩
  · show (next.stack.frames.map Frame.identity).Nodup
    rw [hframes]
    exact List.nodup_cons.2 ⟨Stack.identity_notMem_of_obstacle? hb, hmoved.distinct⟩
  · show next.stack.frames.length ≤ _
    have hd := Stack.depth_lt_of_obstacle? hb
    rw [Stack.limit_moveTo, hlimit] at hd
    rw [hframes]
    exact hd
  · obtain ⟨main, hm, hopen⟩ := hmoved.opened (List.cons_ne_nil _ _)
    refine ⟨main, hm, ?_⟩
    show Opened files options start main next.stack.frames _
    rw [hframes]
    change Opened files options start main (session.stack.moveTo line.stop).frames _ at hopen
    cases hf : (session.stack.moveTo line.stop).frames with
    | nil =>
      rw [hf] at hopen
      cases hopen
    | cons frame below =>
      rw [hf] at hopen
      exact .included hl hm rfl hf hi ho (.refl _) hopen

/-- The files below one that is left stay linked. -/
theorem Linked.left {main : Option MainFile} {remainder : Remainder} {outer : List Remainder}
    (h : Linked files options start ⟨main, ⟨session, remainder :: outer⟩⟩)
    (finish : Option Position) :
    Linked files options start ⟨main, ⟨(session.reachEnd finish).leave, outer⟩⟩ := by
  have hframes := Session.frames_leave_reachEnd session finish
  have htail : session.stack.frames.tail.Sublist session.stack.frames := List.tail_sublist _
  refine ⟨?_, ?_, fun ho => ?_⟩
  · show ((session.reachEnd finish).leave.stack.frames.map Frame.identity).Nodup
    rw [hframes]
    exact h.distinct.sublist (htail.map _)
  · show (session.reachEnd finish).leave.stack.frames.length ≤ _
    rw [hframes]
    exact htail.length_le.trans h.depth_le
  · obtain ⟨main, hm, hopen⟩ := h.opened (List.cons_ne_nil _ _)
    refine ⟨main, hm, ?_⟩
    show Opened files options start main (session.reachEnd finish).leave.stack.frames outer
    rw [hframes]
    obtain ⟨lower, outer, rfl⟩ := List.exists_cons_of_ne_nil ho
    exact hopen.tail

/-- The files are linked at the next moment, too. -/
theorem Goes.linked (hl : Later files options start moment)
    (hs : moment.reader.Sound options) (h : Linked files options start moment)
    (hg : Goes files options moment after) : Linked files options start after := by
  obtain ⟨main, reader⟩ := moment
  cases hg with
  | read ho ha =>
    cases advances_advance ho ha with
    | line hstack => exact h.line hstack
    | included hi hopen hb hstack => exact h.included hl hs.limit hi hopen hb hstack
    | left session issue finish outer => exact h.left finish
  | halt => exact ⟨List.nodup_nil, Nat.zero_le _, fun ho => absurd rfl ho⟩
  | @enter _ source frame _ ho _ he =>
    obtain ⟨hstack, henter⟩ := hs.enter ho frame source
    obtain rfl := Except.ok.inj (henter.symm.trans he)
    have hframes : (reader.session.enter frame).stack.frames = [frame] :=
      congrArg (fun stack : Stack => frame :: stack.frames) hstack
    refine ⟨?_, ?_, fun _ => ⟨_, rfl, ?_⟩⟩
    · show ((reader.session.enter frame).stack.frames.map Frame.identity).Nodup
      rw [hframes]
      exact List.pairwise_singleton _ _
    · show (reader.session.enter frame).stack.frames.length ≤ _
      rw [hframes]
      exact options.depthLimit_pos
    · show Opened files options start ⟨frame, source⟩ (reader.session.enter frame).stack.frames _
      rw [hframes]
      exact .main (.refl _)

/-- The files are linked at every moment of a session. -/
theorem linked_of_later (hs : Session.initial options = .ok session)
    (h : Later files options (.start session) moment) :
    Linked files options (.start session) moment := by
  induction h with
  | refl => exact linked_start files hs
  | tail hl hg ih => exact Goes.linked hl (sound_of_later hs hl) ih hg

/-! ## The stack at every moment -/

/-- The open files are linked, the main file is at the bottom, and nothing is open between two main
files. Where a file ends, whether or not an issue stops it, its frame is taken from the stack and no
other one; no frame is while there is a line left. Reading goes on unless the system refuses to look
a header up, and then every file is left. From its entry to its end a main file is read as its
reading has it. -/
structure Nested (files : Files.Tree) (options : Options) (start moment : Moment) : Prop
    extends Linked files options start moment where
  bottom : moment.reader.remainders ≠ [] → ∃ main ∈ moment.main, ∃ place,
    moment.frames.getLast? = some { main.frame with position := place }
  idle : moment.reader.remainders = [] → moment.frames = []
  pops : ∀ issue finish outer, moment.reader.remainders = ⟨[], issue, finish⟩ :: outer →
    ∃ frame items next, moment.frames = frame :: next.stack.frames ∧
      moment.reader.advance files options =
        .ok (issue.toList.map .issue ++ items, ⟨next, outer⟩)
  keeps : ∀ line lines issue finish outer,
    moment.reader.remainders = ⟨line :: lines, issue, finish⟩ :: outer →
    ∃ frame below, moment.frames = frame :: below ∧ ∀ items after,
      moment.reader.advance files options = .ok (items, after) →
      { frame with position := line.stop } :: below <:+ after.session.stack.frames
  goesOn : moment.reader.remainders ≠ [] → GoesOn (moment.reader.advance files options)
  breaks : ∀ raised fault,
    moment.reader.advance files options = .error (.overlong raised fault) →
    ∀ after, Goes files options moment after → after.frames = [] ∧ after.main = moment.main
  reads : moment.reader.remainders = [] → ∀ frame source,
    let reading := SourceFile.read files options moment.reader.session frame source
    ∃ entered steps, moment.reader.enter options frame source = .ok entered ∧
      Reads files options entered steps reading.items reading.session reading.halt

/-- At every moment of a session, through any number of main files, the open files are nested. -/
theorem stack_nested (hs : Session.initial options = .ok session)
    (h : Later files options (.start session) moment) :
    Nested files options (.start session) moment := by
  have hlinked := linked_of_later hs h
  have hsound := sound_of_later hs h
  obtain ⟨main, ⟨session, remainders⟩⟩ := moment
  have hframes : remainders ≠ [] → ∃ frame below, session.stack.frames = frame :: below :=
    fun ho => List.exists_cons_of_length_pos
      (Nat.lt_of_lt_of_eq (List.length_pos_iff.2 ho) hsound.depth.symm)
  refine { hlinked with
    bottom := ?_, idle := ?_, pops := ?_, keeps := ?_, goesOn := ?_, breaks := ?_, reads := ?_ }
  · intro ho
    obtain ⟨main, hm, hopen⟩ := hlinked.opened ho
    exact ⟨main, hm, hopen.getLast?⟩
  · intro ho
    exact List.length_eq_zero_iff.1 (hsound.depth.trans (congrArg List.length ho))
  · rintro issue finish outer rfl
    obtain ⟨frame, below, hf⟩ := hframes (List.cons_ne_nil _ _)
    have hstack : session.stack = Stack.push ⟨session.stack.limit, below⟩ frame := by
      rw [Stack.push, ← hf]
    obtain ⟨place, hend⟩ := Session.stack_reachEnd hstack finish
    refine ⟨frame, _, (session.reachEnd finish).leave, ?_,
      Reader.advance_end files options hend issue outer⟩
    rw [Session.frames_leave_reachEnd, hf]
    exact hf
  · rintro line lines issue finish outer rfl
    obtain ⟨frame, below, hf⟩ := hframes (List.cons_ne_nil _ _)
    refine ⟨frame, below, hf, fun items after ha => ?_⟩
    have hkeeps := (advances_advance (List.cons_ne_nil _ _) ha).keeps
    simp only [Stack.moveTo, hf] at hkeeps
    exact hkeeps
  · exact fun ho => hsound.advance ho files
  · intro raised fault ha after hg
    cases hg with
    | enter ho =>
      obtain rfl : remainders = [] := ho
      contradiction
    | read _ hr => cases ha.symm.trans hr
    | halt => exact ⟨rfl, rfl⟩
  · rintro rfl frame source
    obtain ⟨hstack, -⟩ := hsound.enter rfl frame source
    exact (reads_read files options hsound.macros hstack frame source).2

/-- A line that includes a file. -/
def cyclicSource : String := "#include \"h\"\n"

/-- A file that includes itself. -/
def cyclicFiles : Files.Tree := ⟨.directory [("h", .file cyclicSource.toUTF8.data.toList)], []⟩

/-- A main file that includes it. -/
def cyclicMain : MainFile := ⟨⟨"/m", "m", some ⟨.root, []⟩, .start "m"⟩, cyclicSource⟩

/-- The moment at which the file has been entered and its line is to be read. -/
def cyclicMoment (options : Options) : Moment :=
  let inner : Frame := ⟨"/h", "/h", some ⟨.root, []⟩, .start "/h"⟩
  let outer : Frame := { cyclicMain.frame with position := ⟨"m", 1, 13⟩ }
  { main := some cyclicMain
    reader :=
      { session := { standardSession with
          stack := ⟨options.depthLimit, [inner, outer]⟩, trace := ["m:1: #include \"h\" -> /h"] }
        remainders := [.ofSource options inner cyclicSource, ⟨[], none, some ⟨"m", 2, 1⟩⟩] } }

/-- A file that includes itself is open once. -/
theorem stack_nested_cycle : Session.initial {} = .ok standardSession ∧
    Later cyclicFiles {} (.start standardSession) (cyclicMoment {}) ∧
    Nested cyclicFiles {} (.start standardSession) (cyclicMoment {}) := by
  have henter : Reader.enter {} ⟨standardSession, []⟩ cyclicMain.frame cyclicMain.source =
      .ok ⟨standardSession.enter cyclicMain.frame,
        [.ofSource {} cyclicMain.frame cyclicMain.source]⟩ := rfl
  have hread : Reader.advance cyclicFiles {} ⟨standardSession.enter cyclicMain.frame,
      [.ofSource {} cyclicMain.frame cyclicMain.source]⟩ =
      .ok ([], (cyclicMoment {}).reader) := by
    decide +kernel
  have hmain : SourceFile.mainFrame cyclicFiles "m" = .ok cyclicMain.frame := by decide +kernel
  have hlater : Later cyclicFiles {} (.start standardSession) (cyclicMoment {}) :=
    (Relation.ReflTransGen.single (.enter rfl hmain henter)).tail
      (.read (List.cons_ne_nil _ _) hread)
  exact ⟨initial_standardSession, hlater, stack_nested initial_standardSession hlater⟩

end Nesting

end CPreprocessor

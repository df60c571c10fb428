import CPreprocessor.Proofs.Expansion.Faults
import CPreprocessor.Proofs.Files.Walk
import CPreprocessor.Proofs.Include.Moment

/-!
# Files that are read only once

Once a file has said so, no line of the session includes it again, whatever file the line stands in
and however it spells the name of the file.

* `once_of_goes`: the line that says so marks the file.
* `Spares`: what an include does if it leaves a file alone. `spares_includeFile`: every include does
  so with a file that is marked. `includeFile_congr`: the text of such a file does not matter.
* `NeverAgain`, `never_again`: what every later line does about the file.
-/

namespace CPreprocessor

open Expansion Include Inclusion Moment
open Directive (execute_include)

/-- Whether the line says that its file is to be read only once. -/
def Line.isOnce (line : Line) : Bool := line.isPragma && Directive.isOnce (line.tokens.drop 2)

/-- The line that is read next, the file that it stands in, and what is left behind it. -/
structure Moment.Next (moment : Moment) (frame : Frame) (line : Line) (behind : Remainder)
    (outer : List Remainder) : Prop where
  top : moment.reader.session.stack.top? = some frame
  remainders : moment.reader.remainders =
    ⟨line :: behind.lines, behind.issue, behind.finish⟩ :: outer

/-- A line that includes a file, as the mark of a directive, its keyword and its operand. -/
structure Line.Includes (line : Line) (hash keyword : Token) (operands : List Token) : Prop where
  tokens : line.tokens = hash :: keyword :: operands
  hash : hash.kind = .directiveHash
  keyword : Directive.Includes keyword

namespace Once

variable {files : Files.Tree} {options : Options} {session : Session} {identity : String}
  {frame : Frame} {line : Line} {hash keyword : Token} {operands : List Token}
  {behind : Remainder} {outer : List Remainder} {moment after : Moment}

/-! ## The line that marks a file -/

theorem execute_once (hp : Directive.IsPragma keyword) (ho : Directive.isOnce operands) :
    Directive.execute files options session frame hash keyword operands =
      .changed { session with once := session.once ++ [frame.identity] } := by
  simp [Directive.execute, Directive.pragma, hp.1, hp.2, ho]

/-- Reading the line marks the file, and does nothing else. -/
theorem advance_once (hn : moment.Next frame line behind outer) (ho : line.isOnce)
    (files : Files.Tree) (options : Options) :
    moment.reader.advance files options = .ok ([], ⟨{ moment.reader.session.moveTo line.stop with
      once := moment.reader.session.once ++ [frame.identity] }, behind :: outer⟩) := by
  obtain ⟨main, ⟨session, remainders⟩⟩ := moment
  obtain ⟨htop, hr⟩ := hn
  obtain rfl : remainders = ⟨line :: behind.lines, behind.issue, behind.finish⟩ :: outer := hr
  obtain ⟨tokens, stop⟩ := line
  match tokens with
  | [] | [_] => contradiction
  | hash :: keyword :: operands =>
    simp only [Line.isOnce, Line.isPragma, Bool.and_eq_true, decide_eq_true_eq,
      List.drop_succ_cons, List.drop_zero] at ho
    obtain ⟨⟨hk, hp⟩, honce⟩ := ho
    have hi : ¬Directive.Includes keyword := by
      rintro ⟨-, ht⟩
      exact absurd (ht.symm.trans hp.2) (by decide)
    have htop' := Stack.top?_moveTo htop stop
    simp only [Reader.advance, Reader.readLine, Session.moveTo, htop', if_pos hk,
      Reader.direct, hi, false_and, if_false, execute_once hp honce]
    rfl

/-- Where the line has been read, the file is marked. -/
theorem once_of_goes (hn : moment.Next frame line behind outer) (ho : line.isOnce)
    (hg : Goes files options moment after) : frame.identity ∈ after.reader.session.once := by
  have hread := advance_once hn ho files options
  cases hg with
  | enter he =>
    rw [hn.remainders] at he
    contradiction
  | halt _ ha => cases hread.symm.trans ha
  | read _ ha =>
    obtain ⟨-, rfl⟩ := Prod.mk.inj (Except.ok.inj (hread.symm.trans ha))
    exact List.mem_append_right _ List.mem_cons_self

/-! ## Includes that leave a file alone -/

/-- An include leaves a file alone: it does not open the file, puts nothing about it in the trace
and does not report that it is open already. -/
structure Spares (identity : String) (session : Session) (filename : String) (row : Nat)
    (outcome : Outcome) : Prop where
  raised : ∀ issue ∈ outcome.raised, issue.fault.category ∈ Category.ofExpansion
  opens : ∀ included, outcome.result = .ok (some included) → included.frame.identity ≠ identity
  trace : outcome.session.trace = session.trace ∨ ∃ reference path,
    outcome.session.trace =
      session.trace ++ [Directive.traceLine filename row reference path] ∧ path.render ≠ identity
  fails : ∀ issue, outcome.result = .error (.issue issue) → issue.fault ≠ .includeCycle identity

theorem obstacle?_ne {stack : Stack} {other : String} (hn : other ≠ identity) {fault : Fault}
    (h : stack.obstacle? other = some fault) : fault ≠ .includeCycle identity := by
  unfold Stack.obstacle? at h
  split at h
  · obtain rfl := Option.some.inj h
    exact fun he => hn (Fault.includeCycle.inj he)
  · split at h
    · obtain rfl := Option.some.inj h
      exact nofun
    · contradiction

theorem spares_openFile (ho : identity ∈ session.once) (reference : Reference)
    (path : Files.Path) :
    Spares identity session frame.filename keyword.position.line
      (Directive.openFile files session frame keyword reference path) := by
  unfold Directive.openFile
  split
  · exact ⟨List.forall_mem_nil _, nofun, .inl rfl, nofun⟩
  · next hp =>
    have hn : path.render ≠ identity := fun he => hp (he ▸ ho)
    have ht {trace : List String} : session.trace ++ [Directive.traceLine frame.filename
          keyword.position.line reference path] = trace ∨ ∃ named target,
        session.trace ++ [Directive.traceLine frame.filename keyword.position.line reference path] =
          session.trace ++ [Directive.traceLine frame.filename keyword.position.line named target] ∧
        target.render ≠ identity := .inr ⟨reference, path, rfl, hn⟩
    dsimp only
    split
    · next fault hb =>
      refine ⟨List.forall_mem_nil _, nofun, ht, fun issue he => ?_⟩
      obtain rfl := Interruption.issue.inj (Except.error.inj he)
      exact obstacle?_ne hn hb
    · split
      · refine ⟨List.forall_mem_nil _, nofun, ht, fun issue he => ?_⟩
        obtain rfl := Interruption.issue.inj (Except.error.inj he)
        exact nofun
      · refine ⟨List.forall_mem_nil _, fun included he => ?_, ht, nofun⟩
        obtain rfl := Option.some.inj (Except.ok.inj he)
        exact hn

theorem category_reference? (table : Macro.Table) (operands : List Token) :
    ∀ issue ∈ (Directive.reference? table operands).1,
      issue.fault.category ∈ Category.ofExpansion := by
  unfold Directive.reference?
  dsimp only
  split
  · split
    · exact List.forall_mem_nil _
    · exact category_drain table false _
  · exact category_drain table false _

/-- An include leaves a marked file alone. -/
theorem spares_includeFile (ho : identity ∈ session.once) :
    Spares identity session frame.filename keyword.position.line
      (Directive.includeFile files options session frame keyword operands) := by
  have hraised := category_reference? session.macros operands
  unfold Directive.includeFile
  dsimp only
  split
  · refine ⟨hraised, nofun, .inl rfl, fun issue he => ?_⟩
    obtain rfl := Interruption.issue.inj (Except.error.inj he)
    exact nofun
  · next reference _ =>
    split
    · exact ⟨hraised, nofun, .inl rfl, nofun⟩
    · refine ⟨hraised, nofun, .inl rfl, fun issue he => ?_⟩
      obtain rfl := Interruption.issue.inj (Except.error.inj he)
      exact nofun
    · next path _ =>
      have hspares : Spares identity session frame.filename keyword.position.line
          (Directive.openFile files session frame keyword reference path) :=
        spares_openFile ho reference path
      exact { hspares with raised := hraised }

/-- An include that leads to a marked file does nothing. -/
theorem includeFile_of_locate {reference : Reference} {path : Files.Path}
    (hn : (Directive.reference? session.macros operands).2 = some reference)
    (hr : reference.locate files options frame.directory = .ok (some path))
    (ho : path.render ∈ session.once) :
    Directive.includeFile files options session frame keyword operands =
      ⟨(Directive.reference? session.macros operands).1, session, .ok none⟩ := by
  simp only [Directive.includeFile, hn, hr, Directive.openFile, if_pos ho]
  rfl

/-- An include does the same in trees that differ in the text of a marked file only. -/
theorem includeFile_congr (ho : identity ∈ session.once) {others : Files.Tree}
    (hw : others.working = files.working) (hf : ∀ path, others.isFile path = files.isFile path)
    (hr : ∀ path, others.refuses path = files.refuses path)
    (ht : ∀ path : Files.Path, path.render ≠ identity →
      others.readText path = files.readText path) :
    Directive.includeFile others options session frame keyword operands =
      Directive.includeFile files options session frame keyword operands := by
  have hlocate (reference : Reference) : reference.locate others options frame.directory =
      reference.locate files options frame.directory := by
    have hdecides : others.decides = files.decides := by
      funext path
      rw [Files.Tree.decides, Files.Tree.decides, hr, hf]
    have hres : others.resolve = files.resolve := by
      funext path
      rw [Files.Tree.resolve, Files.Tree.resolve, hw]
    rw [Reference.locate, Reference.locate, Files.Tree.search_eq, Files.Tree.search_eq, hdecides,
      hres]
    simp only [hr]
  have hopen (reference : Reference) (path : Files.Path) :
      Directive.openFile others session frame keyword reference path =
        Directive.openFile files session frame keyword reference path := by
    unfold Directive.openFile
    split
    · rfl
    · next hp => rw [ht path fun he => hp (he ▸ ho)]
  simp only [Directive.includeFile, hlocate, hopen]

/-! ## The line of an include -/

/-- The line of an include is read by carrying it out in the file that it stands in. -/
theorem advance_include (hs : moment.reader.Sound options)
    (hn : moment.Next frame line behind outer) (hl : line.Includes hash keyword operands)
    (files : Files.Tree) :
    moment.reader.advance files options =
      Reader.follow options ⟨moment.reader.session.moveTo line.stop, behind :: outer⟩
        (Directive.includeFile files options (moment.reader.session.moveTo line.stop)
          { frame with position := line.stop } keyword operands) := by
  obtain ⟨main, ⟨session, remainders⟩⟩ := moment
  obtain ⟨htop, hr⟩ := hn
  obtain ⟨ht, hk, hi⟩ := hl
  obtain rfl : remainders = ⟨line :: behind.lines, behind.issue, behind.finish⟩ :: outer := hr
  have hproper : ProperLine line.tokens := by
    obtain ⟨hlines, -⟩ := List.forall_mem_cons.1 hs.proper
    exact hlines line List.mem_cons_self
  rw [ht] at hproper
  have hmoved : (session.moveTo line.stop).macros.Has Token.Ordinary := hs.macros
  have htop' : (session.moveTo line.stop).stack.top? = some { frame with position := line.stop } :=
    Stack.top?_moveTo htop line.stop
  simp only [Reader.advance, Reader.readLine, ht, htop', if_pos hk,
    Reader.direct_of_quoted hmoved (hproper.operands hk).1, execute_include hi]

/-! ## Never again -/

/-- What the line of an include, which stands in the file `frame` and is read next, does about a
file. -/
structure NeverAgain (files : Files.Tree) (options : Options) (identity : String) (moment : Moment)
    (frame : Frame) (line : Line) (keyword : Token) (operands : List Token) (behind : Remainder)
    (outer : List Remainder) : Prop where
  /-- It does not read the file: the same happens whatever its text. -/
  unread : ∀ others : Files.Tree, others.working = files.working →
    (∀ path, others.isFile path = files.isFile path) →
    (∀ path, others.refuses path = files.refuses path) →
    (∀ path : Files.Path, path.render ≠ identity → others.readText path = files.readText path) →
    moment.reader.advance others options = moment.reader.advance files options
  /-- It does not open the file. -/
  unopened : ∀ included,
    opened? files options (moment.reader.session.moveTo line.stop) line.tokens = some included →
    included.frame.identity ≠ identity
  /-- The file is open as often as before, unless reading is broken off and all files are left. -/
  frames : ∀ after, Goes files options moment after →
    (after.frames.map Frame.identity).count identity =
        (moment.frames.map Frame.identity).count identity ∨
      after.frames = [] ∧ ∃ raised fault,
        moment.reader.advance files options = .error (.overlong raised fault)
  /-- If it adds to the trace, it is about another file. -/
  trace : ∀ after, Goes files options moment after →
    after.reader.session.trace = moment.reader.session.trace ∨ ∃ reference path,
      after.reader.session.trace = moment.reader.session.trace ++
        [Directive.traceLine frame.filename keyword.position.line reference path] ∧
      path.render ≠ identity
  /-- It does not report that the file is open already. -/
  uncycled : ∀ items after, moment.reader.advance files options = .ok (items, after) →
    ∀ position, Item.issue (.placed (.includeCycle identity) position) ∉ items
  /-- Nor does it where reading is broken off. -/
  uncycled_broken : ∀ raised fault,
    moment.reader.advance files options = .error (.overlong raised fault) →
    ∀ issue ∈ raised, issue.fault.category ∈ Category.ofExpansion
  /-- If the path that it is resolved to reaches the file, nothing comes of it but what the
  expansion of its operand reports: not even that too many files are open. -/
  passes : ∀ reference spelled,
    (Directive.reference? moment.reader.session.macros operands).2 = some reference →
    files.search (reference.candidates options frame.directory) = .ok (some spelled) →
    ∃ place bytes, files.Reaches spelled place ∧ files.root.at? place = some (.file bytes) ∧
      (Files.Path.render ⟨.root, place⟩ = identity →
        let raised := (Directive.reference? moment.reader.session.macros operands).1
        moment.reader.advance files options = .ok (raised.map .issue,
          ⟨moment.reader.session.moveTo line.stop, behind :: outer⟩) ∧
        ∀ issue ∈ raised, issue.fault.category ∈ Category.ofExpansion)

/-- What is read behind a directive, and the trace. -/
theorem follow_made {remainders : List Remainder} {outcome : Outcome} {items : List Item}
    {reader : Reader}
    (h : Reader.follow options ⟨session, remainders⟩ outcome = .ok (items, reader)) :
    reader.session.trace = outcome.session.trace ∧ ∀ issue, Item.issue issue ∈ items →
      issue ∈ outcome.raised ∨ outcome.result = .error (.issue issue) := by
  have hraised : ∀ issue, Item.issue issue ∈ outcome.raised.map Item.issue →
      issue ∈ outcome.raised := by
    intro issue hm
    obtain ⟨other, ho, he⟩ := List.mem_map.1 hm
    rwa [← Item.issue.inj he]
  obtain ⟨raised, after, result⟩ := outcome
  match result with
  | .error (.issue issue) =>
    obtain ⟨rfl, rfl⟩ := Prod.mk.inj (Except.ok.inj h)
    refine ⟨rfl, fun other hm => ?_⟩
    rcases List.mem_append.1 hm with hm | hm
    · exact .inl (hraised other hm)
    · obtain rfl := Item.issue.inj (List.mem_singleton.1 hm)
      exact .inr rfl
  | .error (.overlong fault) => contradiction
  | .ok none =>
    obtain ⟨rfl, rfl⟩ := Prod.mk.inj (Except.ok.inj h)
    exact ⟨rfl, fun other hm => .inl (hraised other hm)⟩
  | .ok (some included) =>
    simp only [Reader.follow, Reader.enter] at h
    split at h
    · contradiction
    · obtain ⟨rfl, rfl⟩ := Prod.mk.inj (Except.ok.inj h)
      exact ⟨rfl, fun other hm => .inl (hraised other hm)⟩

/-- A file that is not opened is open as often as before, or no file is open any more. -/
theorem count_of_goes (hn : moment.Next frame line behind outer)
    (hopen : ∀ included,
      opened? files options (moment.reader.session.moveTo line.stop) line.tokens = some included →
      included.frame.identity ≠ identity)
    (hg : Goes files options moment after) :
    (after.frames.map Frame.identity).count identity =
        (moment.frames.map Frame.identity).count identity ∨
      after.frames = [] ∧ ∃ raised fault,
        moment.reader.advance files options = .error (.overlong raised fault) := by
  obtain ⟨main, ⟨session, remainders⟩⟩ := moment
  obtain rfl : remainders = ⟨line :: behind.lines, behind.issue, behind.finish⟩ :: outer :=
    hn.remainders
  cases hg with
  | enter he => contradiction
  | halt _ ha => exact .inr ⟨rfl, _, _, ha⟩
  | read ho ha =>
    have hadvances := advances_advance ho ha
    refine .inl ?_
    show List.count _ _ = (session.stack.frames.map Frame.identity).count identity
    rw [frames]
    cases hadvances with
    | line hs => rw [hs, Stack.identities_moveTo]
    | included _ hopened _ hs =>
      rw [hs, Stack.push, List.map_cons, Stack.identities_moveTo,
        List.count_cons_of_ne (hopen _ hopened)]

/-- A line that says so keeps its file from being included ever again. -/
theorem never_again {start said later : Moment} {place : Frame} {mark : Line} {rest : Remainder}
    {below : List Remainder} (hs : Session.initial options = .ok session)
    (h : Later files options (.start session) start)
    (hsaid : start.Next place mark rest below) (honce : mark.isOnce)
    (hg : Goes files options start said) (hl : Later files options said later)
    (hn : later.Next frame line behind outer) (hi : line.Includes hash keyword operands) :
    NeverAgain files options place.identity later frame line keyword operands behind outer := by
  have hsound : later.reader.Sound options := sound_of_later hs ((h.tail hg).trans hl)
  have hmarked : place.identity ∈ later.reader.session.once :=
    once_of_later hl (once_of_goes hsaid honce hg)
  have hread := advance_include hsound hn hi
  have hspares : Spares place.identity (later.reader.session.moveTo line.stop) frame.filename
      keyword.position.line (Directive.includeFile files options
        (later.reader.session.moveTo line.stop) { frame with position := line.stop } keyword
        operands) := spares_includeFile hmarked
  have hopen : ∀ included,
      opened? files options (later.reader.session.moveTo line.stop) line.tokens = some included →
      included.frame.identity ≠ place.identity := by
    intro included hm
    have htop := Stack.top?_moveTo hn.top line.stop
    obtain ⟨_, _, _, top, ht, htop', -, hr⟩ := opened?_eq_some hm
    obtain ⟨rfl, hrest⟩ := List.cons.inj (hi.tokens.symm.trans ht)
    obtain ⟨rfl, rfl⟩ := List.cons.inj hrest
    obtain rfl := Option.some.inj (htop.symm.trans htop')
    rw [execute_include hi.keyword] at hr
    exact hspares.opens included hr
  refine ⟨fun others hw hf hr ht => ?_, hopen, fun after hg => count_of_goes hn hopen hg,
    fun after hg => ?_, fun items after ha position hm => ?_, fun raised fault ha => ?_,
    fun reference spelled hname hf => ?_⟩
  · have hmoved : place.identity ∈ (later.reader.session.moveTo line.stop).once := hmarked
    rw [hread others, hread files, includeFile_congr hmoved hw hf hr ht]
  · cases hg with
    | enter ho =>
      rw [hn.remainders] at ho
      contradiction
    | halt => exact .inl rfl
    | read _ ha =>
      rw [hread files] at ha
      rw [(follow_made ha).1]
      exact hspares.trace
  · rw [hread files] at ha
    rcases (follow_made ha).2 _ hm with hr | hr
    · have hc := hspares.raised _ hr
      simp [Issue.placed, Fault.category, Category.ofExpansion] at hc
    · exact hspares.fails _ hr rfl
  · rw [hread files] at ha
    obtain ⟨rfl, -⟩ := Reader.outcome_of_follow ha
    exact hspares.raised
  · obtain ⟨spot, bytes, hreach, hat⟩ := (Files.Tree.isFile_iff files spelled).1
      (List.find?_some (Files.Tree.find?_of_search hf))
    refine ⟨spot, bytes, hreach, hat, fun hsame => ⟨?_, category_reference? _ _⟩⟩
    have hlocate : reference.locate files options frame.directory = .ok (some ⟨.root, spot⟩) := by
      rw [Reference.locate, hf, ← Files.Tree.resolve_of_reaches hreach]
      rfl
    have hnone : Directive.includeFile files options (later.reader.session.moveTo line.stop)
        { frame with position := line.stop } keyword operands = _ :=
      includeFile_of_locate hname hlocate (hsame ▸ hmarked)
    rw [hread files, hnone]
    rfl

/-! A file that includes itself, by another name, once it has said that it is read only once. -/

def selfSource : String := "#pragma once\n#include \"./../h\"\n"

def selfFiles : Files.Tree := ⟨.directory [("h", .file selfSource.toUTF8.data.toList)], []⟩

def selfMain : MainFile := ⟨⟨"/m", "m", some ⟨.root, []⟩, .start "m"⟩, "#include \"h\"\n"⟩

/-- The line that says so. -/
def selfMark : Line :=
  { tokens :=
      [{ kind := .directiveHash, text := "#", position := ⟨"/h", 1, 1⟩ },
       { kind := .identifier, text := "pragma", position := ⟨"/h", 1, 2⟩ },
       { kind := .identifier, text := "once", position := ⟨"/h", 1, 9⟩, space := true }]
    stop := ⟨"/h", 1, 13⟩ }

def selfHash : Token := { kind := .directiveHash, text := "#", position := ⟨"/h", 2, 1⟩ }

def selfKeyword : Token := { kind := .identifier, text := "include", position := ⟨"/h", 2, 2⟩ }

def selfOperand : Token :=
  { kind := .headerName, text := "\"./../h\"", position := ⟨"/h", 2, 10⟩, space := true }

/-- The line that includes the file again. -/
def selfLine : Line := ⟨[selfHash, selfKeyword, selfOperand], ⟨"/h", 2, 18⟩⟩

/-- What is left of the main file. -/
def selfOuter : Remainder := ⟨[], none, some ⟨"m", 2, 1⟩⟩

/-- What is left of the file behind these lines. -/
def selfRest (lines : List Line) : Remainder := ⟨lines, none, some ⟨"/h", 3, 1⟩⟩

def selfFrame (place : Position) : Frame := ⟨"/h", "/h", some ⟨.root, []⟩, place⟩

/-- The moment at which these lines are to be read, reading having come to a place and these files
being marked. -/
def selfMoment (place : Position) (lines : List Line) (once : List String) : Moment :=
  { main := some selfMain
    reader :=
      { session := { standardSession with
          stack := ⟨200, [selfFrame place, { selfMain.frame with position := ⟨"m", 1, 13⟩ }]⟩
          trace := ["m:1: #include \"h\" -> /h"]
          once }
        remainders := [selfRest lines, selfOuter] } }

/-- Under another name the file is passed over, too. -/
theorem never_again_self :
    let start := selfMoment (.start "/h") [selfMark, selfLine] []
    let said := selfMoment ⟨"/h", 1, 13⟩ [selfLine] ["/h"]
    Later selfFiles {} (.start standardSession) start ∧
      start.Next (selfFrame (.start "/h")) selfMark (selfRest [selfLine]) [selfOuter] ∧
      selfMark.isOnce ∧ Goes selfFiles {} start said ∧
      said.Next (selfFrame ⟨"/h", 1, 13⟩) selfLine (selfRest []) [selfOuter] ∧
      selfLine.Includes selfHash selfKeyword [selfOperand] ∧
      NeverAgain selfFiles {} "/h" said (selfFrame ⟨"/h", 1, 13⟩) selfLine selfKeyword
        [selfOperand] (selfRest []) [selfOuter] := by
  intro start said
  have henter : Reader.enter {} ⟨standardSession, []⟩ selfMain.frame selfMain.source =
      .ok ⟨standardSession.enter selfMain.frame,
        [.ofSource {} selfMain.frame selfMain.source]⟩ := rfl
  have hinclude : Reader.advance selfFiles {} ⟨standardSession.enter selfMain.frame,
      [.ofSource {} selfMain.frame selfMain.source]⟩ = .ok ([], start.reader) := by
    decide +kernel
  have hmain : SourceFile.mainFrame selfFiles "m" = .ok selfMain.frame := by decide +kernel
  have hlater : Later selfFiles {} (.start standardSession) start :=
    (Relation.ReflTransGen.single (.enter rfl hmain henter)).tail
      (.read (List.cons_ne_nil _ _) hinclude)
  have hstart : start.Next (selfFrame (.start "/h")) selfMark (selfRest [selfLine]) [selfOuter] :=
    ⟨rfl, rfl⟩
  have honce : selfMark.isOnce := by decide
  have hmark : Reader.advance selfFiles {} start.reader = .ok ([], said.reader) := by
    decide +kernel
  have hgoes : Goes selfFiles {} start said := .read (List.cons_ne_nil _ _) hmark
  have hsaid : said.Next (selfFrame ⟨"/h", 1, 13⟩) selfLine (selfRest []) [selfOuter] := ⟨rfl, rfl⟩
  have hline : selfLine.Includes selfHash selfKeyword [selfOperand] := ⟨rfl, rfl, rfl, rfl⟩
  exact ⟨hlater, hstart, honce, hgoes, hsaid, hline,
    never_again initial_standardSession hlater hstart honce hgoes .refl hsaid hline⟩

end Once

end CPreprocessor

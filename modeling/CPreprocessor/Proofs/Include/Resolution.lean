import CPreprocessor.Proofs.Files.Place
import CPreprocessor.Proofs.Include.Nesting
import CPreprocessor.Proofs.Include.Once

/-!
# What references lead to

A reference leads to the first file that it reaches from one of its roots. However a file is spelled
and wherever the walk to it begins, its identity is that of the place where it stands, so that it is
neither entered twice at once nor included again once it has said so.

* `Leads`: the file that a reference leads to. `resolve?_eq_some_iff`, `resolve?_eq_none_iff`.
* `Entered`: the file that a line includes. `exists_places`: the open files stand at places.
* `Canonical`, `resolution_canonical`: what resolution does in a tree without slashes.
-/

namespace CPreprocessor

open Include Inclusion Moment
open Files (identity)

variable {files : Files.Tree} {options : Options} {session : Session}

namespace Include.Reference

variable {reference : Reference} {directory : Option Files.Path} {path : Files.Path}
  {place other : List String}

/-- The reference leads to the file at this place: it reaches the file from one of its roots, and
none from the roots before. -/
def Leads (reference : Reference) (files : Files.Tree) (options : Options)
    (directory : Option Files.Path) (place : List String) : Prop :=
  ∃ before root after, reference.searchRoots options directory = before ++ root :: after ∧
    files.FileAt (root ++ .ofString reference.name) place ∧
    ∀ earlier ∈ before, ∀ other, ¬files.FileAt (earlier ++ .ofString reference.name) other

theorem resolve?_eq (reference : Reference) (files : Files.Tree) (options : Options)
    (directory : Option Files.Path) :
    reference.resolve? files options directory =
      ((reference.searchRoots options directory).find?
        fun root => files.isFile (root ++ .ofString reference.name)).map
        fun root => files.resolve (root ++ .ofString reference.name) := by
  rw [resolve?, candidates, List.find?_map, Option.map_map]
  rfl

/-- The result is the path from the root of the file that the reference leads to. -/
theorem resolve?_eq_some_iff : reference.resolve? files options directory = some path ↔
    ∃ place, reference.Leads files options directory place ∧ path = ⟨.root, place⟩ := by
  rw [resolve?_eq, Option.map_eq_some_iff]
  constructor
  · rintro ⟨root, hf, rfl⟩
    obtain ⟨hroot, before, after, hroots, hbefore⟩ := List.find?_eq_some_iff_append.1 hf
    obtain ⟨place, hplace⟩ := (Files.Tree.isFile_iff_fileAt files _).1 hroot
    refine ⟨place, ⟨before, root, after, hroots, hplace, fun earlier hm other ho => ?_⟩,
      hplace.resolve_eq⟩
    have hnone := hbefore earlier hm
    rw [(Files.Tree.isFile_iff_fileAt files _).2 ⟨other, ho⟩] at hnone
    contradiction
  · rintro ⟨place, ⟨before, root, after, hroots, hplace, hbefore⟩, rfl⟩
    refine ⟨root, List.find?_eq_some_iff_append.2 ⟨?_, before, after, hroots, ?_⟩,
      hplace.resolve_eq⟩
    · exact (Files.Tree.isFile_iff_fileAt files _).2 ⟨place, hplace⟩
    · intro earlier hm
      rw [Bool.not_eq_true', ← Bool.not_eq_true, Files.Tree.isFile_iff_fileAt]
      rintro ⟨other, ho⟩
      exact hbefore earlier hm other ho

/-- There is none where no file is reached from any root. -/
theorem resolve?_eq_none_iff : reference.resolve? files options directory = none ↔
    ∀ root ∈ reference.searchRoots options directory, ∀ place,
      ¬files.FileAt (root ++ .ofString reference.name) place := by
  simp only [resolve?_eq, Option.map_eq_none_iff, List.find?_eq_none,
    Files.Tree.isFile_iff_fileAt, not_exists]

theorem Leads.resolve?_eq (h : reference.Leads files options directory place) :
    reference.resolve? files options directory = some ⟨.root, place⟩ :=
  resolve?_eq_some_iff.2 ⟨place, h, rfl⟩

/-- A reference leads to one file. -/
theorem Leads.unique (h : reference.Leads files options directory place)
    (ho : reference.Leads files options directory other) : place = other :=
  congrArg Files.Path.components (Option.some.inj (h.resolve?_eq.symm.trans ho.resolve?_eq))

theorem Leads.fileAt (h : reference.Leads files options directory place) :
    ∃ path, files.FileAt path place := by
  obtain ⟨_, root, _, -, hplace, -⟩ := h
  exact ⟨_, hplace⟩

end Include.Reference

/-! ## The open files -/

/-- A file was entered for the one at this place: a line that was read included it. -/
inductive Entered (files : Files.Tree) (options : Options) (start : Moment) (frame : Frame)
    (place : List String) : Prop where
  | intro {before : Moment} {outer : Frame} {line : Line} {behind : Remainder}
      {lower : List Remainder} {hash keyword : Token} {operands : List Token}
      {reference : Reference} (hb : Later files options start before)
      (hn : before.Next outer line behind lower) (hl : line.Includes hash keyword operands)
      (hr : (Directive.reference? before.reader.session.macros operands).2 = some reference)
      (hp : reference.Leads files options outer.directory place)
      (hi : frame.identity = identity place)
      (hd : frame.directory = some (Files.Path.parent ⟨.root, place⟩))

namespace Directive

variable {frame : Frame} {keyword : Token} {operands : List Token} {reference : Reference}
  {path : Files.Path}

/-- A file that is not to be read only once goes into the trace, and is the one that is opened. -/
theorem openFile_of_notMem (ho : path.render ∉ session.once) :
    (openFile files session frame keyword reference path).session.trace = session.trace ++
        [traceLine frame.filename keyword.position.line reference path] ∧
      ∀ included, (openFile files session frame keyword reference path).result =
        .ok (some included) → included.path = path := by
  unfold openFile
  rw [if_neg ho]
  dsimp only
  split
  · exact ⟨rfl, nofun⟩
  · split
    · exact ⟨rfl, nofun⟩
    · refine ⟨rfl, fun included h => ?_⟩
      obtain rfl := Option.some.inj (Except.ok.inj h)
      rfl

theorem includeFile_eq (hn : (reference? session.macros operands).2 = some reference)
    (hp : reference.locate files options frame.directory = .ok (some path)) :
    includeFile files options session frame keyword operands =
      { openFile files session frame keyword reference path with
        raised := (reference? session.macros operands).1 } := by
  simp only [includeFile, hn, hp]

/-- An include opens the file that its operand leads to. -/
theorem includeFile_opened {included : Included}
    (h : (includeFile files options session frame keyword operands).result = .ok (some included)) :
    ∃ reference place, (reference? session.macros operands).2 = some reference ∧
      reference.Leads files options frame.directory place ∧ included.path = ⟨.root, place⟩ := by
  cases hn : (reference? session.macros operands).2 with
  | none =>
    simp only [includeFile, hn] at h
    contradiction
  | some reference =>
    cases hp : reference.locate files options frame.directory with
    | error fault =>
      simp only [includeFile, hn, hp] at h
      cases h
    | ok found =>
      cases found with
      | none =>
        simp only [includeFile, hn, hp] at h
        contradiction
      | some path =>
        rw [includeFile_eq hn hp] at h
        change (openFile files session frame keyword reference path).result = _ at h
        obtain ⟨place, hleads, rfl⟩ :=
          Reference.resolve?_eq_some_iff.1 (Reference.resolve?_of_locate hp)
        refine ⟨reference, place, rfl, hleads, ?_⟩
        by_cases ho : Files.Path.render ⟨.root, place⟩ ∈ session.once
        · rw [openFile, if_pos ho] at h
          cases Except.ok.inj h
        · exact (openFile_of_notMem ho).2 included h

end Directive

theorem Include.Stack.exists_top?_of_moveTo {stack : Stack} {position : Position} {frame : Frame}
    (h : (stack.moveTo position).top? = some frame) :
    ∃ outer, stack.top? = some outer ∧ frame = { outer with position } := by
  obtain ⟨limit, frames⟩ := stack
  cases frames with
  | nil => contradiction
  | cons outer below => exact ⟨outer, rfl, (Option.some.inj h).symm⟩

/-- The open files but the main one were entered for files at some places. -/
theorem Nesting.Opened.exists_places {start : Moment} {main : MainFile} {frames : List Frame}
    {remainders : List Remainder} (h : Opened files options start main frames remainders) :
    ∃ places, List.Forall₂ (Entered files options start) frames.dropLast places := by
  induction h with
  | main => exact ⟨[], .nil⟩
  | @included before line _ lower _ _ _ included position hb _ hr _ hi ho _ _ ih =>
    obtain ⟨places, hplaces⟩ := ih
    obtain ⟨hash, keyword, operands, frame, ht, htop, hk, hopened⟩ := opened?_eq_some ho
    have hincludes := (Line.isInclude_iff ht hk).1 hi
    rw [Directive.execute_include hincludes] at hopened
    obtain ⟨reference, place, hn, hleads, hpath⟩ := Directive.includeFile_opened hopened
    obtain ⟨outer, hbefore, rfl⟩ := Stack.exists_top?_of_moveTo htop
    refine ⟨place :: places, .cons ?_ hplaces⟩
    refine .intro hb ⟨hbefore, hr⟩ ⟨ht, hk, hincludes⟩ hn hleads ?_ ?_
    · show included.path.render = _
      rw [hpath]
      rfl
    · show some included.path.parent = _
      rw [hpath]

theorem identities_of_entered {start : Moment} {frames : List Frame} {places : List (List String)}
    (h : List.Forall₂ (Entered files options start) frames places) :
    frames.map Frame.identity = places.map identity := by
  induction h with
  | nil => rfl
  | cons he _ ih =>
    obtain ⟨_, _, _, _, _, hi, _⟩ := he
    rw [List.map_cons, List.map_cons, hi, ih]

/-- At every moment the open files but the main one stand at different places. -/
theorem exists_places (hs : Session.initial options = .ok session) {moment : Moment}
    (h : Later files options (.start session) moment) :
    ∃ places, List.Forall₂ (Entered files options (.start session)) moment.frames.dropLast places ∧
      places.Nodup := by
  have hlinked := Nesting.linked_of_later hs h
  by_cases ho : moment.reader.remainders = []
  · have hframes : moment.frames = [] := List.length_eq_zero_iff.1
      ((sound_of_later hs h).depth.trans (congrArg List.length ho))
    exact ⟨[], hframes ▸ .nil, .nil⟩
  · obtain ⟨main, -, hopened⟩ := hlinked.opened ho
    obtain ⟨places, hplaces⟩ := hopened.exists_places
    have hids : (places.map identity).Nodup := by
      rw [← identities_of_entered hplaces]
      exact hlinked.distinct.sublist ((List.dropLast_sublist _).map _)
    exact ⟨places, hplaces, List.Pairwise.of_map identity (fun _ _ => mt (congrArg identity)) hids⟩

/-! ## Resolution -/

/-- What resolution does. -/
structure Canonical (files : Files.Tree) (options : Options) : Prop where
  quoted : ∀ name directory, Reference.searchRoots ⟨name, false⟩ options directory =
    directory.toList ++ (options.quoteDirectories ++ options.includeDirectories ++
      options.systemDirectories).map .ofString
  angled : ∀ name directory, Reference.searchRoots ⟨name, true⟩ options directory =
    (options.includeDirectories ++ options.systemDirectories).map .ofString
  /-- The result is the path from the root of the file that is reached first. -/
  first : ∀ (reference : Reference) directory path,
    reference.resolve? files options directory = some path ↔
      ∃ place, reference.Leads files options directory place ∧ path = ⟨.root, place⟩
  /-- There is no result where none is reached. -/
  absent : ∀ (reference : Reference) directory,
    reference.resolve? files options directory = none ↔
      ∀ root ∈ reference.searchRoots options directory, ∀ place,
        ¬files.FileAt (root ++ .ofString reference.name) place
  /-- A search comes to that result, unless the system refuses to look up a path that is tried
  before. -/
  search : ∀ (reference : Reference) directory found,
    reference.locate files options directory = .ok found →
    reference.resolve? files options directory = found
  refused : ∀ (reference : Reference) directory fault,
    reference.locate files options directory = .error fault ↔
      ∃ before after, reference.candidates options directory = before ++ fault.path :: after ∧
        files.refuses fault.path ∧
        ∀ earlier ∈ before, ¬files.refuses earlier ∧ ¬files.isFile earlier
  /-- However files are spelled, their identities tell whether they are the same. -/
  identities : ∀ (reference other : Reference) directory elsewhere path target,
    reference.resolve? files options directory = some path →
    other.resolve? files options elsewhere = some target →
    (path.render = target.render ↔ ∃ place, reference.Leads files options directory place ∧
      other.Leads files options elsewhere place)
  /-- A main file that exists has the identity of its place. -/
  main : ∀ filename frame place, SourceFile.mainFrame files filename = .ok frame →
    filename ∉ SourceFile.memoryNames → files.FileAt (.ofString filename) place →
    frame.identity = identity place
  /-- At no moment are two of the files that were included the same. -/
  distinct : ∀ session moment, Session.initial options = .ok session →
    Later files options (.start session) moment →
    ∃ places, List.Forall₂ (Entered files options (.start session)) moment.frames.dropLast
      places ∧ places.Nodup
  /-- Once a file has said that it is read only once, its identity is marked. -/
  marks : ∀ start said later frame mark rest below,
    Moment.Next start frame mark rest below → mark.isOnce → Goes files options start said →
    Later files options said later → frame.identity ∈ later.reader.session.once
  /-- An include whose search is not broken off is passed over, whatever it spells, if and only if
  the identity of the file that it leads to is marked. -/
  once : ∀ session moment frame line behind outer hash keyword operands reference place found,
    Session.initial options = .ok session → Later files options (.start session) moment →
    moment.Next frame line behind outer → line.Includes hash keyword operands →
    (Directive.reference? moment.reader.session.macros operands).2 = some reference →
    reference.Leads files options frame.directory place →
    reference.locate files options frame.directory = .ok found →
    (identity place ∈ moment.reader.session.once ↔
      moment.reader.advance files options =
        .ok ((Directive.reference? moment.reader.session.macros operands).1.map .issue,
          ⟨moment.reader.session.moveTo line.stop, behind :: outer⟩))

theorem identity_mainFrame {filename : String} {frame : Frame} {place : List String}
    (hf : SourceFile.mainFrame files filename = .ok frame)
    (hm : filename ∉ SourceFile.memoryNames) (h : files.FileAt (.ofString filename) place) :
    frame.identity = identity place := by
  rw [SourceFile.mainFrame, if_neg hm, Files.Path.nameable] at hf
  split at hf
  · obtain rfl := Except.ok.inj hf
    exact congrArg Files.Path.render h.resolve_eq
  · contradiction

/-- An include is passed over only if its file is marked. -/
theorem once_iff_passed {moment : Moment} {frame : Frame} {line : Line} {behind : Remainder}
    {outer : List Remainder} {hash keyword : Token} {operands : List Token}
    {reference : Reference} {place : List String} (hs : moment.reader.Sound options)
    (hn : moment.Next frame line behind outer) (hi : line.Includes hash keyword operands)
    (hr : (Directive.reference? moment.reader.session.macros operands).2 = some reference)
    (hl : reference.Leads files options frame.directory place) {found : Option Files.Path}
    (hf : reference.locate files options frame.directory = .ok found) :
    identity place ∈ moment.reader.session.once ↔
      moment.reader.advance files options =
        .ok ((Directive.reference? moment.reader.session.macros operands).1.map .issue,
          ⟨moment.reader.session.moveTo line.stop, behind :: outer⟩) := by
  have hplace : reference.locate files options frame.directory = .ok (some ⟨.root, place⟩) := by
    rw [hf, ← Reference.resolve?_of_locate hf, hl.resolve?_eq]
  rw [Once.advance_include hs hn hi files]
  constructor
  · intro ho
    have hnone : Directive.includeFile files options (moment.reader.session.moveTo line.stop)
        { frame with position := line.stop } keyword operands = _ :=
      Once.includeFile_of_locate hr hplace ho
    rw [hnone]
    rfl
  · intro ha
    by_contra ho
    have heq : Directive.includeFile files options (moment.reader.session.moveTo line.stop)
        { frame with position := line.stop } keyword operands = _ :=
      Directive.includeFile_eq hr hplace
    have hgrown := (Once.follow_made ha).1
    rw [heq] at hgrown
    have hmoved : identity place ∉ (moment.reader.session.moveTo line.stop).once := ho
    have hlength := congrArg List.length (hgrown.trans (Directive.openFile_of_notMem hmoved).1)
    simp [Session.moveTo] at hlength

/-- In a tree without slashes resolution tells files apart, and takes no file for two. -/
theorem resolution_canonical (hs : files.root.Slashless) (options : Options) :
    Canonical files options where
  quoted _ _ := rfl
  angled _ _ := rfl
  first _ _ _ := Reference.resolve?_eq_some_iff
  absent _ _ := Reference.resolve?_eq_none_iff
  search _ _ _ h := Reference.resolve?_of_locate h
  refused _ _ _ := Reference.locate_eq_error_iff
  identities reference other directory elsewhere path target hp ht := by
    obtain ⟨place, hplace, rfl⟩ := Reference.resolve?_eq_some_iff.1 hp
    obtain ⟨spot, hspot, rfl⟩ := Reference.resolve?_eq_some_iff.1 ht
    obtain ⟨_, hfile⟩ := hplace.fileAt
    obtain ⟨_, hother⟩ := hspot.fileAt
    refine (Files.identity_inj hs hfile hother).trans ⟨?_, ?_⟩
    · rintro rfl
      exact ⟨place, hplace, hspot⟩
    · rintro ⟨both, hboth, hboth'⟩
      exact (hplace.unique hboth).trans (hboth'.unique hspot)
  main _ _ _ hf hm h := identity_mainFrame hf hm h
  distinct _ _ hinit h := exists_places hinit h
  marks _ _ _ _ _ _ _ hn ho hg hl := once_of_later hl (Once.once_of_goes hn ho hg)
  once _ _ _ _ _ _ _ _ _ _ _ _ hinit h hn hi hr hl hf :=
    once_iff_passed (sound_of_later hinit h) hn hi hr hl hf

/-- A directory with a file. -/
def spelledFiles : Files.Tree := (Files.Tree.empty []).insert (.ofString "/d/h") (.file [])

theorem slashless_spelledFiles : spelledFiles.root.Slashless :=
  Files.Tree.slashless_insert Files.Node.slashless_empty (List.forall_mem_nil _)
    (Files.Node.slashless_file []) "/d/h"

/-- The file is the same one by its bare name from the directory and by a longer one from a root
that is seen from elsewhere. -/
theorem resolution_canonical_spellings :
    let options : Options := { includeDirectories := ["d//../d/."] }
    spelledFiles.root.Slashless ∧ Canonical spelledFiles options ∧
      ∃ place, Reference.Leads ⟨"h", false⟩ spelledFiles options (some ⟨.root, ["d"]⟩) place ∧
        Reference.Leads ⟨".//../d/./h", true⟩ spelledFiles options none place := by
  intro options
  have hcanonical : Canonical spelledFiles options :=
    resolution_canonical slashless_spelledFiles options
  have hplain : Reference.resolve? ⟨"h", false⟩ spelledFiles options (some ⟨.root, ["d"]⟩) =
      some ⟨.root, ["d", "h"]⟩ := by decide +kernel
  have hlong : Reference.resolve? ⟨".//../d/./h", true⟩ spelledFiles options none =
      some ⟨.root, ["d", "h"]⟩ := by decide +kernel
  exact ⟨slashless_spelledFiles, hcanonical,
    (hcanonical.identities _ _ _ _ _ _ hplain hlong).1 rfl⟩

end CPreprocessor

import CPreprocessor.Preprocessed
import CPreprocessor.Proofs.Interleaving
import CPreprocessor.Proofs.Pipeline

/-!
# Warnings as errors

Whether warnings count as errors decides how grave the entries of the log are, and by that whether
there is a result. It decides nothing else: not what is read, not what comes out, and not what is
reported.

* `Options.ReadAlike`: all that reading asks of the options is the same. `readFile_congr`: then the
  same is read, by induction on the room for further files.
* `Log.Alike`: the same entries in the same order, however grave. `alike_reportAll`: so they stay,
  whatever is reported to both logs.
* `failure?_eq_some_iff`, `failure?_reportAll_eq_none_iff`: when a log amounts to a failure.
* `VerdictsOnly`: what two runs have in common that differ in the treatment of warnings, and where
  they part. `verdicts_only`: any two do not differ in more.
-/

namespace CPreprocessor

open Include

/-! ## Reading -/

namespace Options

/-- The options with warnings raised to errors, or left as they are. -/
def raising (options : Options) (strict : Bool) : Options :=
  { options with warningsAreErrors := strict }

/-- Headers are looked for in the same places and may nest as deep, and trigraphs are read in both
or in neither. -/
structure ReadAlike (first second : Options) : Prop where
  quoted : first.quotedSearchPath = second.quotedSearchPath
  angled : first.angledSearchPath = second.angledSearchPath
  trigraphs : first.trigraphs = second.trigraphs
  depthLimit : first.depthLimit = second.depthLimit

theorem readAlike_raising (options : Options) (strict : Bool) :
    (options.raising strict).ReadAlike options := ⟨rfl, rfl, rfl, rfl⟩

end Options

section Reading

variable {first second : Options} (h : first.ReadAlike second) (files : Files.Tree)
include h

theorem locate_congr (reference : Reference) (directory : Option Files.Path) :
    reference.locate files first directory = reference.locate files second directory := by
  have hr : reference.searchRoots first directory = reference.searchRoots second directory := by
    rw [Reference.searchRoots, h.angled, h.quoted, Reference.searchRoots]
  rw [Reference.locate, Reference.candidates, hr, Reference.locate, Reference.candidates]

/-- Only an include asks anything of the options: where the header is. -/
theorem execute_congr (session : Session) (frame : Frame) (hash keyword : Token)
    (operands : List Token) :
    Directive.execute files first session frame hash keyword operands =
      Directive.execute files second session frame hash keyword operands := by
  have hi : Directive.includeFile files first session frame keyword operands =
      Directive.includeFile files second session frame keyword operands := by
    simp only [Directive.includeFile, locate_congr h]
  rw [Directive.execute, hi, Directive.execute]

theorem readLine_congr (enter : SourceFile.Enter) (session : Session) (tokens : List Token) :
    SourceFile.readLine files first enter session tokens =
      SourceFile.readLine files second enter session tokens := by
  simp only [SourceFile.readLine, execute_congr h]

theorem readLines_congr (enter : SourceFile.Enter) (session : Session) (lines : List Line) :
    SourceFile.readLines files first enter session lines =
      SourceFile.readLines files second enter session lines := by
  induction lines generalizing session with
  | nil => rfl
  | cons line rest ih => simp only [SourceFile.readLines, readLine_congr h, ih]

/-- Included files are read alike in as much room, so the file that includes them is. -/
theorem readFile_congr (room : Nat) :
    SourceFile.readFile files first room = SourceFile.readFile files second room := by
  induction room with
  | zero => rfl
  | succ room ih =>
    funext session frame source
    simp only [SourceFile.readFile, h.trigraphs, ih, readLines_congr h]

theorem ofFrame_congr (session : Session) (frame : Frame) (source : String) :
    Run.ofFrame files first session frame source =
      Run.ofFrame files second session frame source := by
  have hr : SourceFile.read files first session frame source =
      SourceFile.read files second session frame source := by
    rw [SourceFile.read, h.depthLimit, readFile_congr h, SourceFile.read]
  rw [Run.ofFrame, hr, Run.ofFrame]

theorem ofSource_congr (session : Session) (filename source : String) :
    Run.ofSource files first session filename source =
      Run.ofSource files second session filename source := by
  simp only [Run.ofSource, ofFrame_congr h]

end Reading

/-! ## Reporting -/

/-- What a diagnostic says, however grave it is. -/
def Diagnostic.unjudged (diagnostic : Diagnostic) : Diagnostic :=
  { diagnostic with severity := .error }

namespace Log

/-- The same entries in the same order, up to their severity. -/
def Alike (first second : Log) : Prop :=
  first.entries.map Diagnostic.unjudged = second.entries.map Diagnostic.unjudged

/-- A report makes the same entry in each log, up to its severity. -/
theorem Alike.report {first second : Log} (h : first.Alike second) (entry : Report) :
    (first.report entry).Alike (second.report entry) := by
  simp only [Alike, Log.report, List.map_append] at h ⊢
  rw [h]
  rfl

/-- Several reports are made one after the other. -/
theorem reportAll_eq_foldl (log : Log) (entries : List Report) :
    log.reportAll entries = entries.foldl Log.report log := by
  induction entries generalizing log with
  | nil => simp [reportAll]
  | cons entry rest ih => rw [List.foldl_cons, ← ih]; simp [reportAll, Log.report]

theorem Alike.reportAll {first second : Log} (h : first.Alike second) (entries : List Report) :
    (first.reportAll entries).Alike (second.reportAll entries) := by
  simp only [reportAll_eq_foldl]
  induction entries generalizing first second with
  | nil => exact h
  | cons entry rest ih => exact ih (h.report entry)

/-- A failure is made of all entries of the log and the first error among them. -/
theorem failure?_eq_some_iff {log : Log} {failure : Failure} :
    log.failure? = some failure ↔
      log.errors.head? = some failure.primary ∧ failure.entries = log.entries := by
  rw [failure?, ← List.head?_filter, Option.map_eq_some_iff]
  constructor
  · rintro ⟨primary, hp, rfl⟩
    exact ⟨hp, rfl⟩
  · obtain ⟨primary, entries⟩ := failure
    rintro ⟨hp, rfl⟩
    exact ⟨primary, hp, rfl⟩

theorem failure?_eq_none_iff {log : Log} :
    log.failure? = none ↔ ∀ entry ∈ log.entries, entry.severity ≠ .error := by
  simp [failure?, Diagnostic.isError]

end Log

/-- The log of a run alone. -/
def Run.log (run : Run) (strict : Bool) : Log := run.report { warningsAreErrors := strict }

theorem Run.entries_log (run : Run) (strict : Bool) :
    (run.log strict).entries =
      run.issues.map fun issue => Diagnostic.ofReport strict issue.report := by
  simp [Run.log, Run.report, Log.reportAll]

/-- Where warnings stay warnings, a run fails through an issue of a family that is an error. -/
theorem Run.failure?_log_lenient (run : Run) :
    (∃ failure, (run.log false).failure? = some failure) ↔
      ∃ issue ∈ run.issues, issue.fault.category.severity = .error := by
  rw [← Option.isSome_iff_exists, ← not_iff_not, Option.not_isSome_iff_eq_none,
    Log.failure?_eq_none_iff, Run.entries_log]
  simp [Diagnostic.ofReport, Issue.report]

/-- Where they are errors, any issue makes it fail. -/
theorem Run.failure?_log_strict (run : Run) :
    (∃ failure, (run.log true).failure? = some failure) ↔ (run.log true).entries ≠ [] := by
  rw [← Option.isSome_iff_exists, ← not_iff_not, Option.not_isSome_iff_eq_none,
    Log.failure?_eq_none_iff, Run.entries_log, not_not, List.map_eq_nil_iff,
    List.eq_nil_iff_forall_not_mem]
  simp [Diagnostic.ofReport]

/-! ## Results -/

section Result

variable {run : Run} {options : Options} {filename source : String}

/-- A run that is broken off has no result, whatever its log holds. -/
theorem Run.result_eq_overlong {fault : Files.Overlong} (hh : run.halt = some fault) :
    run.result options filename source = .error (.overlong fault) := by
  simp only [Run.result, hh]

theorem Run.result_eq_failed {failure : Failure} (hh : run.halt = none)
    (h : (run.log options.warningsAreErrors).failure? = some failure) :
    run.result options filename source = .error (.failed failure) := by
  unfold Run.log at h
  simp only [Run.result, hh, h]

theorem Run.result_eq_ok (hh : run.halt = none)
    (h : (run.log options.warningsAreErrors).failure? = none) :
    run.result options filename source =
      .ok
        { filename
          source
          tokens := run.tokens
          diagnostics := (run.log options.warningsAreErrors).entries
          trace := run.session.trace
          macros := run.session.macros.dump
          pragmas := run.session.pragmas } := by
  unfold Run.log at h ⊢
  simp only [Run.result, hh, h]

/-- A run fails exactly where it is read to the end and its log amounts to a failure. -/
theorem Run.result_eq_failed_iff {failure : Failure} :
    run.result options filename source = .error (.failed failure) ↔
      run.halt = none ∧ (run.log options.warningsAreErrors).failure? = some failure := by
  cases hh : run.halt with
  | some fault => simp [Run.result_eq_overlong hh]
  | none =>
    cases hf : (run.log options.warningsAreErrors).failure? with
    | none => simp [Run.result_eq_ok hh hf]
    | some found => simp [Run.result_eq_failed hh hf]

end Result

/-- Preprocessing a source fails with these diagnostics. -/
def FailsWith (files : Files.Tree) (options : Options) (filename source : String)
    (failure : Failure) : Prop :=
  preprocess files options filename source = .error (.failed failure)

/-- What comes of a source under options that treat warnings in either way. One run is behind both
results: its tokens, macros, pragmas and trace, and its issues, which the two logs show alike. Where
it is broken off there is no verdict under either. -/
structure VerdictsOnly (files : Files.Tree) (options : Options) (filename source : String)
    (run : Run) : Prop where
  same : ∀ strict, ∃ session, Session.initial (options.raising strict) = .ok session ∧
    Run.ofSource files (options.raising strict) session filename source = .ok run
  alike : (run.log true).Alike (run.log false)
  lenient : run.halt = none →
    ((∃ failure, FailsWith files (options.raising false) filename source failure) ↔
      ∃ issue ∈ run.issues, issue.fault.category.severity = .error)
  strict : run.halt = none →
    ((∃ failure, FailsWith files (options.raising true) filename source failure) ↔
      (run.log true).entries ≠ [])
  failure : ∀ strict failure, FailsWith files (options.raising strict) filename source failure →
    failure.entries = (run.log strict).entries ∧
      (run.log strict).errors.head? = some failure.primary
  result : run.halt = none → ∀ strict,
    (¬∃ failure, FailsWith files (options.raising strict) filename source failure) →
    preprocess files (options.raising strict) filename source =
      .ok
        { filename
          source
          tokens := run.tokens
          diagnostics := (run.log strict).entries
          trace := run.session.trace
          macros := run.session.macros.dump
          pragmas := run.session.pragmas }
  broken : ∀ fault, run.halt = some fault → ∀ strict,
    preprocess files (options.raising strict) filename source = .error (.overlong fault)

variable {files : Files.Tree} {options : Options} {session : Session}

/-- With a run behind it, preprocessing judges the log of that run. -/
theorem verdictsOnly_of_run {filename source : String} {run : Run}
    (hs : Session.initial options = .ok session)
    (hr : Run.ofSource files options session filename source = .ok run) :
    VerdictsOnly files options filename source run := by
  have hinitial (strict : Bool) : Session.initial (options.raising strict) = .ok session := hs
  have hrun (strict : Bool) :
      Run.ofSource files (options.raising strict) session filename source = .ok run := by
    rw [ofSource_congr (options.readAlike_raising strict), hr]
  have hp (strict : Bool) : preprocess files (options.raising strict) filename source =
      run.result (options.raising strict) filename source := by
    simp only [preprocess, hinitial, hrun]
  have hf (strict : Bool) (failure : Failure) :
      FailsWith files (options.raising strict) filename source failure ↔
        run.halt = none ∧ (run.log strict).failure? = some failure := by
    rw [FailsWith, hp]
    exact Run.result_eq_failed_iff
  refine ⟨fun strict => ⟨session, hinitial strict, hrun strict⟩, ?_, fun hh => ?_, fun hh => ?_,
    ?_, ?_, ?_⟩
  · have hempty : (⟨true, []⟩ : Log).Alike ⟨false, []⟩ := rfl
    exact hempty.reportAll _
  · simp only [hf, hh, true_and]
    exact run.failure?_log_lenient
  · simp only [hf, hh, true_and]
    exact run.failure?_log_strict
  · intro strict failure h
    exact (Log.failure?_eq_some_iff.1 ((hf strict failure).1 h).2).symm
  · intro hh strict h
    simp only [hf, hh, true_and, not_exists, ← Option.eq_none_iff_forall_ne_some] at h
    rw [hp]
    exact Run.result_eq_ok hh h
  · intro fault hh strict
    rw [hp]
    exact Run.result_eq_overlong hh

/-- Whether warnings count as errors changes verdicts only, for every source under every name: if no
file can have the name, both runs say so; otherwise they are one run, and they part only in how
grave its issues are. -/
theorem verdicts_only (files : Files.Tree) (hs : Session.initial options = .ok session)
    (filename source : String) :
    (∃ fault, ∀ strict, Session.initial (options.raising strict) = .ok session ∧
      Run.ofSource files (options.raising strict) session filename source = .error fault ∧
      preprocess files (options.raising strict) filename source = .error (.unnameable fault)) ∨
    ∃ run, VerdictsOnly files options filename source run := by
  have hinitial (strict : Bool) : Session.initial (options.raising strict) = .ok session := hs
  cases hr : Run.ofSource files options session filename source with
  | error fault =>
    have hrun (strict : Bool) :
        Run.ofSource files (options.raising strict) session filename source = .error fault := by
      rw [ofSource_congr (options.readAlike_raising strict), hr]
    refine .inl ⟨fault, fun strict => ⟨hinitial strict, hrun strict, ?_⟩⟩
    simp only [preprocess, hinitial, hrun]
  | ok run => exact .inr ⟨run, verdictsOnly_of_run hs hr⟩

/-- A source with an unknown directive: a warning, and an error where warnings are errors. -/
def unknownSource : String := "#frob\n"

/-- What is reported of it. -/
def unknownIssue : Issue := .placed (.unknownDirective "frob") ⟨"main.c", 1, 2⟩

/-- It is read to its end, and that is all that is reported. -/
theorem ofSource_unknownSource : ∃ run, run.halt = none ∧ run.issues = [unknownIssue] ∧
    Run.ofSource ⟨.directory [], []⟩ {} standardSession "main.c" unknownSource = .ok run := by
  let frame : Frame := ⟨"/main.c", "main.c", some ⟨.root, []⟩, .start "main.c"⟩
  have hframe : SourceFile.mainFrame ⟨.directory [], []⟩ "main.c" = .ok frame := by decide +kernel
  have hread : SourceFile.read ⟨.directory [], []⟩ {} standardSession frame unknownSource =
      ⟨[.issue unknownIssue, .text standardSession [.endOfFile ⟨"main.c", 2, 1⟩]],
        standardSession, none⟩ := by decide +kernel
  refine ⟨Run.ofFrame ⟨.directory [], []⟩ {} standardSession frame unknownSource, ?_, ?_, ?_⟩
  · rw [Run.ofFrame, hread]
    rfl
  · rw [Run.issues, Run.ofFrame, Run.ofReading, hread]
    dsimp only
    rw [Emission.filterMap_issue?_mergeFrom, Emission.expandFrom, Emission.expandFrom_endOfFile]
    rfl
  · rw [Run.ofSource, hframe]
    rfl

/-- It is run to its end either way. What is reported is a warning in the one log and an error in
the other, and only by that the source fails. -/
theorem verdicts_only_unknown_directive :
    Session.initial {} = .ok standardSession ∧
      ∃ run, VerdictsOnly ⟨.directory [], []⟩ {} "main.c" unknownSource run ∧ run.halt = none ∧
        (run.log false).entries.map Diagnostic.severity = [.warning] ∧
        (run.log true).entries.map Diagnostic.severity = [.error] ∧
        (¬∃ failure, FailsWith ⟨.directory [], []⟩ (Options.raising {} false) "main.c"
          unknownSource failure) ∧
        ∃ failure, FailsWith ⟨.directory [], []⟩ (Options.raising {} true) "main.c"
          unknownSource failure := by
  obtain ⟨run, hh, hissues, hrun⟩ := ofSource_unknownSource
  have hsame : Options.raising {} false = {} := rfl
  refine ⟨initial_standardSession, ?_⟩
  obtain ⟨fault, hfault⟩ | ⟨found, hverdicts⟩ :=
    verdicts_only ⟨.directory [], []⟩ initial_standardSession "main.c" unknownSource
  · obtain ⟨-, hnone, -⟩ := hfault false
    rw [hsame, hrun] at hnone
    contradiction
  · obtain ⟨session, hs, hr⟩ := hverdicts.same false
    obtain rfl := Except.ok.inj (initial_standardSession.symm.trans hs)
    rw [hsame, hrun] at hr
    obtain rfl := Except.ok.inj hr
    have hentries (strict : Bool) : (run.log strict).entries =
        [Diagnostic.ofReport strict unknownIssue.report] := by
      rw [Run.entries_log, hissues]
      rfl
    refine ⟨run, hverdicts, hh, by rw [hentries]; rfl, by rw [hentries]; rfl, ?_, ?_⟩
    · rw [hverdicts.lenient hh, hissues]
      decide
    · rw [hverdicts.strict hh, hentries]
      exact List.cons_ne_nil _ _

end CPreprocessor

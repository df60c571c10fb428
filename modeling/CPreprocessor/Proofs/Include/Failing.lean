import CPreprocessor.Proofs.Include.Once
import CPreprocessor.Proofs.Interleaving

/-!
# Directives that fail

A directive that fails leaves everything as it was, but for the trace: an include adds its line to
that as soon as its operand is resolved to a file that is not to be read only once.

* `Resolves`: where the operand of an include leads to. `execute_failed`: what the outcome of a
  directive is if it fails.
* `Fails`: what is read of the line of such a directive, and the session behind it.
* `failing_directive_leaves`: at every moment of a session, for every line of a directive.
-/

namespace CPreprocessor

open Expansion Include Moment

variable {files : Files.Tree} {options : Options} {session : Session} {frame : Frame}
  {hash keyword : Token} {operands : List Token} {issue : Issue} {reference : Reference}
  {path : Files.Path}

namespace Directive

/-! ## The outcome -/

/-- The directive includes a file, its operand names `reference`, and that leads to `path`. -/
structure Resolves (files : Files.Tree) (options : Options) (session : Session) (frame : Frame)
    (keyword : Token) (operands : List Token) (reference : Reference) (path : Files.Path) :
    Prop where
  includes : Includes keyword
  named : (reference? session.macros operands).2 = some reference
  found : reference.locate files options frame.directory = .ok (some path)

/-- An operand leads to one place. -/
theorem Resolves.unique {other : Reference} {place : Files.Path}
    (h : Resolves files options session frame keyword operands reference path)
    (ho : Resolves files options session frame keyword operands other place) :
    other = reference ∧ place = path := by
  obtain rfl := Option.some.inj (ho.named.symm.trans h.named)
  exact ⟨rfl, Option.some.inj (Except.ok.inj (ho.found.symm.trans h.found))⟩

/-- The issues that come before the one of the directive itself: those of its operand, which only an
include expands. -/
def raisedBefore (table : Macro.Table) (keyword : Token) (operands : List Token) : List Issue :=
  if Includes keyword then (reference? table operands).1 else []

/-- What a directive that fails makes of the trace. -/
structure Traced (files : Files.Tree) (options : Options) (session : Session) (frame : Frame)
    (keyword : Token) (operands : List Token) (trace : List String) : Prop where
  grows : ∀ reference path,
    Resolves files options session frame keyword operands reference path →
    path.render ∉ session.once →
    trace = session.trace ++ [traceLine frame.filename keyword.position.line reference path]
  stays : (∀ reference path,
      Resolves files options session frame keyword operands reference path →
      path.render ∈ session.once) →
    trace = session.trace

theorem traced_of_not_resolves
    (h : ∀ reference path, ¬Resolves files options session frame keyword operands reference path) :
    Traced files options session frame keyword operands session.trace :=
  ⟨fun reference path hr => absurd hr (h reference path), fun _ => rfl⟩

/-- A file that cannot be opened is in the trace, and nothing else is new. -/
theorem openFile_failed
    (hf : (openFile files session frame keyword reference path).result = .error (.issue issue)) :
    path.render ∉ session.once ∧
      (openFile files session frame keyword reference path).session = { session with
        trace := session.trace ++
          [traceLine frame.filename keyword.position.line reference path] } := by
  unfold openFile at hf ⊢
  by_cases ho : path.render ∈ session.once
  · rw [if_pos ho] at hf
    contradiction
  · simp only [if_neg ho] at hf ⊢
    refine ⟨ho, ?_⟩
    cases hb : session.stack.obstacle? path.render with
    | some fault => rfl
    | none =>
      cases hr : files.readText path with
      | error fault => rfl
      | ok source =>
        simp only [hb, hr] at hf
        contradiction

theorem includeFile_failed (hi : Includes keyword)
    (hf : (includeFile files options session frame keyword operands).result =
      .error (.issue issue)) :
    ∃ trace, Traced files options session frame keyword operands trace ∧
      includeFile files options session frame keyword operands =
        ⟨(reference? session.macros operands).1, { session with trace },
          .error (.issue issue)⟩ := by
  unfold includeFile at hf ⊢
  dsimp only at hf ⊢
  cases hn : (reference? session.macros operands).2 with
  | none =>
    simp only [hn] at hf ⊢
    refine ⟨session.trace, traced_of_not_resolves fun reference path hr => ?_, ?_⟩
    · cases hn.symm.trans hr.named
    · obtain rfl := Interruption.issue.inj (Except.error.inj hf)
      rfl
  | some reference =>
    simp only [hn] at hf ⊢
    match hp : reference.locate files options frame.directory with
    | .error fault =>
      simp only [hp] at hf
      cases hf
    | .ok none =>
      simp only [hp] at hf ⊢
      refine ⟨session.trace, traced_of_not_resolves fun other path hr => ?_, ?_⟩
      · obtain rfl := Option.some.inj (hn.symm.trans hr.named)
        cases hp.symm.trans hr.found
      · obtain rfl := Interruption.issue.inj (Except.error.inj hf)
        rfl
    | .ok (some path) =>
      simp only [hp] at hf ⊢
      have hresolves : Resolves files options session frame keyword operands reference path :=
        ⟨hi, hn, hp⟩
      obtain ⟨ho, hs⟩ := openFile_failed hf
      refine ⟨session.trace ++ [traceLine frame.filename keyword.position.line reference path],
        ⟨fun other place hr _ => ?_, fun hall => ?_⟩, ?_⟩
      · obtain ⟨rfl, rfl⟩ := hresolves.unique hr
        rfl
      · exact absurd (hall reference path hresolves) ho
      · rw [hf, hs]

/-- A directive that fails changes nothing but the trace. -/
theorem execute_failed
    (hf : (execute files options session frame hash keyword operands).result =
      .error (.issue issue)) :
    ∃ trace, Traced files options session frame keyword operands trace ∧
      execute files options session frame hash keyword operands =
        ⟨raisedBefore session.macros keyword operands, { session with trace },
          .error (.issue issue)⟩ := by
  by_cases hi : Includes keyword
  · rw [execute_include hi] at hf ⊢
    rw [raisedBefore, if_pos hi]
    exact includeFile_failed hi hf
  · refine ⟨session.trace, traced_of_not_resolves fun _ _ hr => hi hr.includes, ?_⟩
    rw [raisedBefore, if_neg hi]
    have he : Effect session keyword operands
        (execute files options session frame hash keyword operands) := effect_execute
    generalize execute files options session frame hash keyword operands = outcome at hf he ⊢
    cases he with
    | failing other =>
      obtain rfl := Interruption.issue.inj (Except.error.inj hf)
      rfl
    | defining | erasing | recording => cases hf
    | including hinc => exact absurd hinc hi

/-- Before the issue of the directive only those of an expansion are raised. -/
theorem category_raisedBefore (table : Macro.Table) (keyword : Token) (operands : List Token) :
    ∀ raised ∈ raisedBefore table keyword operands,
      raised.fault.category ∈ Category.ofExpansion := by
  unfold raisedBefore
  split
  · exact Once.category_reference? table operands
  · exact List.forall_mem_nil _

end Directive

/-! ## The line -/

/-- What is read of the line of a directive that fails, and the session behind it. -/
structure Fails (files : Files.Tree) (options : Options) (session : Session) (frame : Frame)
    (keyword : Token) (operands : List Token) (issue : Issue) (items : List Item)
    (after : Session) : Prop where
  macros : after.macros = session.macros
  pragmas : after.pragmas = session.pragmas
  once : after.once = session.once
  stack : after.stack = session.stack
  trace : Directive.Traced files options session frame keyword operands after.trace
  /-- This issue is read, behind those of the operand of an include. -/
  read : items = (Directive.raisedBefore session.macros keyword operands ++ [issue]).map .issue
  before : ∀ raised ∈ Directive.raisedBefore session.macros keyword operands,
    Directive.Includes keyword ∧ raised.fault.category ∈ Category.ofExpansion
  /-- No token comes out, whatever call or literal is held back and whatever is read later. -/
  tokens : ∀ whole literal held rest final halt,
    Run.tokens
        ⟨Emission.mergeFrom whole literal (Emission.expandFrom held (items ++ rest)), final, halt⟩ =
      Run.tokens ⟨Emission.mergeFrom whole literal (Emission.expandFrom held rest), final, halt⟩
  /-- The log grows by one entry for the directive, behind those for its operand. -/
  log : ∀ whole literal held rest final halt (log : Log),
    Run.report
        ⟨Emission.mergeFrom whole literal (Emission.expandFrom held (items ++ rest)), final, halt⟩
        log =
      Run.report ⟨Emission.mergeFrom whole literal (Emission.expandFrom held rest), final, halt⟩
        ((log.reportAll ((Directive.raisedBefore session.macros keyword operands).map
          Issue.report)).report issue.report)

/-- Issues come out as they are read, before anything that is read later. -/
theorem emissions_issues (whole : Bool) (literal : Option (Session × Token))
    (held : Option Suspended) (issues : List Issue) (rest : List Item) :
    Emission.mergeFrom whole literal (Emission.expandFrom held (issues.map .issue ++ rest)) =
      issues.map .issue ++ Emission.mergeFrom whole literal (Emission.expandFrom held rest) := by
  rw [Emission.expandFrom_issues, Emission.mergeFrom_issues]

theorem fails_of_traced {trace : List String}
    (h : Directive.Traced files options session frame keyword operands trace) (issue : Issue) :
    Fails files options session frame keyword operands issue
      ((Directive.raisedBefore session.macros keyword operands ++ [issue]).map .issue)
      { session with trace } where
  macros := rfl
  pragmas := rfl
  once := rfl
  stack := rfl
  trace := h
  read := rfl
  before := by
    intro raised hr
    refine ⟨?_, Directive.category_raisedBefore _ _ _ raised hr⟩
    by_contra hi
    rw [Directive.raisedBefore, if_neg hi] at hr
    contradiction
  tokens whole literal held rest final halt := by
    rw [emissions_issues, Run.tokens, List.filterMap_append, List.filterMap_map]
    exact congrArg (· ++ _) (List.filterMap_eq_nil_iff.2 fun _ _ => rfl)
  log whole literal held rest final halt log := by
    rw [emissions_issues, Run.report, Run.report, Run.issues, Run.issues, List.filterMap_append,
      List.filterMap_map]
    have hissues : (Directive.raisedBefore session.macros keyword operands ++ [issue]).filterMap
        (Emission.issue? ∘ Emission.issue) =
          Directive.raisedBefore session.macros keyword operands ++ [issue] :=
      List.filterMap_some
    simp only [hissues, Log.reportAll, Log.report, List.map_append, List.map_cons, List.map_nil,
      List.append_assoc]

/-- At every moment of a session, the line of a directive that fails leaves everything but the trace
as it was. If its literals have quotes, as all have that are read from a source, the step of the
session that reads it completes. -/
theorem failing_directive_leaves {initial : Session} {moment : Moment}
    (hs : Session.initial options = .ok initial)
    (h : Later files options (.start initial) moment) (stop : Position)
    (htop : (moment.reader.session.moveTo stop).stack.top? = some frame)
    (hk : hash.kind = .directiveHash)
    (hf : (Directive.execute files options (moment.reader.session.moveTo stop) frame hash keyword
      operands).result = .error (.issue issue)) :
    ∃ items after, Fails files options (moment.reader.session.moveTo stop) frame keyword operands
        issue items after ∧
      (∀ enter, SourceFile.readLine files options enter (moment.reader.session.moveTo stop)
        (hash :: keyword :: operands) = ⟨items, after, none⟩) ∧
      ((∀ operand ∈ operands, operand.Quoted) → ∀ remainders,
        Reader.readLine files options ⟨moment.reader.session.moveTo stop, remainders⟩
          (hash :: keyword :: operands) = .ok (items, ⟨after, remainders⟩)) := by
  have hm : (moment.reader.session.moveTo stop).macros.Has Token.Ordinary :=
    (sound_of_later hs h).macros
  obtain ⟨trace, htraced, he⟩ := Directive.execute_failed hf
  refine ⟨_, _, fails_of_traced htraced issue, fun enter => ?_, fun hq remainders => ?_⟩
  · simp only [SourceFile.readLine, htop, if_pos hk, he, SourceFile.follow, Reading.raising,
      Reading.after, List.map_append, List.map_cons, List.map_nil]
  · simp only [Reader.readLine, htop, if_pos hk, Reader.direct_of_quoted hm hq, he, Reader.follow,
      List.map_append, List.map_cons, List.map_nil]

/-! A file that includes itself. -/

/-- The file, which is in the working directory. -/
def selfishMain : MainFile := ⟨⟨"/m", "m", some ⟨.root, []⟩, .start "m"⟩, ""⟩

/-- A token of its first line. -/
def selfishToken (kind : Token.Kind) (text : String) (column : Nat) : Token :=
  { kind, text, position := ⟨"m", 1, column⟩ }

/-- The include fails, and the trace has a line more. -/
theorem failing_directive_leaves_cycle :
    let files : Files.Tree := ⟨.directory [("m", .file [])], []⟩
    let moment : Moment := ⟨some selfishMain, ⟨standardSession.enter selfishMain.frame,
      [.ofSource {} selfishMain.frame selfishMain.source]⟩⟩
    let stop : Position := ⟨"m", 1, 16⟩
    let frame : Frame := { selfishMain.frame with position := stop }
    let session := moment.reader.session.moveTo stop
    let hash := selfishToken .directiveHash "#" 1
    let keyword := selfishToken .identifier "include" 2
    let operand := selfishToken .headerName "\"./m\"" 10
    let issue : Issue := .placed (.includeCycle "/m") keyword.position
    let items : List Item := [.issue issue]
    let after : Session := { session with trace := ["m:1: #include \"./m\" -> /m"] }
    Session.initial {} = .ok standardSession ∧
      Later files {} (.start standardSession) moment ∧ session.stack.top? = some frame ∧
      hash.kind = .directiveHash ∧ (∀ token ∈ [operand], Token.Quoted token) ∧
      (Directive.execute files {} session frame hash keyword [operand]).result =
        .error (.issue issue) ∧
      Fails files {} session frame keyword [operand] issue items after ∧
      (∀ enter, SourceFile.readLine files {} enter session [hash, keyword, operand] =
        ⟨items, after, none⟩) ∧
      ∀ remainders, Reader.readLine files {} ⟨session, remainders⟩ [hash, keyword, operand] =
        .ok (items, ⟨after, remainders⟩) := by
  intro files moment stop frame session hash keyword operand issue items after
  have hmain : SourceFile.mainFrame files "m" = .ok selfishMain.frame := by decide +kernel
  have hl : Later files {} (.start standardSession) moment := .single (.enter rfl hmain rfl)
  have hq : ∀ token ∈ [operand], Token.Quoted token := by
    refine List.forall_mem_singleton.2 fun hk => ?_
    contradiction
  have hf : (Directive.execute files {} session frame hash keyword [operand]).result =
      .error (.issue issue) := by decide +kernel
  have hr : Reader.readLine files {} ⟨session, []⟩ [hash, keyword, operand] =
      .ok (items, ⟨after, []⟩) := by decide +kernel
  obtain ⟨made, left, hfails, hreads, hsteps⟩ :=
    failing_directive_leaves initial_standardSession hl stop rfl rfl hf
  obtain ⟨rfl, he⟩ := Prod.mk.inj (Except.ok.inj (hr.symm.trans (hsteps hq [])))
  obtain rfl := (Reader.mk.inj he).1
  exact ⟨initial_standardSession, hl, rfl, rfl, hq, hf, hfails, hreads, hsteps hq⟩

end CPreprocessor

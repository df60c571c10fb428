import CPreprocessor.Proofs.Directive
import CPreprocessor.Proofs.Expansion.Stream
import CPreprocessor.Run

/-!
# Directives and expansion, one after the other

While a file is read, a line of text is expanded before the next line is looked at, and a call that
its tokens leave open waits while the directives behind it act. Here the file is divided into
stretches of text between two directives, and each stretch is expanded alone, with the macros that
the directives before it leave.

* `Stretch`, `stretches`: the text between directives, and what is in force there.
* `events_readLines`: what comes out line by line is what the stretches give, if nothing is left
  open where a directive stands.
* `interleaving_unobservable`: the same for a whole file, its log included.
-/

namespace CPreprocessor

open Expansion Include

namespace Emission

/-- What comes out, the session aside. -/
def event : Emission → Event
  | token _ produced => .token produced
  | issue raised => .issue raised

@[simp] theorem event_token (session : Session) (produced : Token) :
    (token session produced).event = .token produced := rfl

@[simp] theorem event_issue (raised : Issue) : (issue raised).event = .issue raised := rfl

theorem map_event_ofEvent (session : Session) (events : List Event) :
    (events.map (ofEvent session)).map event = events := by
  induction events with
  | nil => rfl
  | cons first rest ih =>
    rw [List.map_cons, List.map_cons, ih]
    cases first <;> rfl

theorem expandFrom_issues (held : Option Suspended) (issues : List Issue) (items : List Item) :
    expandFrom held (issues.map .issue ++ items) = issues.map .issue ++ expandFrom held items := by
  induction issues with
  | nil => rfl
  | cons first rest ih => simp only [List.map_cons, List.cons_append, expandFrom, ih]

/-- A line without tokens gives nothing. -/
theorem expandFrom_blank (session : Session) (items : List Item) :
    expandFrom none (.text session [] :: items) = expandFrom none items := by
  rw [expandFrom, feed, drain_nil]
  rfl

/-- The end of a file is passed on. -/
theorem expandFrom_endOfFile (session : Session) (stop : Position) :
    expandFrom none [.text session [.endOfFile stop]] = [.token session (.endOfFile stop)] := by
  have hstop : (Token.endOfFile stop).kind = .endOfFile := rfl
  have hd := drain_endOfFile session.macros true [] hstop
  rw [List.nil_append, expand, drain_nil] at hd
  rw [expandFrom, feed, hd]
  rfl

/-- Merging literals neither drops an issue nor moves one past another. -/
theorem filterMap_issue?_mergeFrom (whole : Bool) (held : Option (Session × Token))
    (emissions : List Emission) :
    (mergeFrom whole held emissions).filterMap issue? = emissions.filterMap issue? := by
  have hready : ∀ (session : Session) (tokens : List Token),
      (tokens.map (token session)).filterMap issue? = [] := by
    intro session tokens
    rw [List.filterMap_map]
    exact List.filterMap_eq_nil_iff.2 fun _ _ => rfl
  induction emissions generalizing held with
  | nil => cases whole <;> cases held <;> rfl
  | cons first rest ih =>
    cases first with
    | issue raised => rw [mergeFrom, List.filterMap_cons, List.filterMap_cons, ih]
    | token session produced =>
      rw [mergeFrom, List.filterMap_append, hready, ih]
      rfl

theorem filterMap_issue?_eq (emissions : List Emission) :
    emissions.filterMap issue? = (emissions.map event).filterMap Event.issue? := by
  rw [List.filterMap_map]
  congr
  funext emission
  cases emission <;> rfl

end Emission

namespace Line

/-- Whether the line is a directive. -/
def isDirective (line : Line) : Bool := line.tokens.head?.any (·.kind = .directiveHash)

/-- Whether the line is a directive that includes a file. -/
def isInclude (line : Line) : Bool :=
  match line.tokens with
  | hash :: keyword :: _ =>
    hash.kind = .directiveHash && keyword.kind = .identifier && keyword.text = "include"
  | _ => false

theorem isDirective_of_isInclude {line : Line} (h : line.isInclude) : line.isDirective := by
  obtain ⟨tokens, stop⟩ := line
  unfold isInclude at h
  dsimp only at h
  split at h
  · rw [Bool.and_eq_true, Bool.and_eq_true] at h
    exact h.1.1
  · contradiction

end Line

namespace Interleaving

/-- The text between two directives: what the directive in front of it reported, the macros in
force behind that directive, and the tokens. -/
structure Stretch where
  reported : List Issue
  macros : Macro.Table
  tokens : List Token
deriving DecidableEq

/-- What a stretch gives alone. -/
def Stretch.events (stretch : Stretch) : List Event :=
  stretch.reported.map .issue ++ expand stretch.macros stretch.tokens

variable (files : Files.Tree) (options : Options) (frame : Frame)

/-- What the directive on a line reports, and the session behind it. -/
def obey (session : Session) (line : Line) : List Issue × Session :=
  match line.tokens with
  | hash :: keyword :: operands =>
    let outcome := Directive.execute files options session frame hash keyword operands
    match outcome.result with
    | .error (.issue issue) => (outcome.raised ++ [issue], outcome.session)
    | .error (.overlong _) | .ok _ => (outcome.raised, outcome.session)
  | _ => ([], session)

/-- Divides lines into stretches, `current` being the tokens of the stretch that has begun. -/
def stretchesFrom (session : Session) (reported : List Issue) (current : List Token) :
    List Line → List Stretch
  | [] => [⟨reported, session.macros, current⟩]
  | line :: rest =>
    if line.isDirective then
      let obeyed := obey files options frame session line
      ⟨reported, session.macros, current⟩ :: stretchesFrom obeyed.2 obeyed.1 [] rest
    else stretchesFrom session reported (current ++ line.tokens) rest

/-- The stretches of the lines of a file. -/
def stretches (session : Session) (lines : List Line) : List Stretch :=
  stretchesFrom files options frame session [] [] lines

variable {files options frame}

theorem stretchesFrom_ne_nil (session : Session) (reported : List Issue) (current : List Token)
    (lines : List Line) :
    stretchesFrom files options frame session reported current lines ≠ [] := by
  induction lines generalizing session reported current with
  | nil => exact List.cons_ne_nil _ _
  | cons line rest ih =>
    unfold stretchesFrom
    split
    · exact List.cons_ne_nil _ _
    · exact ih _ _ _

/-! ## Directives away from the files that are open -/

/-- The sessions differ only in the files that are open, and the second one reads the frame, having
come to some place in it. -/
def Moved (frame : Frame) (still moved : Session) : Prop :=
  ∃ stack position, moved = { still with stack } ∧ stack.top? = some { frame with position }

theorem moved_enter (session : Session) (frame : Frame) :
    Moved frame session (session.enter frame) :=
  ⟨session.stack.push frame, frame.position, rfl, rfl⟩

theorem Moved.moveTo {still moved : Session} (h : Moved frame still moved) (place : Position) :
    Moved frame still (moved.moveTo place) := by
  obtain ⟨⟨limit, frames⟩, position, rfl, ht⟩ := h
  cases frames with
  | nil => contradiction
  | cons top under =>
    obtain rfl := Option.some.inj ht
    exact ⟨_, place, rfl, rfl⟩

theorem Moved.macros {still moved : Session} (h : Moved frame still moved) :
    moved.macros = still.macros := by
  obtain ⟨stack, position, rfl, -⟩ := h
  rfl

/-- A line that includes no file reads as the issues of its directive, or as its text. -/
theorem readLine_moved (files : Files.Tree) (options : Options) (enter : SourceFile.Enter)
    {still moved : Session} {line : Line}
    (h : Moved frame still moved) (hi : ¬line.isInclude) :
    if line.isDirective then
      ∃ next, Moved frame (obey files options frame still line).2 next ∧
        SourceFile.readLine files options enter moved line.tokens =
          ⟨(obey files options frame still line).1.map .issue, next, none⟩
    else
      SourceFile.readLine files options enter moved line.tokens =
        ⟨[.text moved line.tokens], moved, none⟩ := by
  obtain ⟨stack, position, rfl, ht⟩ := h
  obtain ⟨tokens, stop⟩ := line
  unfold Line.isDirective obey SourceFile.readLine
  rw [ht]
  cases tokens with
  | nil => rfl
  | cons hash rest =>
    by_cases hk : hash.kind = .directiveHash
    · simp only [List.head?_cons, Option.any_some, decide_eq_true_eq, if_pos hk]
      cases rest with
      | nil => exact ⟨_, ⟨stack, position, rfl, ht⟩, rfl⟩
      | cons keyword operands =>
        have hinc : ¬Directive.Includes keyword := by
          simpa [Line.isInclude, Directive.Includes, hk] using hi
        have he : Directive.Effect still keyword operands
            (Directive.execute files options still frame hash keyword operands) :=
          Directive.effect_execute
        obtain ⟨hr, hf⟩ := he.stays hinc
        clear he
        dsimp only
        rw [Directive.execute_moved hinc stack position]
        generalize Directive.execute files options still frame hash keyword operands = outcome
          at hr hf
        obtain ⟨raised, session, result⟩ := outcome
        obtain rfl := hr
        obtain ⟨issue, rfl⟩ | rfl := hf
        · exact ⟨_, ⟨stack, position, rfl, ht⟩, rfl⟩
        · exact ⟨_, ⟨stack, position, rfl, ht⟩, rfl⟩
    · simp only [List.head?_cons, Option.any_some, decide_eq_true_eq, if_neg hk]

/-- Lines that include no file are read to the end of the last one. -/
theorem moved_readLines (files : Files.Tree) (options : Options) (enter : SourceFile.Enter)
    {still moved : Session} {lines : List Line}
    (h : Moved frame still moved) (hi : ∀ line ∈ lines, ¬line.isInclude) :
    let reading := SourceFile.readLines files options enter moved lines
    reading.halt = none ∧ ∃ last, Moved frame last reading.session := by
  induction lines generalizing still moved with
  | nil => exact ⟨rfl, still, h⟩
  | cons line rest ih =>
    have hrest : ∀ line ∈ rest, ¬line.isInclude := fun l hl => hi l (List.mem_cons_of_mem _ hl)
    have hl := readLine_moved files options enter (h.moveTo line.stop)
      (hi line List.mem_cons_self)
    rw [SourceFile.readLines]
    split at hl
    · obtain ⟨next, hn, hr⟩ := hl
      rw [hr]
      exact ih hn hrest
    · rw [hl]
      exact ih (h.moveTo line.stop) hrest

/-! ## Line by line and stretch by stretch -/

/-- What comes out line by line, the end of the file behind the lines, is what the stretches give,
if each one but the last leaves nothing open. -/
theorem events_readLines (enter : SourceFile.Enter) {still moved : Session} (final : Session)
    (stop : Token) (reported : List Issue) (current : List Token) {lines : List Line}
    (h : Moved frame still moved) (hi : ∀ line ∈ lines, ¬line.isInclude)
    (hs : ∀ stretch ∈ (stretchesFrom files options frame still reported current lines).dropLast,
      Settled stretch.macros stretch.tokens)
    (hk : stop.kind = .endOfFile)
    (hf : final.macros = (SourceFile.readLines files options enter moved lines).session.macros) :
    reported.map .issue ++ ((drain still.macros true current).events ++
        (Emission.expandFrom (drain still.macros true current).held
          ((SourceFile.readLines files options enter moved lines).items ++
            [.text final [stop]])).map Emission.event) =
      (stretchesFrom files options frame still reported current lines).flatMap Stretch.events ++
        [.token stop] := by
  induction lines generalizing still moved reported current with
  | nil =>
    have hm : final.macros = still.macros := hf.trans h.macros
    have hd := drain_append still.macros true current [stop]
    rw [drain_endOfFile still.macros true current hk] at hd
    have he := congrArg Progress.events hd
    simp only [SourceFile.readLines, List.nil_append, Emission.expandFrom, List.append_nil,
      Emission.map_event_ofEvent, hm, stretchesFrom, List.flatMap_cons, List.flatMap_nil,
      Stretch.events, List.append_assoc]
    exact congrArg (reported.map .issue ++ ·) he.symm
  | cons line rest ih =>
    have hrest : ∀ line ∈ rest, ¬line.isInclude := fun l hl => hi l (List.mem_cons_of_mem _ hl)
    have hl := readLine_moved files options enter (h.moveTo line.stop)
      (hi line List.mem_cons_self)
    rw [SourceFile.readLines] at hf ⊢
    rw [stretchesFrom] at hs ⊢
    split at hl
    · next hd =>
      obtain ⟨next, hn, hr⟩ := hl
      simp only [hr, Reading.andThen_none, if_pos hd] at hf hs ⊢
      rw [List.dropLast_cons_of_ne_nil (stretchesFrom_ne_nil _ _ _ _)] at hs
      have hc : Settled still.macros current := hs _ List.mem_cons_self
      have ht := ih _ [] hn hrest (fun s hm => hs s (List.mem_cons_of_mem _ hm)) hf
      rw [drain_nil] at ht
      simp only [Reading.after, List.append_assoc, Emission.expandFrom_issues, List.map_append,
        drain_of_settled hc, held_drain_false, List.flatMap_cons, ← ht, Stretch.events,
        List.map_map]
      rfl
    · next hd =>
      simp only [hl, Reading.andThen_none, if_neg hd] at hf hs ⊢
      have ht := ih _ _ (h.moveTo line.stop) hrest hs hf
      rw [← ht, drain_append]
      simp only [Reading.after, List.append_assoc, List.cons_append, Emission.expandFrom,
        List.map_append, Emission.map_event_ofEvent, Progress.events_after, Progress.held_after,
        (h.moveTo line.stop).macros]
      rfl

/-! ## A whole file -/

theorem exists_finish (current : List Token) {tokens : List Token}
    (h : ∃ token ∈ tokens, token.kind = .endOfFile) :
    ∃ stop, (Lines.divideFrom current tokens).finish = some stop := by
  obtain ⟨token, hm, hk⟩ := h
  obtain ⟨first, hf⟩ : ∃ first, tokens.find? (·.kind = .endOfFile) = some first :=
    Option.isSome_iff_exists.1 (List.find?_isSome.2 ⟨token, hm, decide_eq_true hk⟩)
  refine ⟨first.position, ?_⟩
  rw [finish_divideFrom, hf]
  rfl

theorem mem_endOfFile_of_locate {file : String} {finish : Nat × Nat} {ending : Lexeme.Ending}
    {chars : List Source.Located} {lexemes : List Lexeme}
    (h : (Lexed.locate file finish ending chars lexemes).issue = none) :
    ∃ token ∈ (Lexed.locate file finish ending chars lexemes).tokens, token.kind = .endOfFile := by
  induction lexemes generalizing chars with
  | nil =>
    unfold Lexed.locate at h ⊢
    cases ending with
    | complete gap midLine => exact ⟨_, List.mem_append_right _ List.mem_cons_self, rfl⟩
    | unclosed opener before rest => contradiction
  | cons lexeme lexemes ih =>
    unfold Lexed.locate at h ⊢
    obtain ⟨token, hm, hk⟩ := ih h
    exact ⟨token, List.mem_cons_of_mem _ hm, hk⟩

theorem reached_moveTo {still moved : Session} (h : Moved frame still moved) (position : Position) :
    SourceFile.reached (moved.moveTo position) frame = position := by
  obtain ⟨⟨limit, frames⟩, place, rfl, ht⟩ := h
  cases frames with
  | nil => contradiction
  | cons top under => rfl

theorem macros_moveTo_leave (session : Session) (position : Position) :
    (session.moveTo position).leave.macros = session.macros := rfl

/-- The lines of a file. -/
def linesOf (options : Options) (frame : Frame) (source : String) : Lines :=
  .ofTokens (lex true options.trigraphs frame.filename source).tokens

variable (files) in
/-- What is read of a file that includes none and is closed: its lines, and the end of the file. -/
theorem exists_read (session : Session) {source : String}
    (hl : (lex true options.trigraphs frame.filename source).issue = none)
    (hi : ∀ line ∈ (linesOf options frame source).lines, ¬line.isInclude) :
    ∃ enter stop, (linesOf options frame source).finish = some stop ∧
      let reading := SourceFile.readLines files options enter (session.enter frame)
        (linesOf options frame source).lines
      let final := (reading.session.moveTo stop).leave
      SourceFile.read files options session frame source =
        ⟨reading.items ++ [.text final [.endOfFile stop]], final, none⟩ := by
  obtain ⟨stop, hf⟩ := exists_finish [] (mem_endOfFile_of_locate hl)
  obtain ⟨room, hr⟩ := Nat.exists_eq_add_one.2 options.depthLimit_pos
  refine ⟨SourceFile.readFile files options room, stop, hf, ?_⟩
  obtain ⟨hhalt, last, hlast⟩ := moved_readLines files options
    (SourceFile.readFile files options room) (moved_enter session frame) hi
  have hlines : Lines.ofTokens (lex true options.trigraphs frame.filename source).tokens =
      linesOf options frame source := rfl
  have hstop : (linesOf options frame source).finish = some stop := hf
  have hreached := reached_moveTo hlast stop
  simp only [SourceFile.read, hr, SourceFile.readFile, hl, hlines, hstop, Option.toList_none,
    List.map_nil]
  rw [Reading.andThen_of_none hhalt]
  simp only [Reading.after, Reading.andThen_none, List.append_nil, Session.reachEnd]
  rw [hreached]

/-- Directives and expansion may as well take turns: in a file that includes none and leaves no
comment or literal open, if no stretch of text in front of a directive leaves a call open, then
what comes out before literals are merged is what the stretches give one after the other, each one
behind the reports of the directive in front of it, and then the end of the file; and the issues
of the run are theirs, in that order. -/
theorem interleaving_unobservable (files : Files.Tree) (options : Options) (session : Session)
    (frame : Frame) (source : String)
    (hl : (lex true options.trigraphs frame.filename source).issue = none)
    (hi : ∀ line ∈ (linesOf options frame source).lines, ¬line.isInclude)
    (hs : ∀ stretch ∈
        (stretches files options frame session (linesOf options frame source).lines).dropLast,
      Settled stretch.macros stretch.tokens) :
    let alone :=
      (stretches files options frame session (linesOf options frame source).lines).flatMap
        Stretch.events
    ∃ stop, (linesOf options frame source).finish = some stop ∧
      (Emission.expandFrom none (SourceFile.read files options session frame source).items).map
        Emission.event = alone ++ [.token (.endOfFile stop)] ∧
      (Run.ofFrame files options session frame source).issues = alone.filterMap Event.issue? := by
  intro alone
  obtain ⟨enter, stop, hf, hread⟩ := exists_read files session hl hi
  have hall := events_readLines enter _ (.endOfFile stop) [] [] (moved_enter session frame) hi
    hs rfl (macros_moveTo_leave _ stop)
  rw [drain_nil] at hall
  have hev : (Emission.expandFrom none (SourceFile.read files options session frame
      source).items).map Emission.event = alone ++ [.token (.endOfFile stop)] := by
    rw [hread]
    exact hall
  refine ⟨stop, hf, hev, ?_⟩
  rw [Run.issues, Run.ofFrame, Run.ofReading]
  dsimp only
  rw [Emission.filterMap_issue?_mergeFrom, Emission.filterMap_issue?_eq, hev,
    List.filterMap_append]
  exact List.append_nil _

/-- A file in which a macro is defined, called and forgotten. -/
def sampleSource : String := "#define f() 0\nf()\n#undef f\nf()\n"

/-- The frame of that file. -/
def sampleFrame : Frame := ⟨"<input>", "<input>", none, .start "<input>"⟩

/-- The stretches of that file. -/
def sampleStretches (options : Options) : List Stretch :=
  stretches ⟨.directory [], []⟩ options sampleFrame { macros := ∅, stack := .empty 200 }
    (linesOf options sampleFrame sampleSource).lines

/-- A token of that file. -/
def sampleToken (kind : Token.Kind) (text : String) (line column : Nat) : Token :=
  { kind, text, position := ⟨"<input>", line, column⟩ }

/-- The macro in force between its directives. -/
def sampleMacro : Macro.Definition :=
  ⟨"f", some ⟨[], false⟩, [sampleToken .number "0" 1 13], ⟨"<input>", 1, 9⟩⟩

theorem expand_sample : expand ⟨[sampleMacro]⟩ [sampleToken .identifier "f" 2 1,
    sampleToken .punctuator "(" 2 2, sampleToken .punctuator ")" 2 3] =
      [.token ((sampleToken .number "0" 2 1).paint "f")] := by
  let call : Invocation :=
    ⟨sampleMacro, sampleToken .identifier "f" 2 1, sampleToken .punctuator ")" 2 3, []⟩
  have hcall : step ⟨[sampleMacro]⟩ false (sampleToken .identifier "f" 2 1)
      [sampleToken .punctuator "(" 2 2, sampleToken .punctuator ")" 2 3] = .invoke call [] := by
    decide +kernel
  have hresult : call.result ⟨[sampleMacro]⟩ =
      ([], [(sampleToken .number "0" 2 1).paint "f"]) := by decide +kernel
  have hzero : step ⟨[sampleMacro]⟩ false ((sampleToken .number "0" 2 1).paint "f") [] =
      .emit ((sampleToken .number "0" 2 1).paint "f") := by decide +kernel
  have hevents : call.events ⟨[sampleMacro]⟩ = [] := by decide +kernel
  rw [expand, drain_cons, hcall, Step.proceed, hresult, hevents, List.append_nil, drain_cons, hzero,
    Step.proceed, drain_nil]
  rfl

/-- Behind `#undef f`, the name of the macro is text again. -/
theorem interleaving_unobservable_undefine :
    (lex true false sampleFrame.filename sampleSource).issue = none ∧
      (∀ line ∈ (linesOf {} sampleFrame sampleSource).lines, ¬line.isInclude) ∧
      (∀ stretch ∈ (sampleStretches {}).dropLast, Settled stretch.macros stretch.tokens) ∧
      ∃ stop, (linesOf {} sampleFrame sampleSource).finish = some stop ∧
        (Emission.expandFrom none (SourceFile.read ⟨.directory [], []⟩ {}
          { macros := ∅, stack := .empty 200 } sampleFrame sampleSource).items).map Emission.event =
            (sampleStretches {}).flatMap Stretch.events ++ [.token (.endOfFile stop)] ∧
        (Run.ofFrame ⟨.directory [], []⟩ {} { macros := ∅, stack := .empty 200 } sampleFrame
          sampleSource).issues =
            ((sampleStretches {}).flatMap Stretch.events).filterMap Event.issue? := by
  have hl : (lex true false sampleFrame.filename sampleSource).issue = none := by decide +kernel
  have hi : ∀ line ∈ (linesOf {} sampleFrame sampleSource).lines, ¬line.isInclude := by
    decide +kernel
  have hd : (sampleStretches {}).dropLast = [⟨[], ∅, []⟩, ⟨[], ⟨[sampleMacro]⟩,
      [sampleToken .identifier "f" 2 1, sampleToken .punctuator "(" 2 2,
        sampleToken .punctuator ")" 2 3]⟩] := by decide +kernel
  have hs : ∀ stretch ∈ (sampleStretches {}).dropLast, Settled stretch.macros stretch.tokens := by
    rw [hd]
    intro stretch hm
    rcases List.mem_cons.1 hm with rfl | hm
    · refine ⟨?_, ?_⟩
      all_goals rw [expand, drain_nil]; decide
    · obtain rfl := List.mem_singleton.1 hm
      refine ⟨?_, ?_⟩
      all_goals rw [expand_sample]; decide +kernel
  exact ⟨hl, hi, hs, interleaving_unobservable _ _ _ sampleFrame sampleSource hl hi hs⟩

end Interleaving

end CPreprocessor

import CPreprocessor.Proofs.Interleaving
import CPreprocessor.Proofs.Unplaced.Directive

/-!
# Reading without places

Where a line stands decides nothing but the places of what is read from it, and lines without
tokens decide nothing at all.

* `Reading.unplaced`: what is read, with the places forgotten: the lines of text that hold tokens,
  each with the macros that it is expanded with, and the session.
* `PlacelessLines`, `PlacelessFile`: no token is replaced by its place in the operand of an include.
* `readRows`, `readTexts`: reading lines and files whose places are forgotten from the start.
  `readLines_unplaced`, `readFile_unplaced`: it reads what reading does.
-/

namespace CPreprocessor

open Expansion Include

/-! ## What is read -/

/-- A text in a session of which nothing is known but the macros. -/
def Item.ofMacros (macros : Macro.Table) (tokens : List Token) : Item :=
  .text { macros, stack := .empty 0 } tokens

/-- The item with the places forgotten, if it holds tokens. -/
def Item.unplaced? : Item → Option Item
  | text _ [] => none
  | text session (token :: rest) =>
    some (.ofMacros session.macros.unplaced (token.unplaced :: rest.map Token.unplaced))
  | issue _ => none

theorem Item.unplaced?_idem {item other : Item} (h : item.unplaced? = some other) :
    other.unplaced? = some other := by
  match item with
  | text _ [] | issue _ => contradiction
  | text session (token :: rest) =>
    obtain rfl := Option.some.inj h
    simp [unplaced?, ofMacros]

namespace Reading

/-- What is read, with the places forgotten. -/
def unplaced (reading : Reading) : Reading :=
  ⟨reading.items.filterMap Item.unplaced?, reading.session.unplaced, reading.halt⟩

@[simp] theorem unplaced_unplaced (reading : Reading) :
    reading.unplaced.unplaced = reading.unplaced := by
  refine congrArg₂ (mk · · reading.halt) ?_ (Session.unplaced_unplaced _)
  refine (List.filterMap_congr fun item hm => ?_).trans (List.filterMap_some ..)
  obtain ⟨read, -, h⟩ := List.mem_filterMap.1 hm
  exact Item.unplaced?_idem h

theorem unplaced_after (items : List Item) (reading : Reading) :
    (reading.after items).unplaced =
      reading.unplaced.after (items.filterMap Item.unplaced?) := by
  rw [unplaced, after, List.filterMap_append]
  rfl

/-- What is read behind is read without places as well. -/
theorem unplaced_andThen {reading : Reading} {next : Session → Reading}
    (bare : Session → Reading) (h : reading.halt = none →
      (next reading.session).unplaced = bare reading.session.unplaced) :
    (reading.andThen next).unplaced = reading.unplaced.andThen bare := by
  obtain ⟨items, session, halt⟩ := reading
  cases halt with
  | some fault => rfl
  | none => rw [andThen_none, unplaced_after, h rfl, unplaced, andThen_none]

theorem filterMap_unplaced?_issues (issues : List Issue) :
    (issues.map Item.issue).filterMap Item.unplaced? = [] := by
  rw [List.filterMap_map]
  exact List.filterMap_eq_nil_iff.2 fun _ _ => rfl

theorem unplaced_raising (issues : List Issue) (reading : Reading) :
    (reading.raising issues).unplaced = reading.unplaced := by
  rw [raising, unplaced_after, filterMap_unplaced?_issues]
  rfl

end Reading

variable (files : Files.Tree) (options : Options)

/-! ## Where no place is looked at -/

/-- No token is replaced by its place in the operand of the directive on a line, nor below the file
that it includes. -/
def PlacelessLine (below : Session → Frame → String → Prop) (session : Session)
    (tokens : List Token) : Prop :=
  match tokens, session.stack.top? with
  | hash :: keyword :: operands, some frame =>
    hash.kind = .directiveHash →
      (Directive.Includes keyword → Directive.PlacelessOperand session.macros operands) ∧
      ∀ included,
        (Directive.execute files options session frame hash keyword operands).result =
            .ok (some included) →
          below (Directive.execute files options session frame hash keyword operands).session
            included.frame included.source
  | _, _ => True

/-- No token is replaced by its place in the directives of some lines. -/
def PlacelessLines (enter : SourceFile.Enter) (below : Session → Frame → String → Prop)
    (session : Session) : List Line → Prop
  | [] => True
  | line :: rest =>
    PlacelessLine files options below (session.moveTo line.stop) line.tokens ∧
      let reading := SourceFile.readLine files options enter (session.moveTo line.stop) line.tokens
      reading.halt = none → PlacelessLines enter below reading.session rest

/-- No token is replaced by its place in the directives of a file, nor in those of the files below
it. -/
def PlacelessFile : (room : Nat) → Session → Frame → String → Prop
  | 0, _, _, _ => True
  | room + 1, session, frame, source =>
    PlacelessLines files options (SourceFile.readFile files options room) (PlacelessFile room)
      (session.enter frame) (Interleaving.linesOf options frame source).lines

variable {files options}

theorem placelessLine_of_not_isInclude {below : Session → Frame → String → Prop}
    {session : Session} {line : Line} (h : ¬line.isInclude) :
    PlacelessLine files options below session line.tokens := by
  obtain ⟨tokens, stop⟩ := line
  match tokens, ht : session.stack.top? with
  | hash :: keyword :: operands, some frame =>
    unfold PlacelessLine
    rw [ht]
    intro hk
    have hi : ¬Directive.Includes keyword := fun hi => h (by simp [Line.isInclude, hk, hi.1, hi.2])
    have he : Directive.Effect session keyword operands
        (Directive.execute files options session frame hash keyword operands) :=
      Directive.effect_execute
    refine ⟨fun h => absurd h hi, fun included hr => ?_⟩
    obtain ⟨issue, hs⟩ | hs := (he.stays hi).2
    · cases hs.symm.trans hr
    · cases hs.symm.trans hr
  | hash :: keyword :: operands, none =>
    unfold PlacelessLine
    rw [ht]
    trivial
  | [], _ | [_], _ => trivial

/-- Lines that include no file have no operands to look at places in. -/
theorem placelessLines_of_not_isInclude {enter : SourceFile.Enter}
    {below : Session → Frame → String → Prop} {session : Session} {lines : List Line}
    (h : ∀ line ∈ lines, ¬line.isInclude) :
    PlacelessLines files options enter below session lines := by
  induction lines generalizing session with
  | nil => trivial
  | cons line rest ih =>
    exact ⟨placelessLine_of_not_isInclude (h line List.mem_cons_self),
      fun _ => ih fun line hm => h line (List.mem_cons_of_mem _ hm)⟩

variable (files options)

/-! ## Reading rows -/

/-- Reads lines whose places are forgotten, one after the other. -/
def readRows (enter : SourceFile.Enter) (session : Session) : List (List Token) → Reading
  | [] => ⟨[], session, none⟩
  | row :: rest =>
    (SourceFile.readLine files options enter session row).unplaced.andThen fun session =>
      readRows enter session rest

/-- The lines of a source that hold tokens. -/
def texts (trigraphs : Bool) (source : String) : List (List Token) :=
  (rows trigraphs source).filter (!·.isEmpty)

/-- Reads a file with all places forgotten. -/
def readTexts : (room : Nat) → SourceFile.Enter
  | 0, session, _, _ => ⟨[], session.unplaced, none⟩
  | room + 1, session, frame, source =>
    readRows files options (readTexts room) (session.enter frame).unplaced
      (texts options.trigraphs source)

variable {files options}

theorem readRows_append (enter : SourceFile.Enter) (session : Session)
    (front behind : List (List Token)) :
    readRows files options enter session (front ++ behind) =
      (readRows files options enter session front).andThen fun session =>
        readRows files options enter session behind := by
  induction front generalizing session with
  | nil => rfl
  | cons row rest ih =>
    rw [List.cons_append, readRows, readRows, Reading.andThen_assoc]
    simp only [ih]

/-! ## Reading without places is reading -/

/-- A file is read without places as it is read, if no place is looked at below it. -/
def Reflects (below : Session → Frame → String → Prop) (enter bare : SourceFile.Enter) : Prop :=
  ∀ (session other : Session) (frame : Frame) (source : String),
    other.unplaced = session.unplaced → below session frame source →
    bare other frame source = (enter session frame source).unplaced

variable {below : Session → Frame → String → Prop} {enter bare : SourceFile.Enter}
  {session : Session}

theorem follow_unplaced (he : Reflects below enter bare) {outcome other : Outcome}
    (ho : other.unplaced = outcome.unplaced)
    (hb : ∀ included, outcome.result = .ok (some included) →
      below outcome.session included.frame included.source) :
    (SourceFile.follow bare other).unplaced = (SourceFile.follow enter outcome).unplaced := by
  obtain ⟨raised, next, result⟩ := outcome
  obtain ⟨raised', next', result'⟩ := other
  obtain ⟨hs, hr⟩ : next'.unplaced = next.unplaced ∧
      result'.mapError Interruption.overlong? = result.mapError Interruption.overlong? :=
    Prod.mk.inj ho
  have hstay (halt : Option Files.Overlong) :
      (⟨[], next'.unplaced, halt⟩ : Reading) = ⟨[], next.unplaced, halt⟩ := by rw [hs]
  match result, result', hr with
  | .error (.issue _), .error (.issue _), _ => exact hstay none
  | .error (.overlong fault), .error (.overlong other), hr =>
    obtain rfl := Option.some.inj (Except.error.inj hr)
    exact hstay (some other)
  | .ok none, .ok none, _ => exact hstay none
  | .ok (some included), .ok (some other), hr =>
    obtain rfl := Option.some.inj (Except.ok.inj hr)
    have hread := he _ _ _ _ hs (hb other rfl)
    have hidem := Reading.unplaced_unplaced (enter next other.frame other.source)
    rw [← hread] at hidem
    have hsame := hidem.trans hread
    have hleave := congrArg Session.leave (congrArg Reading.session hsame)
    rw [Reading.unplaced, Reading.unplaced, ← Session.unplaced_leave, ← Session.unplaced_leave]
      at hleave
    have hitems := congrArg Reading.items hsame
    have hhalt := congrArg Reading.halt hsame
    unfold SourceFile.follow
    unfold Reading.unplaced at hitems hhalt ⊢
    dsimp only at hitems hleave hhalt ⊢
    rw [hitems, hleave, hhalt]

theorem readLine_unplaced (he : Reflects below enter bare) {tokens : List Token}
    (hp : PlacelessLine files options below session tokens) :
    (SourceFile.readLine files options bare session.unplaced
        (tokens.map Token.unplaced)).unplaced =
      (SourceFile.readLine files options enter session tokens).unplaced := by
  have htext : (⟨[.text session.unplaced (tokens.map Token.unplaced)], session.unplaced, none⟩ :
      Reading).unplaced = (⟨[.text session tokens], session, none⟩ : Reading).unplaced := by
    cases tokens with
    | nil => exact congrArg (Reading.mk [] · none) (Session.unplaced_unplaced session)
    | cons token rest => simp [Reading.unplaced, Item.unplaced?, Item.ofMacros, Session.unplaced]
  have htop := Stack.top?_unplaced session.stack
  unfold SourceFile.readLine
  unfold PlacelessLine at hp
  cases tokens with
  | nil => exact htext
  | cons hash rest =>
    rw [List.map_cons, show session.unplaced.stack.top? = _ from htop]
    cases ht : session.stack.top? with
    | none => exact htext
    | some frame =>
      rw [ht] at hp
      rw [Option.map_some]
      dsimp only
      by_cases hk : hash.kind = .directiveHash
      · have hku : hash.unplaced.kind = .directiveHash := hk
        rw [if_pos hk, if_pos hku]
        cases rest with
        | nil => simp [Reading.unplaced]
        | cons keyword operands =>
          obtain ⟨ho, hb⟩ := hp hk
          rw [List.map_cons]
          dsimp only
          rw [Reading.unplaced_raising, Reading.unplaced_raising]
          exact follow_unplaced he (Directive.execute_unplaced ho) hb
      · have hku : ¬hash.unplaced.kind = .directiveHash := hk
        rw [if_neg hk, if_neg hku]
        exact htext

/-- Lines without their places, those without tokens left out, are read as the lines are. -/
theorem readLines_unplaced (he : Reflects below enter bare) {lines : List Line}
    (hp : PlacelessLines files options enter below session lines) :
    readRows files options bare session.unplaced
        ((lines.map Line.unplaced).filter (!·.isEmpty)) =
      (SourceFile.readLines files options enter session lines).unplaced := by
  induction lines generalizing session with
  | nil => rfl
  | cons line rest ih =>
    obtain ⟨hline, hrest⟩ := hp
    have hfirst := readLine_unplaced he hline
    rw [Session.unplaced_moveTo] at hfirst
    let behind (session : Session) : Reading :=
      readRows files options bare session ((rest.map Line.unplaced).filter (!·.isEmpty))
    rw [SourceFile.readLines, List.map_cons,
      Reading.unplaced_andThen behind fun hn => (ih (hrest hn)).symm]
    cases ht : line.tokens with
    | nil =>
      have hempty : line.unplaced = [] := by rw [Line.unplaced, ht]; rfl
      rw [List.filter_cons_of_neg (by rw [hempty]; simp)]
      simp only [SourceFile.readLine, Reading.unplaced, Session.unplaced_moveTo]
      rfl
    | cons token tokens =>
      have hcons : line.unplaced ≠ [] := by
        rw [Line.unplaced, ht]
        exact List.cons_ne_nil _ _
      rw [List.filter_cons_of_pos (by simpa using hcons), readRows]
      rw [← ht]
      rw [show line.unplaced = line.tokens.map Token.unplaced from rfl, hfirst]

theorem unplaced_linesOf (options : Options) (frame : Frame) (source : String) :
    (Interleaving.linesOf options frame source).lines.map Line.unplaced =
      rows options.trigraphs source :=
  unplaced_ofTokens options.trigraphs frame.filename source

/-- Files are read without places as they are read. -/
theorem reflects_readTexts (room : Nat) :
    Reflects (PlacelessFile files options room) (SourceFile.readFile files options room)
      (readTexts files options room) := by
  induction room with
  | zero =>
    intro session other frame source hs _
    exact congrArg (Reading.mk [] · none) hs
  | succ room ih =>
    intro session other frame source hs hp
    have henter : (other.enter frame).unplaced = (session.enter frame).unplaced :=
      (Session.unplaced_enter other frame).trans
        ((congrArg (·.enter frame.unplaced) hs).trans (Session.unplaced_enter session frame).symm)
    have hread := readLines_unplaced ih hp
    rw [readTexts, texts, ← unplaced_linesOf options frame, henter, hread, SourceFile.readFile]
    rw [Reading.unplaced_andThen (fun session => ⟨[], session, none⟩) fun _ => ?_,
      Reading.andThen_nil]
    · rfl
    · have hend (session : Session) (finish : Option Position) :
          (session.reachEnd finish).unplaced = session.unplaced := by
        cases finish with
        | none => rfl
        | some position => exact Session.unplaced_moveTo session position
      rw [Reading.unplaced, Reading.filterMap_unplaced?_issues, hend]

end CPreprocessor

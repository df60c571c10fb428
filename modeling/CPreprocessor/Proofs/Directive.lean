import CPreprocessor.Directive
import CPreprocessor.Proofs.Expansion.Preserved
import CPreprocessor.Proofs.Literal.Merge

/-!
# What directives leave as it is

* `Effect`: the outcomes that a directive can have. `effect_execute`: it has one of them.
* `Effect.stack`, `Effect.has_macros`, `Effect.once`, `Effect.obstacle?`: it neither enters nor
  leaves a file, it keeps the bodies of all macros ordinary and every file that is read only once,
  and the file that it includes may be entered.
* `execute_moved`: one that includes no file does the same wherever it stands.
  `execute_of_not_isPragma`: one that is no pragma either does the same in every file.
* `operandJoins_of_quoted`: the literals in the operand of an include can be joined.
-/

namespace CPreprocessor.Directive

open Expansion Include

variable {files : Files.Tree} {options : Options} {session : Session} {frame : Frame}
  {hash keyword : Token} {operands : List Token}

/-- Whether a directive includes a file. -/
def Includes (keyword : Token) : Prop := keyword.kind = .identifier ∧ keyword.text = "include"

instance (keyword : Token) : Decidable (Includes keyword) := inferInstanceAs (Decidable (_ ∧ _))

/-! ## What a directive can do -/

/-- The outcomes of a directive: it fails, defines or forgets a macro, records a pragma, or, being
an include, changes the trace and may give a file that may be entered. -/
inductive Effect (session : Session) (keyword : Token) (operands : List Token) :
    Outcome → Prop where
  | failing (issue : Issue) :
      Effect session keyword operands { session, result := .error (.issue issue) }
  | defining {definition : Macro.Definition} {macros : Macro.Table} (hn : ¬Includes keyword)
      (hp : Macro.Definition.parse keyword.position operands = .ok definition)
      (hd : session.macros.define definition = .ok macros) :
      Effect session keyword operands (.changed { session with macros })
  | erasing (name : String) : Effect session keyword operands
      (.changed { session with macros := session.macros.erase name })
  | recording (pragmas : List Pragma) {once : List String} (ho : session.once ⊆ once) :
      Effect session keyword operands (.changed { session with pragmas, once })
  | including (hi : Includes keyword) (trace : List String)
      (result : Except Interruption (Option Included))
      (ho : ∀ included, result = .ok (some included) →
        session.stack.obstacle? included.frame.identity = none)
      (hl : ∀ fault, result = .error (.overlong fault) → trace = session.trace) :
      Effect session keyword operands
        ⟨(reference? session.macros operands).1, { session with trace }, result⟩

theorem effect_define (hn : ¬Includes keyword) :
    Effect session keyword operands (Directive.define session keyword operands) := by
  unfold Directive.define
  cases hp : Macro.Definition.parse keyword.position operands with
  | error issue => exact .failing issue
  | ok definition =>
    cases hd : session.macros.define definition with
    | error issue =>
      simp only [bind, Except.bind, hd]
      exact .failing issue
    | ok macros =>
      simp only [bind, Except.bind, hd]
      exact .defining hn hp hd

theorem effect_undefine :
    Effect session keyword operands (undefine session keyword operands) := by
  unfold undefine
  split
  · split
    · exact .erasing _
    · exact .failing _
  · exact .failing _

theorem effect_pragma :
    Effect session keyword operands (pragma session frame hash operands) := by
  unfold pragma
  split
  · exact .recording session.pragmas (List.subset_append_left _ _)
  · exact .recording _ (List.Subset.refl _)

/-- Opening a file changes nothing but the trace, and the file may be entered. Where it cannot be
opened, that is an issue. -/
theorem openFile_eq (files : Files.Tree) (session : Session) (frame : Frame) (keyword : Token)
    (reference : Reference) (path : Files.Path) :
    ∃ trace result, openFile files session frame keyword reference path =
        ⟨[], { session with trace }, result⟩ ∧
      (∀ included, result = .ok (some included) →
        session.stack.obstacle? included.frame.identity = none) ∧
      ∀ fault, result ≠ .error (.overlong fault) := by
  unfold openFile
  split
  · exact ⟨session.trace, .ok none, rfl, nofun, nofun⟩
  · dsimp only
    split
    · exact ⟨_, .error (.issue _), rfl, nofun, nofun⟩
    · next ho =>
      split
      · exact ⟨_, .error (.issue _), rfl, nofun, nofun⟩
      · refine ⟨_, .ok (some _), rfl, fun included hr => ?_, nofun⟩
        obtain rfl := Option.some.inj (Except.ok.inj hr)
        exact ho

theorem effect_includeFile (hi : Includes keyword) : Effect session keyword operands
    (includeFile files options session frame keyword operands) := by
  unfold includeFile
  dsimp only
  split
  · exact .including hi session.trace (.error (.issue _)) nofun nofun
  · next reference _ =>
    split
    · exact .including hi session.trace (.error (.overlong _)) nofun fun _ _ => rfl
    · exact .including hi session.trace (.error (.issue _)) nofun nofun
    · next path _ =>
      obtain ⟨trace, result, he, ho, hl⟩ := openFile_eq files session frame keyword reference path
      rw [he]
      exact .including hi trace result ho fun fault hr => absurd hr (hl fault)

theorem name_eq_include (keyword : Token) :
    (if keyword.kind = .identifier then keyword.text else "") = "include" ↔ Includes keyword := by
  by_cases hk : keyword.kind = .identifier
  · simp [Includes, hk]
  · simp [Includes, hk]

theorem effect_execute : Effect session keyword operands
    (execute files options session frame hash keyword operands) := by
  unfold execute
  dsimp only
  have hi := name_eq_include keyword
  generalize (if keyword.kind = .identifier then keyword.text else "") = name at hi ⊢
  split
  · next hd => exact effect_define fun h => absurd ((hi.2 h).symm.trans hd) (by decide)
  split
  · exact effect_undefine
  split
  · next hn => exact effect_includeFile (hi.1 hn)
  split
  · exact effect_pragma
  split
  · exact .failing _
  · exact .failing _

theorem execute_include (hi : Includes keyword) :
    execute files options session frame hash keyword operands =
      includeFile files options session frame keyword operands := by
  simp [execute, hi.1, hi.2]

/-- What comes of a directive that opens no file and does not break reading off: it fails or is done
with. -/
def Stays (result : Except Interruption (Option Included)) : Prop :=
  (∃ issue, result = .error (.issue issue)) ∨ result = .ok none

/-- A directive that includes no file opens none, looks none up, and expands no operand. -/
theorem Effect.stays {outcome : Outcome} (h : Effect session keyword operands outcome)
    (hi : ¬Includes keyword) : outcome.raised = [] ∧ Stays outcome.result := by
  cases h with
  | including hinc => exact absurd hinc hi
  | failing issue => exact ⟨rfl, .inl ⟨issue, rfl⟩⟩
  | defining | erasing | recording => exact ⟨rfl, .inr rfl⟩

/-- Reading is broken off only at an include, and where the search for its header is. -/
theorem locate_of_overlong {fault : Files.Overlong}
    (h : (execute files options session frame hash keyword operands).result =
      .error (.overlong fault)) :
    Includes keyword ∧ ∃ reference, (reference? session.macros operands).2 = some reference ∧
      reference.locate files options frame.directory = .error fault := by
  have he : Effect session keyword operands
      (execute files options session frame hash keyword operands) := effect_execute
  have hi : Includes keyword := by
    by_contra hi
    obtain ⟨issue, hs⟩ | hs := (he.stays hi).2
    · cases hs.symm.trans h
    · cases hs.symm.trans h
  rw [execute_include hi, includeFile] at h
  cases hn : (reference? session.macros operands).2 with
  | none =>
    simp only [hn] at h
    cases h
  | some reference =>
    refine ⟨hi, reference, rfl, ?_⟩
    simp only [hn] at h
    cases hl : reference.locate files options frame.directory with
    | error found =>
      simp only [hl] at h
      cases h
      rfl
    | ok found =>
      cases found with
      | none =>
        simp only [hl] at h
        cases h
      | some path =>
        simp only [hl] at h
        obtain ⟨_, _, ho, -, hnone⟩ := openFile_eq files session frame keyword reference path
        exact absurd ((congrArg Outcome.result ho).symm.trans h) (hnone fault)

/-! ## What it leaves as it is -/

/-- A directive neither enters nor leaves a file. -/
theorem Effect.stack {outcome : Outcome} (h : Effect session keyword operands outcome) :
    outcome.session.stack = session.stack := by
  cases h <;> rfl

/-- A directive keeps the bodies of all macros ordinary if its operands are. -/
theorem Effect.has_macros {outcome : Outcome} (h : Effect session keyword operands outcome)
    (hm : session.macros.Has Token.Ordinary)
    (ho : ¬Includes keyword → ∀ operand ∈ operands, operand.Ordinary) :
    outcome.session.macros.Has Token.Ordinary := by
  cases h with
  | failing => exact hm
  | defining hn hp hd =>
    exact Macro.Table.has_define hm (Macro.has_body_of_parse inherited_ordinary hp (ho hn)) hd
  | erasing name => exact Macro.Table.has_erase hm name
  | recording => exact hm
  | including => exact hm

/-- A file that is read only once stays so. -/
theorem Effect.once {outcome : Outcome} (h : Effect session keyword operands outcome) :
    session.once ⊆ outcome.session.once := by
  cases h with
  | recording _ ho => exact ho
  | failing | defining | erasing | including => exact List.Subset.refl _

/-- The file that a directive includes may be entered. -/
theorem Effect.obstacle? {outcome : Outcome} (h : Effect session keyword operands outcome)
    {included : Included} (hr : outcome.result = .ok (some included)) :
    outcome.session.stack.obstacle? included.frame.identity = none := by
  cases h with
  | failing => cases hr
  | defining => cases hr
  | erasing => cases hr
  | recording => cases hr
  | including hi trace result ho => exact ho included hr

/-- A directive that breaks reading off changes nothing. -/
theorem Effect.session_of_overlong {outcome : Outcome}
    (h : Effect session keyword operands outcome) {fault : Files.Overlong}
    (hr : outcome.result = .error (.overlong fault)) : outcome.session = session := by
  cases h with
  | failing | defining | erasing | recording => cases hr
  | including hi trace result _ hl =>
    obtain rfl := hl fault hr
    rfl

/-! ## Directives that include no file -/

/-- Whether a directive is a pragma. -/
def IsPragma (keyword : Token) : Prop := keyword.kind = .identifier ∧ keyword.text = "pragma"

instance (keyword : Token) : Decidable (IsPragma keyword) := inferInstanceAs (Decidable (_ ∧ _))

variable (files options session frame hash operands) in
/-- A directive that includes no file and is no pragma looks at nothing but the macros, and changes
nothing else. -/
theorem execute_of_not_isPragma (hi : ¬Includes keyword) (hp : ¬IsPragma keyword)
    (other : Session) (place : Frame) :
    let still := execute files options session frame hash keyword operands
    execute files options { other with macros := session.macros } place hash keyword operands =
      { still with session := { other with macros := still.session.macros } } := by
  have hn := mt (name_eq_include keyword).1 hi
  have hm : (if keyword.kind = .identifier then keyword.text else "") ≠ "pragma" := by
    intro h
    split at h
    · next hk => exact hp ⟨hk, h⟩
    · contradiction
  unfold execute
  dsimp only
  generalize (if keyword.kind = .identifier then keyword.text else "") = name at hn hm ⊢
  by_cases hd : name = "define"
  · simp only [if_pos hd, define]
    cases (do session.macros.define (← Macro.Definition.parse keyword.position operands) :
        Except Issue Macro.Table) with
    | error issue => rfl
    | ok macros => rfl
  by_cases hu : name = "undef"
  · simp only [if_neg hd, if_pos hu, undefine]
    cases operands with
    | nil => rfl
    | cons first others =>
      by_cases hk : first.kind = .identifier
      · simp only [if_pos hk]
        rfl
      · simp only [if_neg hk]
        rfl
  by_cases he : name = "error"
  · simp only [if_neg hd, if_neg hu, if_neg hn, if_neg hm, if_pos he]
    rfl
  · simp only [if_neg hd, if_neg hu, if_neg hn, if_neg hm, if_neg he]
    rfl

/-- A directive that includes no file does the same whatever is open and wherever reading has come
to. -/
theorem execute_moved (hi : ¬Includes keyword) (stack : Stack) (position : Position) :
    let still := execute files options session frame hash keyword operands
    execute files options { session with stack } { frame with position } hash keyword operands =
      { still with session := { still.session with stack } } := by
  by_cases hp : IsPragma keyword
  · unfold execute pragma
    simp only [hp.1, hp.2]
    cases isOnce operands with
    | true => rfl
    | false => rfl
  · intro still
    have hs : still = { still with session := { session with macros := still.session.macros } } :=
      execute_of_not_isPragma files options session frame hash operands hi hp session frame
    have hm := execute_of_not_isPragma files options session frame hash operands hi hp
      { session with stack } { frame with position }
    refine hm.trans ?_
    rw [hs]

/-! ## Literals in the operand of an include -/

/-- Whether the operand of an include is a header name, which is not expanded. -/
def isHeaderName : List Token → Bool
  | [name] => name.kind = .headerName
  | _ => false

/-- Whether the literals in the expanded operand of an include can be joined. -/
def operandJoins (table : Macro.Table) (operands : List Token) : Bool :=
  isHeaderName operands || (Literal.merge? ((expand table operands).filterMap Event.token?)).isSome

theorem operandJoins_of_quoted {table : Macro.Table} (ht : table.Has Token.Ordinary)
    (hq : ∀ operand ∈ operands, operand.Quoted) : operandJoins table operands := by
  have htq : table.Has Token.Quoted :=
    fun definition hd token hm => (ht definition hd token hm).quoted
  have hd := (has_drain inherited_quoted htq false hq).tokens
  have hm : (Literal.merge? (drain table false operands).tokens).isSome := by
    rw [Literal.merge?_eq hd]
    rfl
  exact Bool.or_eq_true_iff.2 (.inr hm)

end CPreprocessor.Directive

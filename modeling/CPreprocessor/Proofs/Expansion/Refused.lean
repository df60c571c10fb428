import CPreprocessor.Proofs.Expansion.Collect
import CPreprocessor.Proofs.Expansion.Turns

/-!
# Calls that are refused

A call whose parentheses do not close, or that gives a wrong number of arguments, is refused.
Nothing that was read for it is lost: its name comes out with itself hidden, and the tokens behind
the name are expanded as if no call had begun there.

* `Refusal name parameters rest fault`: what is wrong with a call, told from the tokens behind its
  opening parenthesis. `Head.step_eq_refuse_iff`: a call is refused for this reason only.
* `refused_call_goes_on`: what a refused call comes to.
-/

namespace CPreprocessor.Expansion

open Macro

variable {table : Table} {name opening closing : Token} {rest read behind : List Token}
  {callee : String} {parameters : Parameters} {fault : Fault}

/-- What is wrong with a call of the macro `callee`, given the tokens behind its opening
parenthesis. -/
inductive Refusal (callee : String) (parameters : Parameters) (rest : List Token) : Fault → Prop
  /-- The parentheses do not close before the file or the tokens end. -/
  | unclosed (h : Unclosed rest) : Refusal callee parameters rest (.invocationUnclosed callee)
  /-- They close, but not around the right number of arguments. -/
  | count {read behind : List Token} {closing : Token} (h : Encloses rest read closing behind)
      (hn : ¬Takes parameters (argumentsIn parameters read)) :
      Refusal callee parameters rest
        (.argumentCount callee parameters.variadic parameters.names.length
          (argumentsIn parameters read))

theorem Refusal.category (h : Refusal callee parameters rest fault) :
    fault.category = .argumentCount ∨ fault.category = .unterminatedInvocation := by
  cases h with
  | unclosed => exact .inr rfl
  | count => exact .inl rfl

theorem refusal_iff_of_unclosed (h : Unclosed rest) :
    Refusal callee parameters rest fault ↔ fault = .invocationUnclosed callee := by
  constructor
  · intro hr
    cases hr with
    | unclosed => rfl
    | count he => exact absurd he (h _ _ _)
  · rintro rfl
    exact .unclosed h

theorem refusal_iff_of_encloses (h : Encloses rest read closing behind) :
    Refusal callee parameters rest fault ↔
      ¬Takes parameters (argumentsIn parameters read) ∧
        fault = .argumentCount callee parameters.variadic parameters.names.length
          (argumentsIn parameters read) := by
  constructor
  · intro hr
    cases hr with
    | unclosed hu => exact absurd h (hu _ _ _)
    | count he hn =>
      obtain ⟨rfl, -, -⟩ := h.unique he
      exact ⟨hn, rfl⟩
  · rintro ⟨hn, rfl⟩
    exact .count h hn

/-! ## One call -/

theorem Head.refuse_inj {head : Head} {fault' : Fault} :
    head.refuse fault = head.refuse fault' ↔ fault' = fault := by
  simp [Head.refuse, Issue.placed, eq_comm]

/-- A call is refused exactly if its parentheses do not close, or close around a wrong number of
arguments. -/
theorem Head.step_eq_refuse_iff (head : Head) (hn : head.definition.name = head.site.text)
    (ho : opening.isPunctuator "(") :
    head.step false (opening :: rest) = head.refuse fault ↔
      Refusal head.site.text head.parameters rest fault := by
  have hopen (h : (collect 0 rest).isClosed = false) :
      head.refuse (.invocationUnclosed head.site.text) = head.refuse fault ↔
        Refusal head.site.text head.parameters rest fault := by
    rw [Head.refuse_inj, refusal_iff_of_unclosed (unclosed_iff.2 h)]
  unfold Head.step
  simp only [if_pos ho]
  cases hc : collect 0 rest with
  | ended | exhausted =>
    rw [hc] at hopen
    exact hopen rfl
  | closed first others closing behind =>
    obtain ⟨read, he⟩ := encloses_of_collect hc
    obtain ⟨first', others', hc', hl, hnil⟩ := collect_of_encloses he
    obtain ⟨rfl, rfl, -, -⟩ := Collected.closed.inj (hc'.symm.trans hc)
    have hb := @bindArguments_eq_error_iff head.definition.name head.parameters
      head.site.position (first' :: others') fault
    rw [length_givenArguments hl hnil, hn] at hb
    rw [refusal_iff_of_encloses he, ← hb, ← hn]
    dsimp only
    cases bindArguments head.definition.name head.parameters head.site.position
        (first' :: others') with
    | error => rw [Head.refuse_inj, Except.error.injEq, eq_comm]
    | ok => simp [Head.refuse]

/-- The step of a call that is refused. -/
theorem step_of_refusal {definition : Definition} (hk : name.kind = .identifier)
    (hh : name.text ∉ name.hide) (hf : table.find? name.text = some definition)
    (hp : definition.parameters = some parameters) (ho : opening.isPunctuator "(")
    (hr : Refusal name.text parameters rest fault) :
    step table false name (opening :: rest) =
      .refuse (.placed fault name.position) (name.paint name.text) := by
  have hn : definition.name = name.text := Table.name_of_find? hf
  have hs := (Head.step_eq_refuse_iff ⟨definition, parameters, name⟩ hn ho).2 hr
  rw [step, if_pos ⟨hk, hh⟩]
  simp only [hf, hp]
  rw [hs, Head.refuse, hn]

/-- What comes out of a call that is refused. -/
theorem expand_of_refusal {definition : Definition} (hk : name.kind = .identifier)
    (hh : name.text ∉ name.hide) (hf : table.find? name.text = some definition)
    (hp : definition.parameters = some parameters) (ho : opening.isPunctuator "(")
    (hr : Refusal name.text parameters rest fault) :
    expand table (name :: opening :: rest) =
      .issue (.placed fault name.position) :: .token (name.paint name.text) ::
        expand table (opening :: rest) := by
  unfold expand
  rw [drain_cons, step_of_refusal hk hh hf hp ho hr]
  rfl

/-- The painted name of a refused call does not begin a call when it is read again. -/
theorem passes_paint (table : Table) (name : Token) : Passes table (name.paint name.text) :=
  passes_of_mem_hide (HideSet.mem_insert.2 (.inl rfl))

/-- A call fails if its parentheses do not close before the file or the tokens end, or if they
close around a wrong number of arguments. Then its name comes out with itself hidden, followed by
what the tokens behind the name give, the opening parenthesis and all that was read behind it
included. The failure is reported once, at the name and before everything that these tokens
report, and not again when the name is read once more with the same tokens behind it. -/
theorem refused_call_goes_on (table : Table) {definition : Definition}
    (hk : name.kind = .identifier) (hh : name.text ∉ name.hide)
    (hf : table.find? name.text = some definition) (hp : definition.parameters = some parameters)
    (ho : opening.isPunctuator "(") (hr : Refusal name.text parameters rest fault) :
    expand table (name :: opening :: rest) =
        .issue (.placed fault name.position) :: .token (name.paint name.text) ::
          expand table (opening :: rest) ∧
      (expand table (name :: opening :: rest)).filterMap Event.token? =
        name.paint name.text :: (expand table (opening :: rest)).filterMap Event.token? ∧
      (expand table (name :: opening :: rest)).filterMap Event.issue? =
        .placed fault name.position :: (expand table (opening :: rest)).filterMap Event.issue? ∧
      (fault.category = .argumentCount ∨ fault.category = .unterminatedInvocation) ∧
      expand table (name.paint name.text :: opening :: rest) =
        .token (name.paint name.text) :: expand table (opening :: rest) := by
  have he := expand_of_refusal hk hh hf hp ho hr
  refine ⟨he, ?_, ?_, hr.category, expand_cons_of_passes (passes_paint table name) _⟩
  · rw [he]
    rfl
  · rw [he]
    rfl

/-- A token on the first line of a file. -/
def lineToken (kind : Token.Kind) (text : String) (column : Nat) : Token :=
  { kind, text, position := ⟨"main.c", 1, column⟩ }

/-- The macro that gives its only argument. -/
def identityMacro (name : String) : Definition :=
  ⟨name, some ⟨["x"], false⟩, [lineToken .identifier "x" 14], ⟨"main.c", 1, 9⟩⟩

/-- The tokens behind `F(G(` in `F(G(1,2)`, up to the end of the file. -/
def innerTokens : List Token :=
  [lineToken .number "1" 5, lineToken .punctuator "," 6, lineToken .number "2" 7,
    lineToken .punctuator ")" 8, lineToken .endOfFile "" 9]

/-- In `F(G(1,2)` the call of `F` is not closed, and the call of `G` behind it is closed around one
argument too many. -/
theorem refused_call_goes_on_inner_call :
    let table : Table := ⟨[identityMacro "F", identityMacro "G"]⟩
    let outer := lineToken .identifier "F" 1
    let inner := lineToken .identifier "G" 3
    let rest := inner :: lineToken .punctuator "(" 4 :: innerTokens
    expand table (outer :: lineToken .punctuator "(" 2 :: rest) =
        .issue ⟨.invocationUnclosed "F", some ⟨"main.c", 1, 1⟩⟩ :: .token (outer.paint "F") ::
          expand table (lineToken .punctuator "(" 2 :: rest) ∧
      expand table rest =
        .issue ⟨.argumentCount "G" false 1 2, some ⟨"main.c", 1, 3⟩⟩ ::
          .token (inner.paint "G") ::
          expand table (lineToken .punctuator "(" 4 :: innerTokens) := by
  refine ⟨(refused_call_goes_on _ rfl (by decide) rfl rfl (by decide) (.unclosed ?_)).1,
    (refused_call_goes_on _ rfl (by decide) rfl rfl (by decide) ?_).1⟩
  · exact unclosed_iff.2 (by decide)
  · have he : Encloses innerTokens (innerTokens.take 3) (lineToken .punctuator ")" 8)
        [lineToken .endOfFile "" 9] := by decide
    exact .count he (by decide)

end CPreprocessor.Expansion

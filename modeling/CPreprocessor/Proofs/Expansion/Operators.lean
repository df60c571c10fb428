import CPreprocessor.Proofs.Expansion.Preserved
import CPreprocessor.Proofs.Macro.WellFormed

/-!
# The operands of paste operators

Pasting goes over a filled in body from left to right and passes on an operator that has nothing on
one side as an ordinary token. For the macros that a run can have this never happens: a body begins
and ends with something other than an operator, and what stands beside an operator gives at least a
placemarker.

* `pasteBetween?`: pasting that fails at an operator with nothing on one side.
* `pasteBetween?_eq`: it does not fail where neither the first nor the last piece is an operator.
* `head?_fill`, `getLast?_fill`: this holds of a body without operators at its edges, whatever its
  parameters stand for.
* `operators_between`: so it holds in every call of a macro that a run can have.
-/

namespace CPreprocessor.Expansion

open Macro

variable {site : Position} {definition : Definition} {call : Invocation} {expanded : Bindings}

/-! ## Pasting between operands -/

/-- Pasting that takes an operator only between what has been produced, `before`, and a further
piece, and fails where one of them is missing. -/
def pasteBetween? (site : Position) : (before : List (Option Token)) → List Piece → Option Pasted
  | before, [] => some ⟨[], before⟩
  | left :: before, .paste _ :: right :: rest =>
    let joined := pasteOperands site left right.operand
    (pasteBetween? site (joined.reversed ++ before) rest).map fun more =>
      ⟨joined.issues ++ more.issues, more.reversed⟩
  | [], .paste _ :: _ => none
  | _ :: _, [.paste _] => none
  | before, .token token :: rest => pasteBetween? site (some token :: before) rest
  | before, .placemarker :: rest => pasteBetween? site (none :: before) rest

/-- Whether a piece is an operator. -/
def Piece.isOperator : Piece → Bool
  | paste _ => true
  | _ => false

/-- Of two operands, at least one or a placemarker is left. -/
theorem reversed_pasteOperands_ne_nil (site : Position) (left right : Option Token) :
    (pasteOperands site left right).reversed ≠ [] := by
  unfold pasteOperands
  split
  · exact List.cons_ne_nil _ _
  · exact List.cons_ne_nil _ _
  · split <;> exact List.cons_ne_nil _ _

/-- Whenever an operator is met, something has been produced before it and a piece follows, if the
pieces neither begin nor end with an operator. -/
theorem pasteBetween?_eq {before : List (Option Token)} {pieces : List Piece}
    (hf : before = [] → ∀ piece ∈ pieces.head?, piece.isOperator = false)
    (hl : ∀ piece ∈ pieces.getLast?, piece.isOperator = false) :
    pasteBetween? site before pieces = some (pasteFrom site before pieces) := by
  fun_induction pasteFrom site before pieces with
  | case1 => rfl
  | case2 left before operator right rest joined more ih =>
    have hproduced : joined.reversed ++ before ≠ [] := by
      intro hn
      exact reversed_pasteOperands_ne_nil _ _ _ (List.append_eq_nil_iff.1 hn).1
    have hrest : ∀ piece ∈ rest.getLast?, piece.isOperator = false := by
      intro piece hm
      cases rest with
      | nil => contradiction
      | cons next rest => exact hl piece (by simpa using hm)
    rw [pasteBetween?, ih (fun hn => absurd hn hproduced) hrest]
    rfl
  | case3 before piece rest hmiss ih =>
    have hrest : ∀ piece ∈ rest.getLast?, piece.isOperator = false := by
      intro piece hm
      cases rest with
      | nil => contradiction
      | cons next rest => exact hl piece (by simpa using hm)
    have hpass := ih (fun hn => absurd hn (List.cons_ne_nil _ _)) hrest
    cases piece with
    | token token | placemarker =>
      rw [pasteBetween?]
      exact hpass
    | paste operator =>
      -- An operator that is passed on is the first piece with nothing before it, or the last one.
      cases before with
      | nil => exact absurd (hf rfl _ rfl).symm Bool.false_ne_true
      | cons left before =>
        cases rest with
        | nil => exact absurd (hl _ rfl).symm Bool.false_ne_true
        | cons right rest => exact absurd rfl (hmiss left before operator right rest rfl rfl)

/-! ## Filled in bodies -/

/-- The pieces of some tokens of a body. -/
def Invocation.filled (call : Invocation) (expanded : Bindings) (afterPaste : Bool)
    (body : List Token) : List Piece :=
  (partsFrom call.definition afterPaste body).flatMap (call.fill expanded)

theorem isOperator_spaceFirst (space : Bool) (tokens : List Token) :
    ∀ piece ∈ (spaceFirst space tokens).map Piece.token, piece.isOperator = false := by
  intro piece hm
  obtain ⟨token, -, rfl⟩ := List.mem_map.1 hm
  rfl

/-- Only an operator of the body gives one, not what a parameter stands for. -/
theorem isOperator_of_mem_fill {token : Token} {pasted : Bool} (ht : token.isPaste = false)
    {piece : Piece} (hm : piece ∈ call.fill expanded (part call.definition pasted token)) :
    piece.isOperator = false := by
  unfold part at hm
  rw [if_neg (by simp [ht])] at hm
  split at hm
  · split at hm
    · unfold Invocation.fill at hm
      dsimp only at hm
      split at hm
      · rw [List.mem_singleton.1 hm]
        rfl
      · exact isOperator_spaceFirst _ _ piece hm
    · exact isOperator_spaceFirst _ _ piece hm
  · rw [List.mem_singleton.1 hm]
    rfl

/-- Beside an operator every token gives something. -/
theorem fill_ne_nil {token : Token} {pasted : Bool} (h : pasted ∨ token.isPaste) :
    call.fill expanded (part call.definition pasted token) ≠ [] := by
  unfold part
  split
  · exact List.cons_ne_nil _ _
  · next ht =>
    rw [if_pos (h.resolve_right ht)]
    split
    · unfold Invocation.fill
      dsimp only
      split
      · exact List.cons_ne_nil _ _
      · next hn => cases hb : call.bindings.get token.text <;> simp_all [spaceFirst]
    · exact List.cons_ne_nil _ _

theorem head?_filled {afterPaste : Bool} {body : List Token}
    (h : ∀ first ∈ body.head?, first.isPaste = false) :
    ∀ piece ∈ (call.filled expanded afterPaste body).head?, piece.isOperator = false := by
  unfold Invocation.filled
  fun_induction partsFrom call.definition afterPaste body with
  | case1 => exact fun piece hm => absurd hm (Option.not_mem_none piece)
  | case2 afterPaste last =>
    intro piece hm
    rw [List.flatMap_singleton] at hm
    exact isOperator_of_mem_fill (h last rfl) (List.mem_of_mem_head? hm)
  | case3 =>
    rintro piece ⟨⟩
    rfl
  | case4 afterPaste token next rest _ ih =>
    intro piece hm
    rw [List.flatMap_cons, List.head?_append] at hm
    cases hf : call.fill expanded (part call.definition (afterPaste || next.isPaste) token) with
    | nil =>
      -- Only a parameter away from operators may give nothing, so none follows it.
      have hn : next.isPaste = false := by
        refine Bool.eq_false_iff.2 fun hn => fill_ne_nil (.inl ?_) hf
        rw [hn, Bool.or_true]
      rw [hf] at hm
      exact ih (fun first hn' => Option.some.inj hn' ▸ hn) piece hm
    | cons first others =>
      rw [hf] at hm
      obtain rfl := Option.some.inj hm
      exact isOperator_of_mem_fill (h token rfl) (hf ▸ List.mem_cons_self)

/-- The pieces of tokens of a body that do not end with an operator do not either, and there are
some behind an operator. -/
theorem getLast?_filled {afterPaste : Bool} {body : List Token}
    (h : ∀ last ∈ body.getLast?, last.isPaste = false) :
    (∀ piece ∈ (call.filled expanded afterPaste body).getLast?, piece.isOperator = false) ∧
      (afterPaste → body ≠ [] → call.filled expanded afterPaste body ≠ []) := by
  unfold Invocation.filled
  fun_induction partsFrom call.definition afterPaste body with
  | case1 =>
    exact ⟨fun piece hm => absurd hm (Option.not_mem_none piece), fun _ hb => absurd rfl hb⟩
  | case2 afterPaste last =>
    rw [List.flatMap_singleton]
    refine ⟨fun piece hm => ?_, fun ha _ => fill_ne_nil (.inl ha)⟩
    exact isOperator_of_mem_fill (h last rfl) (List.mem_of_mem_getLast? hm)
  | case3 afterPaste token next rest _ ih =>
    have hrest : ∀ last ∈ rest.getLast?, last.isPaste = false := by
      intro last hm
      cases rest with
      | nil => contradiction
      | cons other rest => exact h last (by simpa using hm)
    refine ⟨fun piece hm => ?_, fun _ _ => List.cons_ne_nil _ _⟩
    rw [List.flatMap_cons, List.getLast?_append] at hm
    rcases Option.or_eq_some_iff.1 hm with hm | ⟨-, hm⟩
    · exact (ih hrest).1 piece hm
    · obtain rfl := Option.some.inj hm
      rfl
  | case4 afterPaste token next rest _ ih =>
    obtain ⟨hlast, hsome⟩ := ih h
    rw [List.flatMap_cons]
    refine ⟨fun piece hm => ?_, fun ha _ hn => ?_⟩
    · rw [List.getLast?_append] at hm
      rcases Option.or_eq_some_iff.1 hm with hm | ⟨hn, hm⟩
      · exact hlast piece hm
      · -- An operator has pieces behind it, so the last piece would not be its own.
        have ht : token.isPaste = false := by
          refine Bool.eq_false_iff.2 fun ht => ?_
          exact hsome ht (List.cons_ne_nil _ _) (List.getLast?_eq_none_iff.1 hn)
        exact isOperator_of_mem_fill ht (List.mem_of_mem_getLast? hm)
    · exact fill_ne_nil (.inl (by rw [ha, Bool.true_or])) (List.append_eq_nil_iff.1 hn).1

/-! ## Calls -/

/-- Pasting for a call takes every operator between what has been produced and a further piece,
whatever the expanded arguments are. -/
def Invocation.PastesBetween (call : Invocation) : Prop :=
  ∀ expanded, pasteBetween? call.site.position []
      ((parts call.definition).flatMap (call.fill expanded)) =
    some (pasteFrom call.site.position [] ((parts call.definition).flatMap (call.fill expanded)))

theorem pastesBetween_of_wellFormed (h : call.definition.WellFormed) : call.PastesBetween :=
  fun _ => pasteBetween?_eq (fun _ => head?_filled h.first) (getLast?_filled h.last).1

variable {table : Table}

/-- A call that replaces a name is of a definition in force. -/
theorem mem_entries_of_step {more : Bool} {token : Token} {rest behind : List Token}
    (h : step table more token rest = .invoke call behind) : call.definition ∈ table.entries := by
  unfold step at h
  split at h
  · split at h
    · contradiction
    · next definition found =>
      have hm := Table.mem_of_find? found
      split at h
      · obtain ⟨rfl, -⟩ := Step.invoke.inj h
        exact hm
      · rw [(Head.invokes_of_step h).2]
        exact hm
  · contradiction

/-- Every table that a run can have holds one well-formed definition for each of its names. At every
step of an expansion with it, those of arguments included, and in a call that was begun with one of
its definitions and is taken up again with another table, pasting meets no operator that has nothing
on one side. -/
theorem operators_between (h : table.Reachable) :
    table.WellFormed ∧
    (∀ name definition, table.find? name = some definition ↔
      definition ∈ table.entries ∧ definition.name = name) ∧
    (∀ more token rest call behind, step table more token rest = .invoke call behind →
      call.PastesBetween) ∧
    ∀ head : Head, head.definition ∈ table.entries → ∀ more rest call behind,
      head.step more rest = .invoke call behind → call.PastesBetween := by
  have hw := Table.wellFormed_of_reachable h
  refine ⟨hw, fun name definition => Table.find?_eq_some_iff hw.keys, ?_, ?_⟩
  · intro more token rest call behind hs
    exact pastesBetween_of_wellFormed (hw.definitions _ (mem_entries_of_step hs))
  · intro head hm more rest call behind hs
    refine pastesBetween_of_wellFormed (hw.definitions _ ?_)
    rw [(Head.invokes_of_step hs).2]
    exact hm

/-- A token of a definition on the command line. -/
def pairToken (kind : Token.Kind) (text : String) (column : Nat) (space : Bool := false) : Token :=
  { kind, text, position := ⟨"<command line>", 1, column⟩, space }

/-- The definition that `F(x,y)=#x ## y` on the command line makes. -/
def pairMacro : Definition :=
  { name := "F"
    parameters := some ⟨["x", "y"], false⟩
    body := [pairToken .punctuator "#" 8, pairToken .identifier "x" 9,
      pairToken .punctuator "##" 11 true, pairToken .identifier "y" 14 true]
    position := ⟨"<command line>", 1, 1⟩ }

/-- The definition that `F` alone makes behind `define`. -/
def emptyMacro : Definition := ⟨"F", none, [], ⟨"<command line>", 1, 1⟩⟩

/-- The tokens behind the name in `F(a,)`. -/
def pairArguments : List Token :=
  [pairToken .punctuator "(" 2, pairToken .identifier "a" 3, pairToken .punctuator "," 4,
    pairToken .punctuator ")" 5]

/-- The call `F(a,)`. -/
def pairCall : Invocation :=
  { definition := pairMacro
    site := pairToken .identifier "F" 1
    last := pairToken .punctuator ")" 5
    bindings := [("x", [pairToken .identifier "a" 3]), ("y", [])] }

/-- The table with this macro alone comes from the command line, also behind a definition that is in
conflict with it, and the operator of `F(a,)` stands between a literal and a placemarker. -/
theorem operators_between_empty_argument :
    Table.Reachable ⟨[pairMacro]⟩ ∧
      step ⟨[pairMacro]⟩ false (pairToken .identifier "F" 1) pairArguments = .invoke pairCall [] ∧
      pairCall.PastesBetween := by
  have hi : Table.initial ["F(x,y)=#x ## y"] ["__STDC_NO_ATOMICS__", "__STDC_NO_COMPLEX__",
      "__STDC_NO_THREADS__", "__STDC_NO_VLA__"] = .ok ⟨[pairMacro]⟩ := by decide +kernel
  have ho : (Operation.define emptyMacro).Sound :=
    .directive (by rfl : Definition.parse commandLine [pairToken .identifier "F" 1] = _)
  have hk : Table.apply ⟨[pairMacro]⟩ (.define emptyMacro) = ⟨[pairMacro]⟩ := by decide +kernel
  have hr : Table.Reachable ⟨[pairMacro]⟩ := hk ▸ .apply (.initial hi) ho
  have hs : step ⟨[pairMacro]⟩ false (pairToken .identifier "F" 1) pairArguments =
      .invoke pairCall [] := by decide +kernel
  exact ⟨hr, hs, (operators_between hr).2.2.1 _ _ _ _ _ hs⟩

end CPreprocessor.Expansion

import CPreprocessor.Expansion.Measure

/-!
# One step of expansion

What becomes of the next token: it is passed on, or it begins a call that is replaced, or the call
is refused, or more tokens are needed to tell.

- `Invokes`: how a call that is replaced lies in the tokens it was read from.
-/

namespace CPreprocessor.Expansion

open Macro

/-- The name of a function-like macro where it may begin a call. -/
structure Head where
  definition : Definition
  parameters : Parameters
  site : Token
deriving DecidableEq

/-- A call that has begun, with the tokens read behind its name. -/
structure Suspended where
  head : Head
  read : List Token
deriving DecidableEq

/-- What becomes of a token. -/
inductive Step where
  /-- A token is passed on. -/
  | emit (token : Token)
  /-- A call is refused, and its name is passed on with itself hidden. -/
  | refuse (issue : Issue) (painted : Token)
  /-- More tokens are needed. -/
  | wait (suspended : Suspended)
  /-- A call is replaced, and the tokens behind it follow. -/
  | invoke (call : Invocation) (rest : List Token)
deriving DecidableEq

namespace Head

/-- The step that refuses a call. -/
def refuse (head : Head) (fault : Fault) : Step :=
  .refuse (.placed fault head.site.position) (head.site.paint head.definition.name)

/-- What becomes of a name that may begin a call, given the tokens behind it. If `more` tokens can
come, an unfinished call waits for them. -/
def step (head : Head) (more : Bool) (rest : List Token) : Step :=
  match rest with
  | [] => if more then .wait ⟨head, []⟩ else .emit head.site
  | opening :: tail =>
    if opening.isPunctuator "(" then
      match collect 0 tail with
      | .exhausted =>
        if more then .wait ⟨head, rest⟩ else head.refuse (.invocationUnclosed head.site.text)
      | .ended => head.refuse (.invocationUnclosed head.site.text)
      | .closed first others closing behind =>
        match bindArguments head.definition.name head.parameters head.site.position
            (first :: others) with
        | .error fault => head.refuse fault
        | .ok bindings => .invoke ⟨head.definition, head.site, closing, bindings⟩ behind
    else .emit head.site

end Head

/-- What a name stands for without a definition: the file or the line it is written in. -/
def builtin (token : Token) : Token :=
  if token.text = "__FILE__" then
    { token with kind := .string, text := Literal.quote token.position.file }
  else if token.text = "__LINE__" then
    { token with kind := .number, text := toString token.position.line }
  else token

/-- What becomes of the first of several tokens. -/
def step (table : Table) (more : Bool) (token : Token) (rest : List Token) : Step :=
  if token.kind = .identifier ∧ token.text ∉ token.hide then
    match table.find? token.text with
    | none => .emit (builtin token)
    | some definition =>
      match definition.parameters with
      | none => .invoke ⟨definition, token, token, []⟩ rest
      | some parameters => Head.step ⟨definition, parameters, token⟩ more rest
  else .emit token

/-! ## Calls that are replaced -/

/-- A call at the front of `token :: rest` ends where `behind` begins. -/
structure Invokes (token : Token) (rest : List Token) (call : Invocation) (behind : List Token) :
    Prop where
  site : call.site = token
  covers : ∃ front, token :: rest = front ++ behind ∧ call.last ∈ front ∧ token ∈ front
  last : call.last = token ∨ isGuard call.last
  arguments : ∀ name, Thins (call.bindings.get name) rest

theorem Head.invokes_of_step {head : Head} {more : Bool} {rest behind : List Token}
    {call : Invocation} (h : head.step more rest = .invoke call behind) :
    Invokes head.site rest call behind ∧ call.definition = head.definition := by
  unfold Head.step at h
  split at h
  · split at h <;> contradiction
  · next opening tail =>
    split at h
    · split at h
      · split at h <;> contradiction
      · contradiction
      · next first others closing behind' collected =>
        split at h
        · contradiction
        · next bindings bound =>
          obtain ⟨rfl, rfl⟩ := Step.invoke.inj h
          obtain ⟨read, rfl, isClosing, thin⟩ := collect_split head.site.position collected
          refine ⟨⟨rfl, ⟨head.site :: opening :: read ++ [closing], by simp, by simp, by simp⟩,
            .inr (by simp [isGuard, isClosing]), fun name => ?_⟩, rfl⟩
          exact ((thins_bindArguments bound thin name).append_right _).skip opening
    · contradiction

theorem invokes_of_step {table : Table} {more : Bool} {token : Token} {rest behind : List Token}
    {call : Invocation} (h : step table more token rest = .invoke call behind) :
    Invokes token rest call behind ∧ call.definition.name ∈ table.names ∧
      token.kind = .identifier ∧ call.definition.name ∉ token.hide := by
  unfold step at h
  split at h
  · next eligible =>
    split at h
    · contradiction
    · next definition found =>
      have named := Table.name_of_find? found
      have listed : definition.name ∈ table.names :=
        List.mem_map_of_mem (Table.mem_of_find? found)
      have bare : definition.name ∉ token.hide := by
        rw [named]
        exact eligible.2
      split at h
      · obtain ⟨rfl, rfl⟩ := Step.invoke.inj h
        exact ⟨⟨rfl, ⟨[token], rfl, by simp, by simp⟩, .inl rfl, fun _ => .nil _⟩, listed,
          eligible.1, bare⟩
      · obtain ⟨invokes, same⟩ := Head.invokes_of_step h
        rw [same]
        exact ⟨invokes, listed, eligible.1, bare⟩
  · contradiction

/-- An argument of a call has less left to expand than the tokens it was read from. -/
theorem less_of_mem_wanted {table : Table} {token : Token} {rest behind : List Token}
    {call : Invocation} (invokes : Invokes token rest call behind) {pair : String × List Token}
    (member : pair ∈ call.wanted) : Less table pair.2 (token :: rest) := by
  obtain ⟨name, -, rfl⟩ := List.mem_map.1 member
  exact weigh_thins token (invokes.arguments name)

/-- A replacement and what follows it have less left to expand than the call. -/
theorem less_of_step {table : Table} {more : Bool} {token : Token} {rest behind : List Token}
    {call : Invocation} (h : step table more token rest = .invoke call behind)
    (expanded : Bindings) :
    Less table ((call.replacement expanded).2 ++ behind) (token :: rest) := by
  obtain ⟨⟨site, ⟨front, split, lastInside, tokenInside⟩, last, -⟩, listed, named, bare⟩ :=
    invokes_of_step h
  have guard : isGuard token := by simp [isGuard, named]
  have guardLast : isGuard call.last := by
    rcases last with same | closing
    · rw [same]
      exact guard
    · exact closing
  rw [split]
  refine weigh_replace listed (exposeAll_iff.2 (.inr ⟨token, tokenInside, guard, bare⟩)) ?_ ?_
  · intro produced member
    exact Invocation.mem_hide_of_mem_replacement member (Invocation.mem_hide.2 (.inl rfl))
  · intro produced member other missing
    have uncovered : ¬(other ∈ call.site.hide ∧ other ∈ call.last.hide) := fun covered =>
      missing (Invocation.mem_hide_of_mem_replacement member (Invocation.mem_hide.2 (.inr covered)))
    rw [site] at uncovered
    by_cases atSite : other ∈ token.hide
    · exact exposeAll_iff.2 (.inr ⟨call.last, lastInside, guardLast,
        fun atLast => uncovered ⟨atSite, atLast⟩⟩)
    · exact exposeAll_iff.2 (.inr ⟨token, tokenInside, guard, atSite⟩)

end CPreprocessor.Expansion

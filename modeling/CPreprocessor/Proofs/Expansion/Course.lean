import CPreprocessor.Proofs.Expansion.Preserved

/-!
# The course of an expansion

An expansion works on one list of tokens after the other: it reads the first token, puts a
replacement in front of the others, and expands the arguments of a call on their own.

* `Comes`: a list of tokens that an expansion comes to on the way. `Comes.carries`: what goes
  through an expansion holds in all of them.
* `exists_comes_of_mem_expand`: what comes out comes out at some step.
* `Comes.issues_within`: what is reported from such a list on is reported in the whole expansion.
* `raised_expandUnreported`: the first issue ends an expansion where nothing takes issues.
-/

namespace CPreprocessor.Expansion

open Macro

variable {table : Table} {tokens list rest behind : List Token} {token : Token} {call : Invocation}

/-- The expansion of some tokens comes to a list: it reads the list next, or expands it on its own
as an argument of a call. -/
inductive Comes (table : Table) (tokens : List Token) : List Token → Prop where
  | start : Comes table tokens tokens
  | next {token : Token} {rest : List Token} (h : Comes table tokens (token :: rest)) :
      Comes table tokens ((step table false token rest).next table rest)
  | argument {token : Token} {rest behind : List Token} {call : Invocation}
      {wanted : String × List Token} (h : Comes table tokens (token :: rest))
      (hs : step table false token rest = .invoke call behind) (hw : wanted ∈ call.wanted) :
      Comes table tokens wanted.2

section Carried

variable {names : String → Prop} {B L : Token → Prop} (hi : Carried names B L)
  (ht : table.Has B) (hn : ∀ name ∈ table.names, names name) (hp : ∀ token ∈ tokens, L token)
include hi ht hn

/-- One step carries the properties on to the tokens that are read next. -/
theorem carries_next (hl : ∀ other ∈ token :: rest, L other) :
    ∀ other ∈ (step table false token rest).next table rest, L other := by
  obtain ⟨hf, hr⟩ := List.forall_mem_cons.1 hl
  have hs := carries_step hi ht hn false hf hr
  cases hstep : step table false token rest with
  | emit | refuse | wait => exact hr
  | invoke call behind =>
    rw [hstep] at hs
    have ha : ∀ wanted ∈ call.wanted, (drain table false wanted.2).Carries names B L :=
      fun wanted hw => carries_drain hi ht hn false (carries_wanted hs.1 wanted hw)
    exact List.forall_mem_append.2 ⟨carries_result hi hs.1 ha, hs.2⟩

include hp

/-- The properties hold in every list that an expansion comes to. -/
theorem Comes.carries (h : Comes table tokens list) : ∀ other ∈ list, L other := by
  induction h with
  | start => exact hp
  | next _ ih => exact carries_next hi ht hn ih
  | argument _ hs hw ih =>
    obtain ⟨hf, hr⟩ := List.forall_mem_cons.1 ih
    have hc := carries_step hi ht hn false hf hr
    rw [hs] at hc
    exact carries_wanted hc.1 _ hw

/-- They hold in every call that is replaced on the way. -/
theorem Comes.carries_call (h : Comes table tokens (token :: rest))
    (hs : step table false token rest = .invoke call behind) : call.Carries names B L := by
  obtain ⟨hf, hr⟩ := List.forall_mem_cons.1 (h.carries hi ht hn hp)
  have hc := carries_step hi ht hn false hf hr
  rw [hs] at hc
  exact hc.1

end Carried

/-- What comes out of an expansion comes out at a step. -/
theorem exists_comes_of_mem_expand {event : Event} (h : event ∈ expand table tokens) :
    ∃ token rest, Comes table tokens (token :: rest) ∧
      event ∈ (step table false token rest).events table := by
  suffices hall : ∀ list, Comes table tokens list → event ∈ expand table list →
      ∃ token rest, Comes table tokens (token :: rest) ∧
        event ∈ (step table false token rest).events table from hall tokens .start h
  intro list
  induction list using expand_induction table with
  | nil =>
    intro _ hm
    rw [expand_nil] at hm
    contradiction
  | cons token rest _ ih =>
    intro hc hm
    rw [expand_cons] at hm
    rcases List.mem_append.1 hm with hm | hm
    · exact ⟨token, rest, hc, hm⟩
    · exact ih hc.next hm

/-- The issues that an expansion raises. -/
def raised (table : Table) (tokens : List Token) : List Issue :=
  (expand table tokens).filterMap Event.issue?

/-- Where nothing takes the issues, the first one is raised. -/
theorem raised_expandUnreported (table : Table) (tokens : List Token) :
    (expandUnreported table tokens).raised = (raised table tokens).head? := by
  rw [expandUnreported, raised]
  induction expand table tokens with
  | nil => rfl
  | cons event rest ih =>
    cases event with
    | token produced => exact ih
    | issue issue => rfl

theorem raised_cons (table : Table) (token : Token) (rest : List Token) :
    raised table (token :: rest) =
      ((step table false token rest).events table).filterMap Event.issue? ++
        raised table ((step table false token rest).next table rest) := by
  rw [raised, expand_cons, List.filterMap_append]
  rfl

/-- The issues of a call are those of its arguments and those of its pastes. -/
theorem raised_of_invoke (hs : step table false token rest = .invoke call behind) :
    raised table (token :: rest) =
      call.wanted.flatMap (fun wanted => raised table wanted.2) ++ (call.result table).1 ++
        raised table ((call.result table).2 ++ behind) := by
  rw [raised_cons, hs]
  simp only [Step.events, Step.next, Invocation.events, filterMap_issue?_callEvents,
    Invocation.arguments, List.flatMap_map]
  rfl

/-- What is reported from a list on is reported in the whole expansion, one issue right behind the
other. -/
theorem Comes.issues_within (h : Comes table tokens list) :
    raised table list <:+: raised table tokens := by
  induction h with
  | start => exact List.infix_refl _
  | @next token rest _ ih =>
    refine List.IsInfix.trans ?_ ih
    rw [raised_cons]
    exact (List.suffix_append _ _).isInfix
  | @argument token rest behind call wanted _ hs hw ih =>
    refine List.IsInfix.trans ?_ ih
    obtain ⟨before, after, hsplit⟩ := List.append_of_mem hw
    rw [raised_of_invoke hs, hsplit, List.flatMap_append, List.flatMap_cons, List.append_assoc,
      List.append_assoc, List.append_assoc]
    exact ⟨_, _, List.append_assoc _ _ _⟩

end CPreprocessor.Expansion

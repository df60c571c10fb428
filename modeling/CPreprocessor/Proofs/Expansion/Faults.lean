import CPreprocessor.Proofs.Expansion.Preserved

/-!
# The faults that expansion finds

Expansion finds fault with calls and with pastes, and with nothing else.

* `category_pasteFrom`, `category_step`: what pasting and a step report.
* `category_drain`: what a whole expansion reports, that of the arguments of a call included.
-/

namespace CPreprocessor

/-- The families of what can be wrong with a call or a paste. -/
def Category.ofExpansion : List Category := [.argumentCount, .unterminatedInvocation, .invalidPaste]

namespace Expansion

variable {table : Macro.Table} {more : Bool} {token painted : Token} {rest : List Token}
  {issue : Issue}

theorem category_pasteOperands (site : Position) (left right : Option Token) :
    ∀ issue ∈ (pasteOperands site left right).issues,
      issue.fault.category ∈ Category.ofExpansion := by
  unfold pasteOperands
  split
  · exact List.forall_mem_nil _
  · exact List.forall_mem_nil _
  · split
    · exact List.forall_mem_nil _
    · exact List.forall_mem_singleton.2 (.tail _ (.tail _ (.head _)))

/-- A paste that gives no token is all that pasting reports. -/
theorem category_pasteFrom (site : Position) (before : List (Option Token)) (pieces : List Piece) :
    ∀ issue ∈ (pasteFrom site before pieces).issues,
      issue.fault.category ∈ Category.ofExpansion := by
  fun_induction pasteFrom site before pieces with
  | case1 => exact List.forall_mem_nil _
  | case2 left before operator right rest joined more ih =>
    exact List.forall_mem_append.2 ⟨category_pasteOperands site _ _, ih⟩
  | case3 before piece rest hn ih => exact ih

theorem category_bindArguments {name : String} {parameters : Macro.Parameters}
    {position : Position} {arguments : List (List Token)} {fault : Fault}
    (h : bindArguments name parameters position arguments = .error fault) :
    fault.category ∈ Category.ofExpansion := by
  unfold bindArguments at h
  dsimp only at h
  split at h
  · split at h
    · obtain rfl := Except.error.inj h
      exact .head _
    · contradiction
  · split at h
    · obtain rfl := Except.error.inj h
      exact .head _
    · contradiction

/-- A call is refused for its arguments, or because it is not closed. -/
theorem Head.category_step {head : Head} (h : head.step more rest = .refuse issue painted) :
    issue.fault.category ∈ Category.ofExpansion := by
  have hopen : ∀ name, head.refuse (.invocationUnclosed name) = .refuse issue painted →
      issue.fault.category ∈ Category.ofExpansion := by
    intro name hr
    obtain ⟨rfl, -⟩ := Step.refuse.inj hr
    exact .tail _ (.head _)
  unfold Head.step at h
  split at h
  · split at h
    · contradiction
    · contradiction
  · split at h
    · split at h
      · split at h
        · contradiction
        · exact hopen _ h
      · exact hopen _ h
      · split at h
        · next hb =>
          obtain ⟨rfl, -⟩ := Step.refuse.inj h
          exact category_bindArguments hb
        · contradiction
    · contradiction

theorem category_step (h : step table more token rest = .refuse issue painted) :
    issue.fault.category ∈ Category.ofExpansion := by
  unfold step at h
  split at h
  · split at h
    · contradiction
    · split at h
      · contradiction
      · exact Head.category_step h
  · contradiction

/-- Faults of calls and pastes are all that an expansion reports. -/
theorem category_drain (table : Macro.Table) (more : Bool) (tokens : List Token) :
    ∀ issue ∈ (drain table more tokens).issues, issue.fault.category ∈ Category.ofExpansion := by
  induction more, tokens using drain_induction table with
  | nil more =>
    rw [drain_nil]
    exact List.forall_mem_nil _
  | emit more token rest produced hs ih =>
    rw [drain_cons, hs, Step.proceed, Progress.issues_after]
    exact ih
  | refuse more token rest issue painted hs ih =>
    rw [drain_cons, hs, Step.proceed, Progress.issues_after]
    exact List.forall_mem_cons.2 ⟨category_step hs, ih⟩
  | wait more token rest suspended hs =>
    rw [drain_cons, hs]
    exact List.forall_mem_nil _
  | invoke more token rest call behind hs iha ih =>
    rw [drain_cons, hs, Step.proceed, Progress.issues_after, Invocation.events,
      filterMap_issue?_callEvents]
    refine List.forall_mem_append.2 ⟨List.forall_mem_append.2 ⟨fun issue hm => ?_, ?_⟩, ih⟩
    · obtain ⟨argument, ha, hm⟩ := List.mem_flatMap.1 hm
      obtain ⟨wanted, hw, rfl⟩ := List.mem_map.1 ha
      exact iha wanted hw issue hm
    · exact category_pasteFrom _ _ _

end Expansion

end CPreprocessor

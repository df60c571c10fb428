import CPreprocessor.Proofs.Expansion.Drain
import Mathlib.Algebra.GroupWithZero.Nat

/-!
# The turns of expansion

Expansion goes on in turns. A turn takes the next token and passes it on, or puts something else
in front of the tokens behind it: the value of a built-in name, the painted name of a call that
is refused, or the replacement of a call, whose arguments are expanded by loops of their own
first. What is put there is read again by the next turns.

* `Follows table few many`: a loop that has `many` before it goes on with `few` after one turn,
  or that turn begins to expand the argument `few`. The replacement is taken for every value that
  the expanded arguments could have. `wellFounded_follows`: no chain of these is endless.
* `Drains table more tokens turns p`: the loop over `tokens` comes to its end after `turns` turns,
  those of the loops inside it included, and produces `p`. `drains_drain`: every loop does;
  `Drains.unique`: in one way only.
* `expansion_halts`: both, for a text that nothing follows.
* `Feeds`: the same for the next tokens of a text that comes in parts. `feeds_feed`: every part
  comes to its end; `Feeds.unique`: in one way only.
-/

namespace CPreprocessor.Expansion

open Macro

variable {table : Table} {more : Bool} {token : Token} {rest : List Token}

/-! ## Tokens that are passed on wherever they stand -/

/-- The token is passed on whatever stands behind it. -/
def Passes (table : Table) (token : Token) : Prop :=
  ∀ more rest, step table more token rest = .emit token

theorem passes_of_kind (h : token.kind ≠ .identifier) : Passes table token := by
  intro more rest
  rw [step, if_neg (fun hc => h hc.1)]

theorem passes_of_mem_hide (h : token.text ∈ token.hide) : Passes table token := by
  intro more rest
  rw [step, if_neg (fun hc => hc.2 h)]

theorem expand_cons_of_passes (h : Passes table token) (rest : List Token) :
    expand table (token :: rest) = .token token :: expand table rest := by
  unfold expand
  rw [drain_cons, h]
  rfl

theorem kind_builtin (h : builtin token ≠ token) : (builtin token).kind ≠ .identifier := by
  by_cases hf : token.text = "__FILE__"
  · simp [builtin, hf]
  · by_cases hl : token.text = "__LINE__"
    · simp [builtin, hl]
    · exact absurd (by simp [builtin, hf, hl]) h

theorem Head.emit_eq {head : Head} {produced : Token}
    (h : head.step more rest = .emit produced) : produced = head.site := by
  unfold Head.step at h
  split at h
  · split at h
    · contradiction
    · exact (Step.emit.inj h).symm
  · split at h
    · split at h
      · split at h <;> simp [Head.refuse] at h
      · simp [Head.refuse] at h
      · split at h <;> simp [Head.refuse] at h
    · exact (Step.emit.inj h).symm

theorem Head.refuse_eq {head : Head} {issue : Issue} {painted : Token}
    (h : head.step more rest = .refuse issue painted) :
    painted = head.site.paint head.definition.name := by
  unfold Head.step at h
  split at h
  · split at h <;> contradiction
  · split at h
    · split at h
      · split at h
        · contradiction
        · exact (Step.refuse.inj h).2.symm
      · exact (Step.refuse.inj h).2.symm
      · split at h
        · exact (Step.refuse.inj h).2.symm
        · contradiction
    · contradiction

/-- What comes out for a token is the token itself, or a value that is passed on when it is read
again. -/
theorem passes_of_emit {produced : Token} (h : step table more token rest = .emit produced) :
    produced = token ∨ Passes table produced := by
  unfold step at h
  split at h
  · split at h
    · obtain rfl := Step.emit.inj h
      by_cases hb : builtin token = token
      · exact .inl hb
      · exact .inr (passes_of_kind (kind_builtin hb))
    · split at h
      · contradiction
      · exact .inl (Head.emit_eq h)
  · exact .inl (Step.emit.inj h).symm

/-- The painted name of a refused call is passed on when it is read again. -/
theorem passes_of_refuse {issue : Issue} {painted : Token}
    (h : step table more token rest = .refuse issue painted) : Passes table painted := by
  unfold step at h
  split at h
  · split at h
    · contradiction
    · next definition found =>
      split at h
      · contradiction
      · rw [Head.refuse_eq h]
        apply passes_of_mem_hide
        exact HideSet.mem_insert.2 (.inl (Table.name_of_find? found).symm)
  · contradiction

/-! ## No endless chain of turns -/

/-- A loop over the second list goes on with the first one after a turn, or expands it in that
turn as an argument. -/
inductive Follows (table : Table) : List Token → List Token → Prop where
  | pass {token : Token} {rest : List Token} :
      step table false token rest = .emit token → Follows table rest (token :: rest)
  | builtin {token produced : Token} {rest : List Token} :
      step table false token rest = .emit produced → produced ≠ token →
      Follows table (produced :: rest) (token :: rest)
  | refuse {token painted : Token} {issue : Issue} {rest : List Token} :
      step table false token rest = .refuse issue painted →
      Follows table (painted :: rest) (token :: rest)
  | argument {token : Token} {rest behind : List Token} {call : Invocation}
      {wanted : String × List Token} :
      step table false token rest = .invoke call behind → wanted ∈ call.wanted →
      Follows table wanted.2 (token :: rest)
  | replace {token : Token} {rest behind : List Token} {call : Invocation} (expanded : Bindings) :
      step table false token rest = .invoke call behind →
      Follows table ((call.replacement expanded).2 ++ behind) (token :: rest)

/-- Behind a token that is passed on, only the tokens behind it follow. -/
theorem acc_of_passes (hp : Passes table token) (h : Acc (Follows table) rest) :
    Acc (Follows table) (token :: rest) := by
  refine .intro _ fun few hf => ?_
  cases hf with
  | pass _ => exact h
  | builtin hs hne => exact absurd (Step.emit.inj ((hp false rest).symm.trans hs)).symm hne
  | refuse hs => cases (hp false rest).symm.trans hs
  | argument hs _ => cases (hp false rest).symm.trans hs
  | replace _ hs => cases (hp false rest).symm.trans hs

theorem wellFounded_less (table : Table) : WellFounded (Less table) :=
  InvImage.wf (weigh table) (WellFoundedRelation.wf)

/-- Whatever the macros and hide sets are, every chain of turns and of arguments inside them comes
to an end. -/
theorem wellFounded_follows (table : Table) : WellFounded (Follows table) := by
  refine ⟨fun tokens => ?_⟩
  induction tokens using (wellFounded_less table).induction with
  | _ tokens ih =>
    refine .intro _ fun few hf => ?_
    -- A value or a painted name may weigh as much as the name that it stands for, but what
    -- follows it does not.
    cases hf with
    | pass _ => exact ih _ (weigh_tail _ _)
    | builtin hs hne =>
      exact acc_of_passes ((passes_of_emit hs).resolve_left hne) (ih _ (weigh_tail _ _))
    | refuse hs => exact acc_of_passes (passes_of_refuse hs) (ih _ (weigh_tail _ _))
    | argument hs hw => exact ih _ (less_of_mem_wanted (invokes_of_step hs).1 hw)
    | replace expanded hs => exact ih _ (less_of_step hs expanded)

/-! ## Counting turns -/

/-- The loop over some tokens comes to its end, or to a call that waits for more of them, after so
many turns, and produces so much. The arguments of a call have loops of their own, whose turns
count. -/
inductive Drains (table : Table) : Bool → List Token → Nat → Progress → Prop where
  | done {more : Bool} : Drains table more [] 0 .done
  | pass {more : Bool} {token : Token} {rest : List Token} {turns : Nat} {p : Progress}
      (hs : step table more token rest = .emit token) (h : Drains table more rest turns p) :
      Drains table more (token :: rest) (turns + 1) (p.after [.token token])
  | builtin {more : Bool} {token produced : Token} {rest : List Token} {turns : Nat} {p : Progress}
      (hs : step table more token rest = .emit produced) (hne : produced ≠ token)
      (h : Drains table more (produced :: rest) turns p) :
      Drains table more (token :: rest) (turns + 1) p
  | refuse {more : Bool} {token painted : Token} {issue : Issue} {rest : List Token} {turns : Nat}
      {p : Progress} (hs : step table more token rest = .refuse issue painted)
      (h : Drains table more (painted :: rest) turns p) :
      Drains table more (token :: rest) (turns + 1) (p.after [.issue issue])
  | wait {more : Bool} {token : Token} {rest : List Token} {suspended : Suspended}
      (hs : step table more token rest = .wait suspended) :
      Drains table more (token :: rest) 1 ⟨[], some suspended⟩
  | invoke {more : Bool} {token : Token} {rest behind : List Token} {call : Invocation}
      {turns : Nat} {p : Progress} {cost : List Token → Nat} {result : List Token → Progress}
      (hs : step table more token rest = .invoke call behind)
      (ha : ∀ wanted ∈ call.wanted, Drains table false wanted.2 (cost wanted.2) (result wanted.2))
      (h : Drains table more
        ((call.replacement (expandedBindings (call.wanted.map fun w => (w.1, result w.2)))).2 ++
          behind) turns p) :
      Drains table more (token :: rest) (turns + (call.wanted.map fun w => cost w.2).sum + 1)
        (p.after (callEvents (call.wanted.map fun w => (w.1, result w.2))
          (call.replacement (expandedBindings (call.wanted.map fun w => (w.1, result w.2)))).1))

theorem Drains.of_passes {turns : Nat} {p : Progress} (hp : Passes table token)
    (h : Drains table more rest turns p) :
    Drains table more (token :: rest) (turns + 1) (p.after [.token token]) :=
  .pass (hp more rest) h

/-- The turns of some loops as a function of the tokens that they are over. -/
theorem exists_cost {arguments : List (String × List Token)}
    (h : ∀ wanted ∈ arguments, ∃ turns,
      Drains table false wanted.2 turns (drain table false wanted.2)) :
    ∃ cost : List Token → Nat, ∀ wanted ∈ arguments,
      Drains table false wanted.2 (cost wanted.2) (drain table false wanted.2) := by
  have hall : ∀ tokens, ∃ turns, (∃ wanted ∈ arguments, wanted.2 = tokens) →
      Drains table false tokens turns (drain table false tokens) := by
    intro tokens
    by_cases hw : ∃ wanted ∈ arguments, wanted.2 = tokens
    · obtain ⟨wanted, hw, rfl⟩ := hw
      obtain ⟨turns, ht⟩ := h wanted hw
      exact ⟨turns, fun _ => ht⟩
    · exact ⟨0, fun hn => absurd hn hw⟩
  obtain ⟨cost, hc⟩ := Classical.axiomOfChoice hall
  exact ⟨cost, fun wanted hw => hc wanted.2 ⟨wanted, hw, rfl⟩⟩

/-- Every loop comes to its end. -/
theorem drains_drain (table : Table) (more : Bool) (tokens : List Token) :
    ∃ turns, Drains table more tokens turns (drain table more tokens) := by
  induction more, tokens using drain_induction table with
  | nil more => exact ⟨0, by rw [drain_nil]; exact .done⟩
  | emit more token rest produced hs ih =>
    obtain ⟨turns, h⟩ := ih
    rw [drain_cons, hs]
    by_cases hne : produced = token
    · subst hne
      exact ⟨_, .pass hs h⟩
    · exact ⟨_, .builtin hs hne (.of_passes ((passes_of_emit hs).resolve_left hne) h)⟩
  | refuse more token rest issue painted hs ih =>
    obtain ⟨turns, h⟩ := ih
    rw [drain_cons, hs]
    have hp := Drains.of_passes (passes_of_refuse hs) h
    exact ⟨_, by simpa [Step.proceed] using Drains.refuse hs hp⟩
  | wait more token rest suspended hs =>
    rw [drain_cons, hs]
    exact ⟨1, .wait hs⟩
  | invoke more token rest call behind hs iha ih =>
    obtain ⟨cost, hc⟩ := exists_cost iha
    obtain ⟨turns, h⟩ := ih
    rw [drain_cons, hs]
    exact ⟨_, .invoke hs hc h⟩

/-- The turns and what they produce are a function of the tokens. -/
theorem Drains.unique {tokens : List Token} {turns₁ turns₂ : Nat} {p₁ p₂ : Progress}
    (h₁ : Drains table more tokens turns₁ p₁) (h₂ : Drains table more tokens turns₂ p₂) :
    turns₁ = turns₂ ∧ p₁ = p₂ := by
  induction h₁ generalizing turns₂ p₂ with
  | done =>
    cases h₂
    exact ⟨rfl, rfl⟩
  | pass hs _ ih =>
    cases h₂ with
    | pass _ h =>
      obtain ⟨rfl, rfl⟩ := ih h
      exact ⟨rfl, rfl⟩
    | builtin hs' hne =>
      cases hs.symm.trans hs'
      exact absurd rfl hne
    | refuse hs' | wait hs' | invoke hs' => cases hs.symm.trans hs'
  | builtin hs hne _ ih =>
    cases h₂ with
    | pass hs' =>
      cases hs.symm.trans hs'
      exact absurd rfl hne
    | builtin hs' _ h =>
      cases hs.symm.trans hs'
      obtain ⟨rfl, rfl⟩ := ih h
      exact ⟨rfl, rfl⟩
    | refuse hs' | wait hs' | invoke hs' => cases hs.symm.trans hs'
  | refuse hs _ ih =>
    cases h₂ with
    | refuse hs' h =>
      cases hs.symm.trans hs'
      obtain ⟨rfl, rfl⟩ := ih h
      exact ⟨rfl, rfl⟩
    | pass hs' | builtin hs' | wait hs' | invoke hs' => cases hs.symm.trans hs'
  | wait hs =>
    cases h₂ with
    | wait hs' =>
      cases hs.symm.trans hs'
      exact ⟨rfl, rfl⟩
    | pass hs' | builtin hs' | refuse hs' | invoke hs' => cases hs.symm.trans hs'
  | @invoke more token rest behind call turns p cost result hs _ _ iha ih =>
    cases h₂ with
    | pass hs' | builtin hs' | refuse hs' | wait hs' => cases hs.symm.trans hs'
    | @invoke _ _ _ _ _ _ _ cost' result' hs' ha' h =>
      cases hs.symm.trans hs'
      have hr : (call.wanted.map fun w => (w.1, result w.2)) =
          call.wanted.map fun w => (w.1, result' w.2) :=
        List.map_congr_left fun w hw => by rw [(iha w hw (ha' w hw)).2]
      have hc : (call.wanted.map fun w => cost w.2) = call.wanted.map fun w => cost' w.2 :=
        List.map_congr_left fun w hw => (iha w hw (ha' w hw)).1
      rw [← hr] at h
      obtain ⟨rfl, rfl⟩ := ih h
      rw [hr, hc]
      exact ⟨rfl, rfl⟩

/-- Expansion with fixed macros ends, whatever they are and whatever the tokens hide: no chain of
turns and of arguments expanded in them is endless, and the loop over a text comes to its end
after a number of turns that the text determines, with the events of `expand`. -/
theorem expansion_halts (table : Table) :
    WellFounded (Follows table) ∧
      ∀ tokens, ∃ turns, ∀ n p, Drains table false tokens n p ↔
        n = turns ∧ p = ⟨expand table tokens, none⟩ := by
  refine ⟨wellFounded_follows table, fun tokens => ?_⟩
  obtain ⟨turns, h⟩ := drains_drain table false tokens
  have hp : drain table false tokens = ⟨expand table tokens, none⟩ := by
    rw [← held_drain_false table tokens]
    rfl
  rw [hp] at h
  refine ⟨turns, fun n p => ⟨fun hn => hn.unique h, ?_⟩⟩
  rintro ⟨rfl, rfl⟩
  exact h

/-! ## A text in parts -/

/-- The loop over the next tokens of a text, which a call may be waiting for, comes to its end after
so many turns. The turn that takes up the call is the first one. -/
inductive Feeds (table : Table) (more : Bool) :
    Option Suspended → List Token → Nat → Progress → Prop where
  | none {tokens : List Token} {turns : Nat} {p : Progress} (h : Drains table more tokens turns p) :
      Feeds table more none tokens turns p
  | emit {suspended : Suspended} {tokens : List Token} {produced : Token} {turns : Nat}
      {p : Progress} (hs : suspended.head.step more (suspended.read ++ tokens) = .emit produced)
      (h : Drains table more (suspended.read ++ tokens) turns p) :
      Feeds table more (some suspended) tokens (turns + 1) (p.after [.token produced])
  | refuse {suspended : Suspended} {tokens : List Token} {issue : Issue} {painted : Token}
      {turns : Nat} {p : Progress}
      (hs : suspended.head.step more (suspended.read ++ tokens) = .refuse issue painted)
      (h : Drains table more (suspended.read ++ tokens) turns p) :
      Feeds table more (some suspended) tokens (turns + 1) (p.after [.issue issue, .token painted])
  | wait {suspended further : Suspended} {tokens : List Token}
      (hs : suspended.head.step more (suspended.read ++ tokens) = .wait further) :
      Feeds table more (some suspended) tokens 1 ⟨[], some further⟩
  | invoke {suspended : Suspended} {tokens behind : List Token} {call : Invocation} {turns : Nat}
      {p : Progress} {cost : List Token → Nat}
      (hs : suspended.head.step more (suspended.read ++ tokens) = .invoke call behind)
      (ha : ∀ wanted ∈ call.wanted,
        Drains table false wanted.2 (cost wanted.2) (drain table false wanted.2))
      (h : Drains table more ((call.result table).2 ++ behind) turns p) :
      Feeds table more (some suspended) tokens
        (turns + (call.wanted.map fun w => cost w.2).sum + 1) (p.after (call.events table))

/-- The loop over the next tokens of a text comes to its end. -/
theorem feeds_feed (table : Table) (more : Bool) (held : Option Suspended) (tokens : List Token) :
    ∃ turns, Feeds table more held tokens turns (feed table more held tokens) := by
  cases held with
  | none =>
    obtain ⟨turns, h⟩ := drains_drain table more tokens
    exact ⟨turns, .none h⟩
  | some suspended =>
    obtain ⟨turns, h⟩ := drains_drain table more (suspended.read ++ tokens)
    rw [feed_some]
    cases hs : suspended.head.step more (suspended.read ++ tokens) with
    | emit produced => exact ⟨_, .emit hs h⟩
    | refuse issue painted => exact ⟨_, .refuse hs h⟩
    | wait further => exact ⟨1, .wait hs⟩
    | invoke call behind =>
      obtain ⟨cost, hc⟩ := exists_cost fun wanted (_ : wanted ∈ call.wanted) =>
        drains_drain table false wanted.2
      obtain ⟨turns, h⟩ := drains_drain table more ((call.result table).2 ++ behind)
      exact ⟨_, .invoke hs hc h⟩

theorem Feeds.unique {held : Option Suspended} {tokens : List Token} {turns₁ turns₂ : Nat}
    {p₁ p₂ : Progress} (h₁ : Feeds table more held tokens turns₁ p₁)
    (h₂ : Feeds table more held tokens turns₂ p₂) : turns₁ = turns₂ ∧ p₁ = p₂ := by
  cases h₁ with
  | none h =>
    cases h₂ with
    | none h' => exact h.unique h'
  | emit hs h =>
    cases h₂ with
    | emit hs' h' =>
      cases hs.symm.trans hs'
      obtain ⟨rfl, rfl⟩ := h.unique h'
      exact ⟨rfl, rfl⟩
    | refuse hs' | wait hs' | invoke hs' => cases hs.symm.trans hs'
  | refuse hs h =>
    cases h₂ with
    | refuse hs' h' =>
      cases hs.symm.trans hs'
      obtain ⟨rfl, rfl⟩ := h.unique h'
      exact ⟨rfl, rfl⟩
    | emit hs' | wait hs' | invoke hs' => cases hs.symm.trans hs'
  | wait hs =>
    cases h₂ with
    | wait hs' =>
      cases hs.symm.trans hs'
      exact ⟨rfl, rfl⟩
    | emit hs' | refuse hs' | invoke hs' => cases hs.symm.trans hs'
  | @invoke _ _ _ call _ _ cost hs ha h =>
    cases h₂ with
    | @invoke _ _ _ _ _ _ cost' hs' ha' h' =>
      cases hs.symm.trans hs'
      have hc : (call.wanted.map fun w => cost w.2) = call.wanted.map fun w => cost' w.2 :=
        List.map_congr_left fun w hw => ((ha w hw).unique (ha' w hw)).1
      obtain ⟨rfl, rfl⟩ := h.unique h'
      rw [hc]
      exact ⟨rfl, rfl⟩
    | emit hs' | refuse hs' | wait hs' => cases hs.symm.trans hs'

end CPreprocessor.Expansion

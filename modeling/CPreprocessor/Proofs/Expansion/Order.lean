import CPreprocessor.Proofs.Expansion.Preserved
import CPreprocessor.Proofs.Expansion.Turns
import CPreprocessor.Proofs.Lexeme.Cover
import CPreprocessor.Proofs.Macro.Equivalent

/-!
# The order of expanded tokens

Whatever expansion makes of a token stands where the token stood. What replaces a call stands at the
name of the call, in front of tokens that are left as they were, so the tokens that come out follow
each other as the tokens that were read.

* `Retraces`: places in the order of others, which may be left out and repeated.
* `position_of_mem_replacement`: all tokens of a replacement stand at the call.
* `Step.Stays`, `stays_step`: what one step does to the places. `retraces_drain`: what a whole
  expansion does to them.
* `expand_in_order`: tokens that stand one behind the other never come out in another order.
-/

namespace CPreprocessor.Expansion

open Macro

variable {table : Table} {more : Bool} {token : Token} {rest behind : List Token}

/-! ## Places that are repeated or left out -/

/-- The first places follow each other as the second ones, each of which is left out or comes any
number of times. -/
inductive Retraces : List Position → List Position → Prop where
  | nil : Retraces [] []
  | leave {out places : List Position} (place : Position) (h : Retraces out places) :
      Retraces out (place :: places)
  | stay {out places : List Position} {place : Position} (h : Retraces out (place :: places)) :
      Retraces (place :: out) (place :: places)

namespace Retraces

variable {out places : List Position}

theorem nil_left (places : List Position) : Retraces [] places := by
  induction places with
  | nil => exact .nil
  | cons place places ih => exact .leave place ih

theorem mem (h : Retraces out places) {place : Position} (hm : place ∈ out) : place ∈ places := by
  induction h with
  | nil => exact hm
  | leave _ _ ih => exact .tail _ (ih hm)
  | stay _ ih =>
    rcases List.mem_cons.1 hm with rfl | hm
    · exact .head _
    · exact ih hm

/-- Places of which each one comes before the next ones never come in another order. -/
theorem pairwise {before : Position → Position → Prop} (h : Retraces out places)
    (hp : places.Pairwise before) :
    out.Pairwise fun place other => place = other ∨ before place other := by
  induction h with
  | nil => exact .nil
  | leave _ _ ih => exact ih (List.pairwise_cons.1 hp).2
  | stay h ih =>
    refine List.pairwise_cons.2 ⟨fun other hm => ?_, ih hp⟩
    exact (List.mem_cons.1 (h.mem hm)).imp Eq.symm fun hm => (List.pairwise_cons.1 hp).1 other hm

theorem of_suffix {behind : List Position} (h : Retraces out behind) (hs : behind <:+ places) :
    Retraces out places := by
  obtain ⟨front, rfl⟩ := hs
  induction front with
  | nil => exact h
  | cons place front ih => exact .leave place ih

/-- What retraces one place many times, and then places behind it, retraces this place and those
behind it. -/
theorem of_repeated {place : Position} {front behind : List Position}
    (h : Retraces out (front ++ behind)) (hf : ∀ other ∈ front, other = place)
    (hs : behind <:+ places) : Retraces out (place :: places) := by
  generalize hall : front ++ behind = all at h
  induction h generalizing front with
  | nil => exact nil_left _
  | leave first h ih =>
    cases front with
    | nil => exact .leave place (((h.leave first).of_suffix ⟨[], hall.symm⟩).of_suffix hs)
    | cons other front =>
      obtain ⟨-, hall⟩ := List.cons.inj hall
      exact ih (fun other hm => hf other (.tail _ hm)) hall
  | @stay _ _ first h ih =>
    cases front with
    | nil => exact .leave place ((h.stay.of_suffix ⟨[], hall.symm⟩).of_suffix hs)
    | cons other front =>
      obtain rfl := hf other (.head _)
      obtain ⟨rfl, -⟩ := List.cons.inj hall
      exact .stay (ih hf hall)

end Retraces

/-! ## One step -/

/-- What a call is replaced by stands at the call, wherever it comes from. -/
theorem position_of_mem_replacement {call : Invocation} {expanded : Bindings}
    (hm : token ∈ (call.replacement expanded).2) : token.position = call.site.position := by
  obtain ⟨settled, hs, he⟩ := exists_of_mem_spaceFirst hm
  obtain ⟨pasted, -, rfl⟩ := List.mem_map.1 hs
  rw [he]
  rfl

theorem position_builtin (token : Token) : (builtin token).position = token.position := by
  unfold builtin
  repeat' split
  all_goals rfl

theorem suffix_of_invokes {call : Invocation} (h : Invokes token rest call behind) :
    behind <:+ rest := by
  obtain ⟨front, hsplit, -, hm⟩ := h.covers
  cases front with
  | nil => contradiction
  | cons first front => exact ⟨front, (List.cons.inj hsplit).2.symm⟩

/-- What a step passes on stands at the token, and so does what it puts in front of the tokens
behind it, some of which it may take away. -/
structure Step.Stays (table : Table) (token : Token) (rest : List Token) (step : Step) : Prop where
  events : ∀ produced ∈ (step.events table).filterMap Event.token?,
    produced.position = token.position
  next : ∃ front behind, step.next table rest = front ++ behind ∧
    (∀ other ∈ front, other.position = token.position) ∧ behind <:+ rest

theorem position_of_emit {produced : Token} (h : step table more token rest = .emit produced) :
    produced.position = token.position := by
  unfold step at h
  split at h
  · split at h
    · obtain rfl := Step.emit.inj h
      exact position_builtin token
    · split at h
      · contradiction
      · rw [Head.emit_eq h]
  · rw [← Step.emit.inj h]

theorem position_of_refuse {issue : Issue} {painted : Token}
    (h : step table more token rest = .refuse issue painted) :
    painted.position = token.position := by
  unfold step at h
  split at h
  · split at h
    · contradiction
    · split at h
      · contradiction
      · rw [Head.refuse_eq h]
        rfl
  · contradiction

theorem stays_step (table : Table) (more : Bool) (token : Token) (rest : List Token) :
    (step table more token rest).Stays table token rest := by
  have hkept : ∃ front behind, rest = front ++ behind ∧
      (∀ other ∈ front, other.position = token.position) ∧ behind <:+ rest :=
    ⟨[], rest, rfl, fun _ hm => absurd hm List.not_mem_nil, List.suffix_refl rest⟩
  cases hs : step table more token rest with
  | emit produced => exact ⟨List.forall_mem_singleton.2 (position_of_emit hs), hkept⟩
  | refuse issue painted => exact ⟨List.forall_mem_singleton.2 (position_of_refuse hs), hkept⟩
  | wait suspended => exact ⟨fun _ hm => absurd hm List.not_mem_nil, hkept⟩
  | invoke call behind =>
    have hinvokes := (invokes_of_step hs).1
    refine ⟨?_, (call.result table).2, behind, rfl, fun other hm => ?_, suffix_of_invokes hinvokes⟩
    · rw [Step.events, Invocation.filterMap_token?_events]
      exact List.forall_mem_nil _
    · rw [position_of_mem_replacement hm, hinvokes.site]

/-! ## A whole expansion -/

/-- The places of what comes out are those of the tokens that are read, in their order. -/
theorem retraces_drain (table : Table) (more : Bool) (tokens : List Token) :
    Retraces ((drain table more tokens).tokens.map Token.position)
      (tokens.map Token.position) := by
  induction tokens using drain_steps table more with
  | nil =>
    rw [drain_nil]
    exact .nil
  | wait token rest suspended hs =>
    rw [drain_cons, hs]
    exact .nil_left _
  | goes token rest hs ih =>
    have hstays := stays_step table more token rest
    obtain ⟨front, behind, hnext, hfront, hbehind⟩ := hstays.next
    rw [hnext, List.map_append] at ih
    have hread : Retraces ((drain table more (front ++ behind)).tokens.map Token.position)
        (token.position :: rest.map Token.position) :=
      ih.of_repeated (List.forall_mem_map.2 hfront) (hbehind.map Token.position)
    rw [drain_cons_of_not_wait hs, Progress.tokens_after, List.map_append, hnext]
    -- The tokens that the step itself passes on are at the place of the token that was read.
    have hpassed : ∀ place ∈ (((step table more token rest).events table).filterMap
        Event.token?).map Token.position, place = token.position :=
      List.forall_mem_map.2 hstays.events
    generalize (((step table more token rest).events table).filterMap
      Event.token?).map Token.position = passed at hpassed
    induction passed with
    | nil => exact hread
    | cons place passed ih =>
      obtain rfl := hpassed place (.head _)
      exact .stay (ih fun other hm => hpassed other (.tail _ hm))

/-- The tokens that come out of an expansion stand where tokens stood that were read, and none comes
out before one that it stands behind. All of a replacement stands at the name of the call, and is
followed by tokens that were behind the call. Where a call is refused, its name stays where it is
and the tokens behind it are read on as they are. -/
theorem expand_in_order (table : Table) {tokens : List Token}
    (h : (tokens.map Token.position).Pairwise Position.Before) :
    (∀ produced ∈ (expand table tokens).filterMap Event.token?,
        ∃ token ∈ tokens, produced.position = token.position) ∧
      (((expand table tokens).filterMap Event.token?).map Token.position).Pairwise
        (fun place other => place = other ∨ place.Before other) ∧
      (∀ more token rest call behind, step table more token rest = .invoke call behind →
        (∀ expanded, ∀ produced ∈ (call.replacement expanded).2,
          produced.position = token.position) ∧ behind <:+ rest) ∧
      ∀ token rest issue painted, step table false token rest = .refuse issue painted →
        painted.position = token.position ∧
          expand table (token :: rest) =
            .issue issue :: .token painted :: expand table rest := by
  have hretraces := retraces_drain table false tokens
  refine ⟨fun produced hm => ?_, hretraces.pairwise h, fun more token rest call behind hs => ?_,
    fun token rest issue painted hs => ⟨position_of_refuse hs, ?_⟩⟩
  · obtain ⟨token, ht, he⟩ := List.mem_map.1 (hretraces.mem (List.mem_map_of_mem hm))
    exact ⟨token, ht, he.symm⟩
  · have hinvokes := (invokes_of_step hs).1
    refine ⟨fun expanded produced hm => ?_, suffix_of_invokes hinvokes⟩
    rw [position_of_mem_replacement hm, hinvokes.site]
  · unfold expand
    rw [drain_cons, hs]
    rfl

instance (place other : Position) : Decidable (place.Before other) :=
  inferInstanceAs (Decidable (_ ∨ _))

/-- A call that is replaced by a literal and a pasted name, and one that is not closed. -/
theorem expand_in_order_open_call :
    let table := (∅ : Table).install (fragmentMacro "a.h" "F(x) #x x##1")
    let tokens := fragment "main.c" "a F(y) b F("
    (tokens.map Token.position).Pairwise Position.Before ∧
      (∀ produced ∈ (expand table tokens).filterMap Event.token?,
        ∃ token ∈ tokens, produced.position = token.position) ∧
      (((expand table tokens).filterMap Event.token?).map Token.position).Pairwise
        (fun place other => place = other ∨ place.Before other) := by
  intro table tokens
  have h : (tokens.map Token.position).Pairwise Position.Before := by decide +kernel
  obtain ⟨hfrom, horder, -⟩ := expand_in_order table h
  exact ⟨h, hfrom, horder⟩

end CPreprocessor.Expansion

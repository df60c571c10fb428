import CPreprocessor.Proofs.Expansion.Stream
import CPreprocessor.Proofs.Expansion.Turns
import CPreprocessor.Proofs.Unplaced.Substitution

/-!
# Expansion without places

Expansion looks at the places of tokens only where it replaces one by the file or the line that it
is written in. Elsewhere it does the same to tokens whose places are forgotten.

* `NeedsPlace`: a token that is replaced by its place. `Placeless`: none is, in an expansion with
  all those of the arguments inside.
* `step_unplaced`, `drain_unplaced`, `feed_unplaced`: a step, an expansion, and one that goes on
  behind a call that waits.
* `feed_nil`: a call that waits goes on waiting where nothing comes.
-/

namespace CPreprocessor.Expansion

open Macro

variable {table : Table} {more : Bool} {token : Token} {rest : List Token}

/-! ## Steps -/

/-- The head with the places forgotten. -/
def Head.unplaced (head : Head) : Head :=
  ⟨head.definition.unplaced, head.parameters, head.site.unplaced⟩

/-- The call with the places forgotten. -/
def Suspended.unplaced (suspended : Suspended) : Suspended :=
  ⟨suspended.head.unplaced, suspended.read.map Token.unplaced⟩

/-- The step with the places forgotten. -/
def Step.unplaced : Step → Step
  | emit token => .emit token.unplaced
  | refuse issue painted => .refuse issue.unplaced painted.unplaced
  | wait suspended => .wait suspended.unplaced
  | invoke call rest => .invoke call.unplaced (rest.map Token.unplaced)

theorem Head.step_unplaced (head : Head) (more : Bool) (rest : List Token) :
    head.unplaced.step more (rest.map Token.unplaced) = (head.step more rest).unplaced := by
  cases rest with
  | nil => cases more <;> rfl
  | cons opening tail =>
    have hc := collect_unplaced 0 tail
    have hb := bindArguments_unplaced head.definition.name head.parameters head.site.position
    rw [List.map_cons]
    unfold Head.step
    dsimp only
    rw [Token.isPunctuator_unplaced, hc]
    cases opening.isPunctuator "(" with
    | false => rfl
    | true =>
      cases collect 0 tail with
      | ended => rfl
      | exhausted => cases more <;> rfl
      | closed first others closing behind =>
        simp only [if_true, Collected.unplaced, unplaced]
        rw [Definition.name_unplaced, Token.position_unplaced, ← List.map_cons, hb]
        cases bindArguments head.definition.name head.parameters head.site.position
          (first :: others) <;> rfl

/-- A token that is replaced by the file or the line that it is written in. -/
def NeedsPlace (table : Table) (token : Token) : Prop :=
  (token.kind = .identifier ∧ token.text ∉ token.hide) ∧ table.find? token.text = none ∧
    token.text ∈ builtinNames

instance (table : Table) (token : Token) : Decidable (NeedsPlace table token) :=
  inferInstanceAs (Decidable (_ ∧ _ ∧ _))

theorem builtin_eq_self (h : token.text ∉ builtinNames) : builtin token = token := by
  have hfile : token.text ≠ "__FILE__" := fun he => h (by rw [he]; decide)
  have hline : token.text ≠ "__LINE__" := fun he => h (by rw [he]; decide)
  rw [builtin, if_neg hfile, if_neg hline]

theorem step_unplaced (h : ¬NeedsPlace table token) (more : Bool) (rest : List Token) :
    step table.unplaced more token.unplaced (rest.map Token.unplaced) =
      (step table more token rest).unplaced := by
  unfold step
  by_cases he : token.kind = .identifier ∧ token.text ∉ token.hide
  · have hu : token.unplaced.kind = .identifier ∧ token.unplaced.text ∉ token.unplaced.hide := he
    rw [if_pos he, if_pos hu, Table.find?_unplaced, Token.text_unplaced]
    cases hf : table.find? token.text with
    | none =>
      have hn : token.text ∉ builtinNames := fun hn => h ⟨he, hf, hn⟩
      dsimp only [Option.map_none]
      have hbare : builtin token.unplaced = token.unplaced := builtin_eq_self hn
      rw [builtin_eq_self hn, hbare]
      rfl
    | some definition =>
      dsimp only [Option.map_some, Definition.parameters_unplaced]
      cases definition.parameters with
      | none => rfl
      | some parameters => exact Head.step_unplaced ⟨definition, parameters, token⟩ more rest
  · have hu : ¬(token.unplaced.kind = .identifier ∧ token.unplaced.text ∉ token.unplaced.hide) := he
    rw [if_neg he, if_neg hu]
    rfl

/-! ## Expansions -/

mutual

/-- No token is replaced by its place while these are expanded. -/
inductive Placeless (table : Table) : Bool → List Token → Prop where
  | nil (more : Bool) : Placeless table more []
  | cons {more : Bool} {token : Token} {rest : List Token} (hn : ¬NeedsPlace table token)
      (hs : PlacelessBehind table more rest (step table more token rest)) :
      Placeless table more (token :: rest)

/-- No token is replaced by its place behind a step, `rest` being the tokens behind the one read. -/
inductive PlacelessBehind (table : Table) : Bool → List Token → Step → Prop where
  | emit {more : Bool} {rest : List Token} (produced : Token) (h : Placeless table more rest) :
      PlacelessBehind table more rest (.emit produced)
  | refuse {more : Bool} {rest : List Token} (issue : Issue) (painted : Token)
      (h : Placeless table more rest) : PlacelessBehind table more rest (.refuse issue painted)
  | wait (more : Bool) (rest : List Token) (suspended : Suspended) :
      PlacelessBehind table more rest (.wait suspended)
  | invoke {more : Bool} {call : Invocation} {behind : List Token} (rest : List Token)
      (hw : ∀ wanted ∈ call.wanted, Placeless table false wanted.2)
      (h : Placeless table more ((call.result table).2 ++ behind)) :
      PlacelessBehind table more rest (.invoke call behind)

end

theorem PlacelessBehind.next {step : Step} (h : PlacelessBehind table more rest step)
    (hn : ∀ suspended, step ≠ .wait suspended) : Placeless table more (step.next table rest) := by
  cases h with
  | emit _ h | refuse _ _ h | invoke _ _ h => exact h
  | wait _ _ suspended => exact absurd rfl (hn suspended)

theorem PlacelessBehind.wanted {call : Invocation} {behind : List Token}
    (h : PlacelessBehind table more rest (.invoke call behind)) :
    ∀ wanted ∈ call.wanted, Placeless table false wanted.2 := by
  cases h with
  | invoke _ hw => exact hw

theorem placeless_of_kind (hk : token.kind ≠ .identifier) (more : Bool) :
    Placeless table more [token] := by
  refine .cons (fun h => hk h.1.1) ?_
  rw [passes_of_kind hk]
  exact .emit token (.nil more)

/-- The event with the places forgotten. -/
def Event.unplaced : Event → Event
  | .token produced => .token produced.unplaced
  | .issue raised => .issue raised.unplaced

/-- What was produced, with the places forgotten. -/
def Progress.unplaced (p : Progress) : Progress :=
  ⟨p.events.map Event.unplaced, p.held.map Suspended.unplaced⟩

namespace Progress

theorem unplaced_after (p : Progress) (events : List Event) :
    (p.after events).unplaced = p.unplaced.after (events.map Event.unplaced) := by
  simp [unplaced, after]

theorem tokens_unplaced (p : Progress) : p.unplaced.tokens = p.tokens.map Token.unplaced := by
  unfold tokens unplaced
  rw [List.filterMap_map, List.map_filterMap]
  congr 1
  funext event
  cases event <;> rfl

theorem issues_unplaced (p : Progress) : p.unplaced.issues = p.issues.map Issue.unplaced := by
  unfold issues unplaced
  rw [List.filterMap_map, List.map_filterMap]
  congr 1
  funext event
  cases event <;> rfl

end Progress

theorem callEvents_unplaced (arguments : List (String × Progress)) (pasting : List Issue) :
    callEvents (arguments.map fun argument => (argument.1, argument.2.unplaced))
        (pasting.map Issue.unplaced) =
      (callEvents arguments pasting).map Event.unplaced := by
  simp only [callEvents, List.map_append, List.flatMap_map, List.map_flatMap, List.map_map,
    Progress.issues_unplaced]
  rfl

theorem expandedBindings_unplaced (arguments : List (String × Progress)) :
    expandedBindings (arguments.map fun argument => (argument.1, argument.2.unplaced)) =
      (expandedBindings arguments).unplaced := by
  simp only [expandedBindings, Bindings.unplaced, List.map_map, Function.comp_def,
    Progress.tokens_unplaced]

theorem Invocation.arguments_unplaced {call : Invocation}
    (h : ∀ wanted ∈ call.wanted, drain table.unplaced false (wanted.2.map Token.unplaced) =
      (drain table false wanted.2).unplaced) :
    call.unplaced.arguments table.unplaced =
      (call.arguments table).map fun argument => (argument.1, argument.2.unplaced) := by
  rw [arguments, wanted_unplaced, arguments, Bindings.unplaced, List.map_map, List.map_map]
  refine List.map_congr_left fun wanted hm => ?_
  exact congrArg (wanted.1, ·) (h wanted hm)

/-- What follows a step without its places is what follows it, if that is so of the arguments of a
call and of the tokens that are read next. -/
theorem proceed_unplaced {step : Step}
    (hw : ∀ call behind, step = .invoke call behind → ∀ wanted ∈ call.wanted,
      drain table.unplaced false (wanted.2.map Token.unplaced) =
        (drain table false wanted.2).unplaced)
    (hd : (∀ suspended, step ≠ .wait suspended) →
      drain table.unplaced more ((step.next table rest).map Token.unplaced) =
        (drain table more (step.next table rest)).unplaced) :
    step.unplaced.proceed table.unplaced more (rest.map Token.unplaced) =
      (step.proceed table more rest).unplaced := by
  cases step with
  | emit produced =>
    have hrest : drain _ more (rest.map Token.unplaced) = _ := hd fun _ => Step.noConfusion
    rw [Step.unplaced, Step.proceed, Step.proceed, hrest, Progress.unplaced_after]
    rfl
  | refuse issue painted =>
    have hrest : drain _ more (rest.map Token.unplaced) = _ := hd fun _ => Step.noConfusion
    rw [Step.unplaced, Step.proceed, Step.proceed, hrest, Progress.unplaced_after]
    rfl
  | wait suspended => rfl
  | invoke call behind =>
    have hrest := hd fun _ => Step.noConfusion
    have ha := Invocation.arguments_unplaced (hw call behind rfl)
    have hr : call.unplaced.result table.unplaced = ((call.result table).1.map Issue.unplaced,
        (call.result table).2.map Token.unplaced) := by
      rw [Invocation.result, ha, expandedBindings_unplaced]
      exact call.replacement_unplaced _
    rw [Step.next, List.map_append] at hrest
    rw [Step.unplaced, Step.proceed, Step.proceed, Invocation.events, ha, hr,
      callEvents_unplaced, hrest, Progress.unplaced_after]
    rfl

/-- Expansion does the same to tokens whose places are forgotten. -/
theorem drain_unplaced {tokens : List Token} (h : Placeless table more tokens) :
    drain table.unplaced more (tokens.map Token.unplaced) = (drain table more tokens).unplaced := by
  induction more, tokens using drain_induction table with
  | nil => rw [List.map_nil, drain_nil, drain_nil]; rfl
  | emit more token rest produced hs ih =>
    obtain _ | ⟨hn, hb⟩ := h
    rw [hs] at hb
    rw [List.map_cons, drain_cons, step_unplaced hn, drain_cons, hs]
    exact proceed_unplaced (fun _ _ => Step.noConfusion) fun hnext => ih (hb.next hnext)
  | refuse more token rest issue painted hs ih =>
    obtain _ | ⟨hn, hb⟩ := h
    rw [hs] at hb
    rw [List.map_cons, drain_cons, step_unplaced hn, drain_cons, hs]
    exact proceed_unplaced (fun _ _ => Step.noConfusion) fun hnext => ih (hb.next hnext)
  | wait more token rest suspended hs =>
    obtain _ | ⟨hn, -⟩ := h
    rw [List.map_cons, drain_cons, step_unplaced hn, drain_cons, hs]
    rfl
  | invoke more token rest call behind hs ihw ih =>
    obtain _ | ⟨hn, hb⟩ := h
    rw [hs] at hb
    rw [List.map_cons, drain_cons, step_unplaced hn, drain_cons, hs]
    refine proceed_unplaced (fun call' behind' he wanted hm => ?_) fun hnext => ih (hb.next hnext)
    obtain ⟨rfl, rfl⟩ := Step.invoke.inj he
    exact ihw wanted hm (hb.wanted wanted hm)

/-! ## Texts in parts -/

/-- No token is replaced by its place while the tokens are expanded behind a call that waits. -/
def PlacelessFeed (table : Table) (more : Bool) (held : Option Suspended) (tokens : List Token) :
    Prop :=
  match held with
  | none => Placeless table more tokens
  | some suspended =>
    PlacelessBehind table more (suspended.read ++ tokens)
      (suspended.head.step more (suspended.read ++ tokens))

/-- No token is replaced by its place while texts are expanded one behind the other, each with its
own macros. -/
def PlacelessTexts (held : Option Suspended) : List (Table × List Token) → Prop
  | [] => True
  | (table, tokens) :: rest =>
    PlacelessFeed table true held tokens ∧ PlacelessTexts (feed table true held tokens).held rest

/-- Expansion behind a call that waits does the same to tokens whose places are forgotten. -/
theorem feed_unplaced {held : Option Suspended} {tokens : List Token}
    (h : PlacelessFeed table more held tokens) :
    feed table.unplaced more (held.map Suspended.unplaced) (tokens.map Token.unplaced) =
      (feed table more held tokens).unplaced := by
  cases held with
  | none => exact drain_unplaced h
  | some suspended =>
    change PlacelessBehind _ _ _ _ at h
    rw [Option.map_some, feed_some, feed_some, Suspended.unplaced, ← List.map_append,
      Head.step_unplaced]
    refine proceed_unplaced (fun call behind he wanted hm => ?_) fun hn =>
      drain_unplaced (h.next hn)
    rw [he] at h
    exact drain_unplaced (h.wanted wanted hm)

/-- The call waits with what has been read of it. -/
def Suspended.Waits (suspended : Suspended) : Prop :=
  suspended.head.step true suspended.read = .wait suspended

theorem waits_of_mem_held_drain (table : Table) (tokens : List Token) :
    ∀ suspended ∈ (drain table true tokens).held, suspended.Waits := by
  induction tokens using drain_steps table true with
  | nil => rw [drain_nil]; nofun
  | wait token rest suspended hs =>
    obtain ⟨hr, -, -, -, -, hw⟩ := step_of_wait hs
    rw [drain_cons, hs]
    intro suspended' hm
    obtain rfl := Option.some.inj hm
    rw [Suspended.Waits, hr, ← hw, hs]
  | goes token rest hs ih =>
    rwa [drain_cons_of_not_wait hs, Progress.held_after]

theorem waits_of_mem_held_feed (table : Table) (held : Option Suspended) (tokens : List Token) :
    ∀ suspended ∈ (feed table true held tokens).held, suspended.Waits := by
  cases held with
  | none => exact waits_of_mem_held_drain table tokens
  | some suspended =>
    rw [feed_some]
    generalize suspended.read ++ tokens = rest
    by_cases hw : ∃ further, suspended.head.step true rest = .wait further
    · obtain ⟨further, hw⟩ := hw
      obtain rfl := Head.eq_of_wait hw
      rw [hw]
      intro suspended' hm
      obtain rfl := Option.some.inj hm
      exact hw
    · have hn : ∀ further, suspended.head.step true rest ≠ .wait further :=
        fun further h => hw ⟨further, h⟩
      rw [Step.proceed_of_not_wait hn, Progress.held_after]
      exact waits_of_mem_held_drain table _

/-- A call that waits goes on waiting where nothing comes. -/
theorem feed_nil {held : Option Suspended} (h : ∀ suspended ∈ held, suspended.Waits) :
    feed table true held [] = ⟨[], held⟩ := by
  cases held with
  | none => exact drain_nil table true
  | some suspended =>
    rw [feed_some, List.append_nil, h suspended rfl]
    rfl

end CPreprocessor.Expansion

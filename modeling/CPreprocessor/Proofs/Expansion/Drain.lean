import CPreprocessor.Expansion.Expand

/-!
# Expansion, one step at a time

`drain` and `feed` do the same with the step that a token or a suspended call gives
(`Step.proceed`), so a fact about expansion needs one case for each kind of step.

* `drain_cons`, `feed_some`: expansion proceeds from its first step.
* `drain_induction`: induction over the steps of a whole expansion. `drain_steps`: over those of one
  loop, where all steps that go on are alike. `expand_induction`: over an expansion that nothing
  follows.
* `held_drain_false`: nothing waits where no more tokens can come.
-/

namespace CPreprocessor.Expansion

open Macro

namespace Progress

variable (p : Progress) (xs ys : List Event)

@[simp] theorem after_nil : p.after [] = p := rfl

@[simp] theorem after_after : (p.after ys).after xs = p.after (xs ++ ys) := by
  simp [after]

@[simp] theorem events_after : (p.after xs).events = xs ++ p.events := rfl

@[simp] theorem held_after : (p.after xs).held = p.held := rfl

@[simp] theorem tokens_after : (p.after xs).tokens = xs.filterMap Event.token? ++ p.tokens := by
  simp [tokens]

@[simp] theorem issues_after : (p.after xs).issues = xs.filterMap Event.issue? ++ p.issues := by
  simp [issues]

@[simp] theorem tokens_done : done.tokens = [] := rfl

@[simp] theorem issues_done : done.issues = [] := rfl

end Progress

namespace Event

@[simp] theorem token?_token (t : Token) : (Event.token t).token? = some t := rfl

@[simp] theorem token?_issue (i : Issue) : (Event.issue i).token? = none := rfl

@[simp] theorem issue?_token (t : Token) : (Event.token t).issue? = none := rfl

@[simp] theorem issue?_issue (i : Issue) : (Event.issue i).issue? = some i := rfl

theorem filterMap_token?_issues (is : List Issue) : (is.map issue).filterMap token? = [] := by
  simp [List.filterMap_map, Function.comp_def]

theorem filterMap_issue?_issues (is : List Issue) : (is.map issue).filterMap issue? = is := by
  simp [List.filterMap_map, Function.comp_def]

end Event

@[simp] theorem filterMap_token?_callEvents (args : List (String × Progress)) (is : List Issue) :
    (callEvents args is).filterMap Event.token? = [] := Event.filterMap_token?_issues _

@[simp] theorem filterMap_issue?_callEvents (args : List (String × Progress)) (is : List Issue) :
    (callEvents args is).filterMap Event.issue? = args.flatMap (·.2.issues) ++ is :=
  Event.filterMap_issue?_issues _

namespace Invocation

/-- The arguments that a call takes expanded, each expanded on its own. -/
def arguments (call : Invocation) (table : Table) : List (String × Progress) :=
  call.wanted.map fun wanted => (wanted.1, drain table false wanted.2)

/-- The issues of pasting and the tokens that a call is replaced by. -/
def result (call : Invocation) (table : Table) : List Issue × List Token :=
  call.replacement (expandedBindings (call.arguments table))

/-- The issues that come out before the tokens of a replacement. -/
def events (call : Invocation) (table : Table) : List Event :=
  callEvents (call.arguments table) (call.result table).1

@[simp] theorem filterMap_token?_events (call : Invocation) (table : Table) :
    (call.events table).filterMap Event.token? = [] := filterMap_token?_callEvents _ _

end Invocation

/-- What expansion produces from a step on, `rest` being the tokens behind the one read. -/
def Step.proceed (table : Table) (more : Bool) (rest : List Token) : Step → Progress
  | emit produced => (drain table more rest).after [.token produced]
  | refuse issue painted => (drain table more rest).after [.issue issue, .token painted]
  | wait suspended => ⟨[], some suspended⟩
  | invoke call behind =>
    (drain table more ((call.result table).2 ++ behind)).after (call.events table)

@[simp] theorem drain_nil (table : Table) (more : Bool) : drain table more [] = .done := by
  rw [drain]

theorem arguments_eq_attach (call : Invocation) (table : Table) :
    (call.wanted.attach.map fun wanted => (wanted.1.1, drain table false wanted.1.2)) =
      call.arguments table :=
  List.attach_map_val (f := fun w : String × List Token => (w.1, drain table false w.2))

theorem drain_cons (table : Table) (more : Bool) (token : Token) (rest : List Token) :
    drain table more (token :: rest) =
      (step table more token rest).proceed table more rest := by
  rw [drain]
  split
  next h => rw [h]; rfl
  next h => rw [h]; rfl
  next h => rw [h]; rfl
  next h => rw [h, arguments_eq_attach]; rfl

/-- Induction along expansion: on the tokens behind a step, and on the arguments of a call and the
tokens that replace it. -/
theorem drain_induction (table : Table) {motive : Bool → List Token → Prop}
    (nil : ∀ more, motive more [])
    (emit : ∀ more token rest produced, step table more token rest = .emit produced →
      motive more rest → motive more (token :: rest))
    (refuse : ∀ more token rest issue painted, step table more token rest = .refuse issue painted →
      motive more rest → motive more (token :: rest))
    (wait : ∀ more token rest suspended, step table more token rest = .wait suspended →
      motive more (token :: rest))
    (invoke : ∀ more token rest call behind, step table more token rest = .invoke call behind →
      (∀ wanted ∈ call.wanted, motive false wanted.2) →
      motive more ((call.result table).2 ++ behind) → motive more (token :: rest))
    (more : Bool) (tokens : List Token) : motive more tokens := by
  induction more, tokens using drain.induct table with
  | case1 more => exact nil more
  | case2 more token rest produced hs ih => exact emit _ _ _ _ hs ih
  | case3 more token rest issue painted hs ih => exact refuse _ _ _ _ _ hs ih
  | case4 more token rest suspended hs => exact wait _ _ _ _ hs
  | case5 more token rest call behind hs arguments replacement iha ih =>
    have hr : replacement = call.result table := by
      simp only [replacement, arguments, arguments_eq_attach]
      rfl
    exact invoke _ _ _ _ _ hs (fun wanted hw => iha ⟨wanted, hw⟩) (hr ▸ ih)

/-! ## Steps that go on -/

/-- The tokens that are read next behind a step, `rest` being the tokens behind the one read. -/
def Step.next (table : Table) (rest : List Token) : Step → List Token
  | invoke call behind => (call.result table).2 ++ behind
  | _ => rest

/-- What comes out at a step. -/
def Step.events (table : Table) : Step → List Event
  | emit produced => [.token produced]
  | refuse issue painted => [.issue issue, .token painted]
  | wait _ => []
  | invoke call _ => call.events table

theorem Step.proceed_of_not_wait {step : Step} (h : ∀ suspended, step ≠ .wait suspended)
    (table : Table) (more : Bool) (rest : List Token) :
    step.proceed table more rest =
      (drain table more (step.next table rest)).after (step.events table) := by
  cases step with
  | wait suspended => exact absurd rfl (h suspended)
  | emit | refuse | invoke => rfl

theorem drain_cons_of_not_wait {table : Table} {more : Bool} {token : Token} {rest : List Token}
    (h : ∀ suspended, step table more token rest ≠ .wait suspended) :
    drain table more (token :: rest) =
      (drain table more ((step table more token rest).next table rest)).after
        ((step table more token rest).events table) := by
  rw [drain_cons, Step.proceed_of_not_wait h]

/-- Induction along the loop over some tokens, the loops over arguments aside: a step waits or goes
on. -/
theorem drain_steps (table : Table) (more : Bool) {motive : List Token → Prop}
    (nil : motive [])
    (wait : ∀ token rest suspended, step table more token rest = .wait suspended →
      motive (token :: rest))
    (goes : ∀ token rest, (∀ suspended, step table more token rest ≠ .wait suspended) →
      motive ((step table more token rest).next table rest) → motive (token :: rest))
    (tokens : List Token) : motive tokens := by
  generalize hm : more = open_
  induction open_, tokens using drain_induction table with
  | nil => exact nil
  | wait open_ token rest suspended hs =>
    subst hm
    exact wait token rest suspended hs
  | emit open_ token rest produced hs ih =>
    subst hm
    exact goes token rest (by rw [hs]; exact fun _ => Step.noConfusion) (by rw [hs]; exact ih rfl)
  | refuse open_ token rest issue painted hs ih =>
    subst hm
    exact goes token rest (by rw [hs]; exact fun _ => Step.noConfusion) (by rw [hs]; exact ih rfl)
  | invoke open_ token rest call behind hs _ ih =>
    subst hm
    exact goes token rest (by rw [hs]; exact fun _ => Step.noConfusion) (by rw [hs]; exact ih rfl)

theorem feed_some (table : Table) (more : Bool) (suspended : Suspended) (tokens : List Token) :
    feed table more (some suspended) tokens =
      (suspended.head.step more (suspended.read ++ tokens)).proceed table more
        (suspended.read ++ tokens) := by
  simp only [feed, resume]
  generalize suspended.read ++ tokens = rest
  cases suspended.head.step more rest <;> rfl

/-! ## Waiting for more tokens -/

theorem Head.step_false_ne_wait (head : Head) (rest : List Token) (suspended : Suspended) :
    head.step false rest ≠ .wait suspended := by
  unfold Head.step
  repeat' split
  all_goals simp_all [Head.refuse]

theorem step_false_ne_wait (table : Table) (token : Token) (rest : List Token)
    (suspended : Suspended) : step table false token rest ≠ .wait suspended := by
  unfold step
  repeat' split
  all_goals first | exact Head.step_false_ne_wait _ _ _ | simp

/-- Induction along an expansion that nothing follows: on the arguments of a call and on the tokens
that are read next. -/
theorem expand_induction (table : Table) {motive : List Token → Prop} (nil : motive [])
    (cons : ∀ token rest, (∀ call behind, step table false token rest = .invoke call behind →
        ∀ wanted ∈ call.wanted, motive wanted.2) →
      motive ((step table false token rest).next table rest) → motive (token :: rest))
    (tokens : List Token) : motive tokens := by
  generalize hm : false = more
  induction more, tokens using drain_induction table with
  | nil => exact nil
  | wait more token rest suspended hs =>
    subst hm
    exact absurd hs (step_false_ne_wait table token rest suspended)
  | emit more token rest produced hs ih =>
    subst hm
    exact cons token rest (by rw [hs]; exact fun _ _ => Step.noConfusion) (by rw [hs]; exact ih rfl)
  | refuse more token rest issue painted hs ih =>
    subst hm
    exact cons token rest (by rw [hs]; exact fun _ _ => Step.noConfusion) (by rw [hs]; exact ih rfl)
  | invoke more token rest call behind hs ihw ih =>
    subst hm
    refine cons token rest (fun call' behind' he wanted hw => ?_) (by rw [hs]; exact ih rfl)
    obtain ⟨rfl, -⟩ := Step.invoke.inj (hs.symm.trans he)
    exact ihw wanted hw rfl

@[simp] theorem expand_nil (table : Table) : expand table [] = [] := by
  rw [expand, drain_nil]
  rfl

/-- An expansion that nothing follows goes on behind each step. -/
theorem expand_cons (table : Table) (token : Token) (rest : List Token) :
    expand table (token :: rest) = (step table false token rest).events table ++
      expand table ((step table false token rest).next table rest) := by
  rw [expand, drain_cons_of_not_wait (step_false_ne_wait table token rest)]
  rfl

/-- Nothing waits where no more tokens can come. -/
theorem held_drain_false (table : Table) (tokens : List Token) :
    (drain table false tokens).held = none := by
  induction tokens using drain_steps table false with
  | nil => rw [drain_nil]; rfl
  | wait token rest suspended hs => exact absurd hs (step_false_ne_wait _ _ _ _)
  | goes token rest hs ih => rwa [drain_cons_of_not_wait hs, Progress.held_after]

end CPreprocessor.Expansion

import CPreprocessor.Proofs.Expansion.Drain

/-!
# Expansion of a text that comes in parts

A text may reach expansion in parts, and only the call that waits at the end of a part carries over
to the next one.

* `drain_append`: however a text is cut, its parts give what it gives at once.
* `Settled`: a text whose expansion leaves nothing for what follows it to change.
  `drain_of_settled`: nothing waits behind such a text.
* `drain_endOfFile`, `feed_endOfFile`: the end of the file decides every call that waits.
-/

namespace CPreprocessor.Expansion

open Macro

variable {table : Table} {more : Bool} {token : Token} {rest : List Token} {suspended : Suspended}

/-! ## More tokens behind a call -/

namespace Collected

/-- The same outcome with more tokens behind the closing parenthesis. -/
def followedBy (behind : List Token) : Collected → Collected
  | closed first others closing rest => closed first others closing (rest ++ behind)
  | ended => ended
  | exhausted => exhausted

theorem followedBy_add (behind : List Token) (token : Token) (collected : Collected) :
    (collected.add token).followedBy behind = (collected.followedBy behind).add token := by
  cases collected <;> rfl

theorem followedBy_separate (behind : List Token) (collected : Collected) :
    collected.separate.followedBy behind = (collected.followedBy behind).separate := by
  cases collected <;> rfl

theorem add_ne_exhausted {token : Token} {collected : Collected}
    (h : collected.add token ≠ exhausted) : collected ≠ exhausted := by
  rintro rfl
  exact h rfl

theorem separate_ne_exhausted {collected : Collected} (h : collected.separate ≠ exhausted) :
    collected ≠ exhausted := by
  rintro rfl
  exact h rfl

theorem eq_exhausted_of_add {token : Token} {collected : Collected}
    (h : collected.add token = exhausted) : collected = exhausted := by
  cases collected <;> first | contradiction | rfl

theorem eq_exhausted_of_separate {collected : Collected} (h : collected.separate = exhausted) :
    collected = exhausted := by
  cases collected <;> first | contradiction | rfl

end Collected

/-- What a token does to the arguments that are being read, whatever stands behind it. -/
theorem collect_cons (depth : Nat) (token : Token) :
    (∀ rest, collect depth (token :: rest) = .ended) ∨
    (∀ rest, collect depth (token :: rest) = .closed [] [] token rest) ∨
    (∃ inner, ∀ rest, collect depth (token :: rest) = (collect inner rest).add token) ∨
    ∀ rest, collect depth (token :: rest) = (collect depth rest).separate := by
  by_cases he : token.kind = .endOfFile
  · exact .inl fun rest => by unfold collect; rw [if_pos he]
  by_cases ho : token.isPunctuator "("
  · exact .inr (.inr (.inl ⟨depth + 1, fun rest => by
      rw [collect.eq_def]; simp only [if_neg he, if_pos ho]⟩))
  by_cases hc : token.isPunctuator ")"
  · cases depth with
    | zero =>
      exact .inr (.inl fun rest => by
        rw [collect.eq_def]; simp only [if_neg he, if_neg ho, if_pos hc])
    | succ depth =>
      exact .inr (.inr (.inl ⟨depth, fun rest => by
        rw [collect.eq_def]; simp only [if_neg he, if_neg ho, if_pos hc]⟩))
  by_cases hs : token.isPunctuator "," && depth = 0
  · exact .inr (.inr (.inr fun rest => by
      rw [collect.eq_def]; simp only [if_neg he, if_neg ho, if_neg hc, if_pos hs]))
  · exact .inr (.inr (.inl ⟨depth, fun rest => by
      rw [collect.eq_def]; simp only [if_neg he, if_neg ho, if_neg hc, if_neg hs]⟩))

/-- Arguments that close, or that the file ends in, do not depend on the tokens behind them. -/
theorem collect_append {depth : Nat} {tokens : List Token} (behind : List Token)
    (h : collect depth tokens ≠ .exhausted) :
    collect depth (tokens ++ behind) = (collect depth tokens).followedBy behind := by
  induction tokens generalizing depth with
  | nil => exact absurd rfl h
  | cons token rest ih =>
    rw [List.cons_append]
    obtain hc | hc | ⟨inner, hc⟩ | hc := collect_cons depth token
    · rw [hc, hc]
      rfl
    · rw [hc, hc]
      rfl
    · rw [hc] at h
      rw [hc, hc, ih (Collected.add_ne_exhausted h), Collected.followedBy_add]
    · rw [hc] at h
      rw [hc, hc, ih (Collected.separate_ne_exhausted h), Collected.followedBy_separate]

/-- Arguments that do not close end where the file does. -/
theorem collect_endOfFile {depth : Nat} {tokens : List Token} {stop : Token}
    (hk : stop.kind = .endOfFile) (h : collect depth tokens = .exhausted) :
    collect depth (tokens ++ [stop]) = .ended := by
  induction tokens generalizing depth with
  | nil =>
    rw [List.nil_append]
    unfold collect
    rw [if_pos hk]
  | cons token rest ih =>
    rw [List.cons_append]
    obtain hc | hc | ⟨inner, hc⟩ | hc := collect_cons depth token
    · rw [hc]
    · rw [hc] at h
      contradiction
    · rw [hc] at h
      rw [hc, ih (Collected.eq_exhausted_of_add h)]
      rfl
    · rw [hc] at h
      rw [hc, ih (Collected.eq_exhausted_of_separate h)]
      rfl

/-! ## More tokens behind a step -/

/-- The same step with more tokens behind. -/
def Step.followedBy (behind : List Token) : Step → Step
  | invoke call rest => invoke call (rest ++ behind)
  | other => other

@[simp] theorem Step.followedBy_nil (step : Step) : step.followedBy [] = step := by
  cases step <;> simp [followedBy]

/-- A call that waits keeps its name and all that was read. -/
theorem Head.eq_of_wait {head : Head} (h : head.step more rest = .wait suspended) :
    suspended = ⟨head, rest⟩ := by
  unfold Head.step at h
  split at h
  · split at h
    · exact (Step.wait.inj h).symm
    · contradiction
  · split at h
    · split at h
      · split at h
        · exact (Step.wait.inj h).symm
        · contradiction
      · contradiction
      · split at h <;> contradiction
    · contradiction

/-- What becomes of a name does not depend on the tokens behind those that decide it. -/
theorem Head.step_append {head : Head} (more : Bool) (behind : List Token)
    (h : ∀ suspended, head.step true rest ≠ .wait suspended) :
    head.step more (rest ++ behind) = (head.step true rest).followedBy behind := by
  cases rest with
  | nil => exact absurd rfl (h ⟨head, []⟩)
  | cons opening tail =>
    rw [List.cons_append]
    unfold Head.step at h ⊢
    dsimp only at h ⊢
    by_cases ho : opening.isPunctuator "("
    · simp only [if_pos ho] at h ⊢
      have hc : collect 0 tail ≠ .exhausted := by
        intro hc
        exact h _ (by rw [hc]; rfl)
      rw [collect_append behind hc]
      cases hr : collect 0 tail with
      | closed first others closing rest =>
        dsimp only [Collected.followedBy]
        split <;> rfl
      | ended => rfl
      | exhausted => exact absurd hr hc
    · rw [if_neg ho, if_neg ho]
      rfl

theorem step_append (more : Bool) (behind : List Token)
    (h : ∀ suspended, step table true token rest ≠ .wait suspended) :
    step table more token (rest ++ behind) = (step table true token rest).followedBy behind := by
  unfold step at h ⊢
  by_cases he : token.kind = .identifier ∧ token.text ∉ token.hide
  · simp only [if_pos he] at h ⊢
    cases hf : table.find? token.text with
    | none => rfl
    | some definition =>
      simp only [hf] at h ⊢
      cases hp : definition.parameters with
      | none => rfl
      | some parameters =>
        simp only [hp] at h ⊢
        exact Head.step_append more behind h
  · rw [if_neg he, if_neg he]
    rfl

/-- A call that waits is decided by its name and the tokens behind it. -/
theorem step_of_wait (h : step table more token rest = .wait suspended) :
    suspended.read = rest ∧ suspended.head.site = token ∧
      (token.kind = .identifier ∧ token.text ∉ token.hide) ∧
      table.find? token.text = some suspended.head.definition ∧
      suspended.head.definition.parameters = some suspended.head.parameters ∧
      ∀ more rest, step table more token rest = suspended.head.step more rest := by
  unfold step at h
  split at h
  · next he =>
    split at h
    · contradiction
    · next definition hf =>
      split at h
      · contradiction
      · next parameters hp =>
        obtain rfl := Head.eq_of_wait h
        refine ⟨rfl, rfl, he, hf, hp, fun more rest => ?_⟩
        rw [step, if_pos he]
        simp only [hf, hp]
  · contradiction

/-- A step that does not wait is the same where nothing more can come. -/
theorem step_false_of_not_wait (h : ∀ suspended, step table true token rest ≠ .wait suspended) :
    step table false token rest = step table true token rest := by
  have hs := step_append false [] h
  rwa [List.append_nil, Step.followedBy_nil] at hs

/-- A call waits behind its name, or inside its parentheses. -/
theorem Head.open_of_wait {head : Head} (h : head.step more rest = .wait suspended) :
    rest = [] ∨ ∃ opening tail, rest = opening :: tail ∧ opening.isPunctuator "(" ∧
      collect 0 tail = .exhausted := by
  cases rest with
  | nil => exact .inl rfl
  | cons opening tail =>
    right
    unfold Head.step at h
    dsimp only at h
    split at h
    · next ho =>
      split at h
      · next hc => exact ⟨opening, tail, rfl, ho, hc⟩
      · contradiction
      · split at h <;> contradiction
    · contradiction

/-- What a call that waits comes to where nothing more can come. -/
theorem Head.step_false_of_wait {head : Head} (h : head.step true rest = .wait suspended) :
    (rest = [] ∧ head.step false rest = .emit head.site) ∨
      head.step false rest = head.refuse (.invocationUnclosed head.site.text) := by
  obtain rfl | ⟨opening, tail, rfl, ho, hc⟩ := Head.open_of_wait h
  · exact .inl ⟨rfl, rfl⟩
  · right
    simp only [Head.step, if_pos ho, hc]
    rfl

/-- The end of the file decides what becomes of a name as if nothing came. -/
theorem Head.step_endOfFile {head : Head} {stop : Token} (hk : stop.kind = .endOfFile) :
    head.step more (rest ++ [stop]) = (head.step false rest).followedBy [stop] := by
  by_cases hw : ∃ suspended, head.step true rest = .wait suspended
  · obtain ⟨suspended, hw⟩ := hw
    obtain rfl | ⟨opening, tail, rfl, ho, hc⟩ := Head.open_of_wait hw
    · have ho : ¬stop.isPunctuator "(" := by simp [Token.isPunctuator, hk]
      simp only [List.nil_append, Head.step, if_neg ho]
      rfl
    · simp only [List.cons_append, Head.step, if_pos ho, hc, collect_endOfFile hk hc]
      rfl
  · have hn : ∀ suspended, head.step true rest ≠ .wait suspended := fun s h => hw ⟨s, h⟩
    have hf := Head.step_append false [] hn
    rw [List.append_nil, Step.followedBy_nil] at hf
    rw [Head.step_append more [stop] hn, hf]

theorem step_endOfFile {stop : Token} (hk : stop.kind = .endOfFile) :
    step table more token (rest ++ [stop]) = (step table false token rest).followedBy [stop] := by
  unfold step
  by_cases he : token.kind = .identifier ∧ token.text ∉ token.hide
  · rw [if_pos he, if_pos he]
    cases table.find? token.text with
    | none => rfl
    | some definition =>
      dsimp only
      cases definition.parameters with
      | none => rfl
      | some parameters => exact Head.step_endOfFile hk
  · rw [if_neg he, if_neg he]
    rfl

/-! ## A text in two parts -/

/-- What follows a step that goes on has more tokens behind as well. -/
theorem Step.proceed_followedBy {step : Step} (h : ∀ suspended, step ≠ .wait suspended)
    (table : Table) (more : Bool) (rest behind : List Token) :
    (step.followedBy behind).proceed table more (rest ++ behind) =
      (drain table more (step.next table rest ++ behind)).after (step.events table) := by
  cases step with
  | wait suspended => exact absurd rfl (h suspended)
  | emit | refuse => rfl
  | invoke call rest' => rw [followedBy, proceed, next, events, List.append_assoc]

/-- Expanding a text in two parts is expanding it at once, with the call that waits at the end of
the first part carried over. -/
theorem drain_append (table : Table) (more : Bool) (tokens behind : List Token) :
    drain table more (tokens ++ behind) =
      (feed table more (drain table true tokens).held behind).after
        (drain table true tokens).events := by
  induction tokens using drain_steps table true with
  | nil => rw [drain_nil]; rfl
  | wait token rest suspended hs =>
    obtain ⟨hr, -, -, -, -, hw⟩ := step_of_wait hs
    rw [List.cons_append, drain_cons, drain_cons, hs, hw]
    rw [Step.proceed, feed_some, hr, Progress.after_nil]
  | goes token rest hs ih =>
    rw [List.cons_append, drain_cons, step_append more behind hs, Step.proceed_followedBy hs, ih,
      drain_cons_of_not_wait hs, Progress.after_after, Progress.events_after, Progress.held_after]

/-! ## A text that leaves nothing open -/

/-- A name that would begin a call if an opening parenthesis followed it. -/
def Callable (table : Table) (token : Token) : Prop :=
  token.kind = .identifier ∧ token.text ∉ token.hide ∧
    (table.find? token.text).any fun definition => definition.parameters.isSome

/-- Expansion of the text leaves nothing that tokens behind it could change: it reports no call
that does not end, and the last token to come out is no name that could begin a call. -/
structure Settled (table : Table) (tokens : List Token) : Prop where
  closed : ∀ issue ∈ (expand table tokens).filterMap Event.issue?,
    issue.fault.category ≠ .unterminatedInvocation
  last : ∀ last ∈ ((expand table tokens).filterMap Event.token?).getLast?, ¬Callable table last

instance (table : Table) (token : Token) : Decidable (Callable table token) :=
  inferInstanceAs (Decidable (_ ∧ _ ∧ _))

instance (table : Table) (tokens : List Token) : Decidable (Settled table tokens) :=
  decidable_of_iff (_ ∧ _) ⟨fun h => ⟨h.1, h.2⟩, fun h => ⟨h.closed, h.last⟩⟩

theorem Settled.of_events {tokens behind : List Token} {events : List Event}
    (h : Settled table tokens) (he : expand table tokens = events ++ expand table behind) :
    Settled table behind := by
  refine ⟨fun issue hi => h.closed issue ?_, fun last hl => h.last last ?_⟩
  · rw [he, List.filterMap_append]
    exact List.mem_append_right _ hi
  · rw [he, List.filterMap_append, List.getLast?_append, Option.mem_def.1 hl]
    rfl

/-- Nothing waits behind a settled text, and it gives what it gives alone. -/
theorem drain_of_settled {tokens : List Token} (h : Settled table tokens) :
    drain table true tokens = drain table false tokens := by
  induction tokens using drain_steps table true with
  | nil => rw [drain_nil, drain_nil]
  | wait token rest suspended hs =>
    obtain ⟨-, hsite, he, hf, hp, hw⟩ := step_of_wait hs
    exfalso
    obtain ⟨rfl, ho⟩ | hr := Head.step_false_of_wait ((hw true rest).symm.trans hs)
    · have hx : expand table [token] = [.token token] := by
        rw [expand, drain_cons, hw, ho, Step.proceed, drain_nil, hsite]
        rfl
      exact h.last token (by rw [hx]; rfl) ⟨he.1, he.2, by simp [hf, hp]⟩
    · have hi : .placed (.invocationUnclosed suspended.head.site.text)
          suspended.head.site.position ∈
            (expand table (token :: rest)).filterMap Event.issue? := by
        rw [expand, drain_cons, hw, hr]
        exact List.mem_cons_self
      exact h.closed _ hi rfl
  | goes token rest hs ih =>
    have hf := step_false_of_not_wait hs
    have hd := drain_cons_of_not_wait (fun suspended hw => hs suspended (hf.symm.trans hw))
    rw [hf] at hd
    rw [hd, drain_cons_of_not_wait hs, ih (h.of_events (congrArg Progress.events hd))]

/-- What a text and the end of the file behind it give. -/
theorem after_endOfFile (p : Progress) (stop : Token) (events : List Event) :
    Progress.after events ⟨p.events ++ [.token stop], none⟩ =
      ⟨(p.after events).events ++ [.token stop], none⟩ := by
  simp [Progress.after]

/-- The end of the file comes out last, behind what the text gives where nothing more comes. -/
theorem drain_endOfFile (table : Table) (more : Bool) (tokens : List Token) {stop : Token}
    (hk : stop.kind = .endOfFile) :
    drain table more (tokens ++ [stop]) = ⟨expand table tokens ++ [.token stop], none⟩ := by
  have hstop : ∀ rest, step table more stop rest = .emit stop := by
    intro rest
    rw [step, if_neg (fun h => by simp [hk] at h)]
  unfold expand
  induction tokens using drain_steps table false with
  | nil =>
    rw [List.nil_append, drain_cons, hstop, Step.proceed, drain_nil, drain_nil]
    rfl
  | wait token rest suspended hs => exact absurd hs (step_false_ne_wait _ _ _ _)
  | goes token rest hs ih =>
    rw [List.cons_append, drain_cons, step_endOfFile hk, Step.proceed_followedBy hs, ih,
      after_endOfFile, ← drain_cons_of_not_wait hs]

/-- The end of the file comes out last behind a call that waits, too. -/
theorem feed_endOfFile (table : Table) (more : Bool) (held : Option Suspended)
    (tokens : List Token) {stop : Token} (hk : stop.kind = .endOfFile) :
    feed table more held (tokens ++ [stop]) =
      ⟨(feed table false held tokens).events ++ [.token stop], none⟩ := by
  cases held with
  | none => exact drain_endOfFile table more tokens hk
  | some suspended =>
    rw [feed_some, feed_some, ← List.append_assoc]
    generalize suspended.read ++ tokens = rest
    have hn : ∀ further, suspended.head.step false rest ≠ .wait further :=
      fun further => Head.step_false_ne_wait _ _ further
    rw [Head.step_endOfFile hk, Step.proceed_followedBy hn, drain_endOfFile _ _ _ hk, expand,
      after_endOfFile, ← Step.proceed_of_not_wait hn]

end CPreprocessor.Expansion

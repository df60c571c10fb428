import CPreprocessor.Proofs.Expansion.Turns
import CPreprocessor.Proofs.Include.Overlong
import CPreprocessor.Proofs.Reader

/-!
# The pipeline as a machine

What is read goes through expansion and through the joining of literals before it comes out, and
each of the two may hold something back: a call that is not closed, a literal that another one may
follow. `Pipeline` is the reader with what is held back behind it.

* `expandPart`, `mergePart?`: the two stages on what one step of the reader gives. `Expands`: the
  first one with the number of its turns.
* `Iterates`: the pipeline comes to its end, or crashes, after so many steps and turns.
  `Iterates.unique`: in one way only. `iterates_of_reads`: to its end where the reader does.
* `exists_body_of_endsMain`: ordinary tokens come out, and one end of file behind them.
  `ordinary_of_broken`: ordinary tokens alone, where reading is broken off.
* `Run.WellFormed`: one end of file behind ordinary tokens, and no file left open. `Run.Closed`: a
  run is well-formed unless it is broken off.
* `pipeline_ends`: main files run one after the other all come to their ends, and a path that the
  system refuses to look up is all that any of them crashes at.
-/

namespace CPreprocessor

open Expansion Include

variable {files : Files.Tree} {options : Options} {P : Token → Prop} {session : Session}

namespace Emission

/-! ## Stages in parts -/

/-- Expands the text among some items; what is held back waits for the items behind them. -/
def expandPart (held : Option Suspended) : List Item → List Emission × Option Suspended
  | [] => ([], held)
  | .issue raised :: rest =>
    let more := expandPart held rest
    (issue raised :: more.1, more.2)
  | .text session tokens :: rest =>
    let progress := feed session.macros true held tokens
    let more := expandPart progress.held rest
    (progress.events.map (ofEvent session) ++ more.1, more.2)

theorem expandFrom_eq (held : Option Suspended) (items : List Item) :
    expandFrom held items = (expandPart held items).1 := by
  induction items generalizing held with
  | nil => rfl
  | cons item rest ih =>
    cases item with
    | issue raised => rw [expandFrom, ih, expandPart]
    | text session tokens => simp only [expandFrom, ih, expandPart]

theorem expandPart_append (held : Option Suspended) (items more : List Item) :
    expandPart held (items ++ more) =
      let first := expandPart held items
      let second := expandPart first.2 more
      (first.1 ++ second.1, second.2) := by
  induction items generalizing held with
  | nil => rfl
  | cons item rest ih =>
    cases item with
    | issue raised => simp only [List.cons_append, expandPart, ih]
    | text session tokens => simp only [List.cons_append, expandPart, ih, List.append_assoc]

/-- The loops over the texts among some items come to their ends after so many turns, and this comes
out and that is held back. -/
inductive Expands : Option Suspended → List Item → Nat → List Emission → Option Suspended → Prop
    where
  | done (held : Option Suspended) : Expands held [] 0 [] held
  | issue {held left : Option Suspended} {raised : Issue} {rest : List Item} {turns : Nat}
      {emissions : List Emission} (h : Expands held rest turns emissions left) :
      Expands held (.issue raised :: rest) turns (issue raised :: emissions) left
  | text {held left : Option Suspended} {session : Session} {tokens : List Token} {rest : List Item}
      {first turns : Nat} {p : Progress} {emissions : List Emission}
      (hf : Feeds session.macros true held tokens first p)
      (h : Expands p.held rest turns emissions left) :
      Expands held (.text session tokens :: rest) (first + turns)
        (p.events.map (ofEvent session) ++ emissions) left

theorem expands_expandPart (held : Option Suspended) (items : List Item) :
    ∃ turns, Expands held items turns (expandPart held items).1 (expandPart held items).2 := by
  induction items generalizing held with
  | nil => exact ⟨0, .done held⟩
  | cons item rest ih =>
    cases item with
    | issue raised =>
      obtain ⟨turns, h⟩ := ih held
      exact ⟨turns, .issue h⟩
    | text session tokens =>
      obtain ⟨first, hf⟩ := feeds_feed session.macros true held tokens
      obtain ⟨turns, h⟩ := ih (feed session.macros true held tokens).held
      exact ⟨first + turns, .text hf h⟩

theorem Expands.unique {held left₁ left₂ : Option Suspended} {items : List Item}
    {turns₁ turns₂ : Nat} {emissions₁ emissions₂ : List Emission}
    (h₁ : Expands held items turns₁ emissions₁ left₁)
    (h₂ : Expands held items turns₂ emissions₂ left₂) :
    turns₁ = turns₂ ∧ emissions₁ = emissions₂ ∧ left₁ = left₂ := by
  induction h₁ generalizing turns₂ emissions₂ with
  | done held =>
    cases h₂
    exact ⟨rfl, rfl, rfl⟩
  | issue _ ih =>
    cases h₂ with
    | issue h =>
      obtain ⟨rfl, rfl, rfl⟩ := ih h
      exact ⟨rfl, rfl, rfl⟩
  | text hf _ ih =>
    cases h₂ with
    | text hf' h =>
      obtain ⟨rfl, rfl⟩ := hf.unique hf'
      obtain ⟨rfl, rfl, rfl⟩ := ih h
      exact ⟨rfl, rfl, rfl⟩

/-- Merges the literals among what comes out of expansion; the one held back waits for what comes
behind. Nothing, if a literal that is to be joined with another one has no quote. -/
def mergePart? (held : Option (Session × Token)) :
    List Emission → Option (List Emission × Option (Session × Token))
  | [] => some ([], held)
  | issue raised :: rest => do
    let (more, held) ← mergePart? held rest
    return (issue raised :: more, held)
  | token session produced :: rest => do
    let (ready, left) ← Literal.absorb? (held.map Prod.snd) produced
    let (more, held) ← mergePart? (left.map (session, ·)) rest
    return (ready.map (token session) ++ more, held)

/-- The property holds of the token, if it is one. -/
def Has (P : Token → Prop) : Emission → Prop
  | token _ produced => P produced
  | issue _ => True

theorem Has.of_token? {emission : Emission} (h : emission.Has P) :
    ∀ token ∈ emission.token?, P token := by
  cases emission with
  | token session produced =>
    intro token ht
    obtain rfl := Option.some.inj ht
    exact h
  | issue raised => nofun

theorem has_ofEvent {events : List Event} (h : ∀ token ∈ events.filterMap Event.token?, P token)
    (session : Session) : ∀ emission ∈ events.map (ofEvent session), emission.Has P := by
  intro emission hm
  obtain ⟨event, he, rfl⟩ := List.mem_map.1 hm
  cases event with
  | token produced => exact h produced (List.mem_filterMap.2 ⟨_, he, rfl⟩)
  | issue raised => trivial

/-- The property goes through the expansion of a part. -/
theorem has_expandPart (hi : Inherited P) {held : Option Suspended}
    (hh : ∀ suspended ∈ held, suspended.Has P) {items : List Item}
    (ht : ∀ item ∈ items, item.Has P) :
    (∀ emission ∈ (expandPart held items).1, emission.Has P) ∧
      ∀ suspended ∈ (expandPart held items).2, suspended.Has P := by
  induction items generalizing held with
  | nil => exact ⟨List.forall_mem_nil _, hh⟩
  | cons item rest ih =>
    obtain ⟨hf, hr⟩ := List.forall_mem_cons.1 ht
    cases item with
    | issue raised =>
      obtain ⟨hm, hs⟩ := ih hh hr
      exact ⟨List.forall_mem_cons.2 ⟨trivial, hm⟩, hs⟩
    | text session tokens =>
      have hp := has_feed hi hf.1 true hh hf.2
      obtain ⟨hm, hs⟩ := ih hp.held hr
      refine ⟨fun emission he => ?_, hs⟩
      rcases List.mem_append.1 he with he | he
      · exact has_ofEvent hp.tokens session emission he
      · exact hm emission he

/-- What merging a part comes to: what is ready, and the literal held back. -/
structure Merged (P : Token → Prop) (held : Option (Session × Token)) (emissions : List Emission)
    (ready : List Emission) (left : Option (Session × Token)) : Prop where
  made : mergePart? held emissions = some (ready, left)
  holds : Literal.Holds (left.map Prod.snd)
  has : ∀ emission ∈ ready, emission.Has P
  left_has : ∀ kept ∈ left, P kept.2
  append : ∀ whole more,
    mergeFrom whole held (emissions ++ more) = ready ++ mergeFrom whole left more

/-- Literals with quotes are merged to the end of the part. -/
theorem merged_of_quoted (hi : Inherited P) (hq : ∀ token, P token → token.Quoted)
    {held : Option (Session × Token)} (hh : Literal.Holds (held.map Prod.snd))
    (hp : ∀ kept ∈ held, P kept.2) {emissions : List Emission}
    (he : ∀ emission ∈ emissions, emission.Has P) :
    ∃ ready left, Merged P held emissions ready left := by
  induction emissions generalizing held with
  | nil => exact ⟨[], held, rfl, hh, List.forall_mem_nil _, hp, fun _ _ => rfl⟩
  | cons emission rest ih =>
    obtain ⟨hf, hr⟩ := List.forall_mem_cons.1 he
    cases emission with
    | issue raised =>
      obtain ⟨ready, left, hmade, hholds, hready, hleft, happend⟩ := ih hh hp hr
      refine ⟨issue raised :: ready, left, ?_, hholds, List.forall_mem_cons.2 ⟨trivial, hready⟩,
        hleft, fun whole more => ?_⟩
      · rw [mergePart?, hmade]
        rfl
      · rw [List.cons_append, mergeFrom, happend, List.cons_append]
    | token session produced =>
      have hq' : produced.Quoted := hq _ hf
      have hk : ∀ left ∈ held.map Prod.snd, P left := by
        intro left hl
        obtain ⟨kept, hm, rfl⟩ := Option.map_eq_some_iff.1 hl
        exact hp kept hm
      obtain ⟨hout, hin⟩ := Literal.has_absorb hi hk hf
      have hholds := Literal.holds_absorb hh hq'
      have hmade := Literal.absorb?_eq hh hq'
      generalize ha : Literal.absorb (held.map Prod.snd) produced = absorbed at *
      obtain ⟨out, inside⟩ := absorbed
      have hs : (inside.map (session, ·)).map Prod.snd = inside := by cases inside <;> rfl
      have hn : Literal.Holds ((inside.map (session, ·)).map Prod.snd) := by
        rw [hs]
        exact hholds
      have hkept : ∀ kept ∈ inside.map (session, ·), P kept.2 := by
        intro kept hm
        obtain ⟨token, ht, rfl⟩ := Option.map_eq_some_iff.1 hm
        exact hin token ht
      obtain ⟨ready, left, hm, hh, hready, hleft, happend⟩ := ih hn hkept hr
      refine ⟨out.map (token session) ++ ready, left, ?_, hh, fun emission hm => ?_, hleft,
        fun whole more => ?_⟩
      · simp only [mergePart?, hmade]
        simp [hm]
      · rcases List.mem_append.1 hm with hm | hm
        · obtain ⟨made, hmem, rfl⟩ := List.mem_map.1 hm
          exact hout made hmem
        · exact hready emission hm
      · simp only [List.cons_append, mergeFrom, ha, happend, List.append_assoc]

/-- Issues alone are passed on, whatever is held back. -/
theorem expandPart_issues (held : Option Suspended) (issues : List Issue) :
    expandPart held (issues.map .issue) = (issues.map issue, held) := by
  induction issues with
  | nil => rfl
  | cons first rest ih => simp only [List.map_cons, expandPart, ih]

theorem mergeFrom_issues (whole : Bool) (held : Option (Session × Token)) (issues : List Issue)
    (emissions : List Emission) :
    mergeFrom whole held (issues.map issue ++ emissions) =
      issues.map issue ++ mergeFrom whole held emissions := by
  induction issues with
  | nil => rfl
  | cons first rest ih => simp only [List.map_cons, List.cons_append, mergeFrom, ih]

end Emission

/-! ## The machine -/

open Emission

/-- The reader, the call that waits for more tokens, and the literal that another one may follow. -/
structure Pipeline where
  reader : Reader
  held : Option Suspended
  literal : Option (Session × Token)

/-- The pipeline comes to its end or crashes after so many steps of the reader and turns of
expansion, when this has come out. It has an end where nothing is left to read and no call waits.
Where it crashes, what it holds back is lost. -/
inductive Iterates (files : Files.Tree) (options : Options) :
    Pipeline → Nat → List Emission → Except Crash Session → Prop where
  | done (session : Session) (literal : Option (Session × Token)) :
      Iterates files options ⟨⟨session, []⟩, none, literal⟩ 0
        (literal.toList.map fun last => token last.1 last.2) (.ok session)
  | crash {reader : Reader} {held : Option Suspended} {literal : Option (Session × Token)}
      {crash : Crash} (ho : reader.remainders ≠ [])
      (ha : reader.advance files options = .error crash) :
      Iterates files options ⟨reader, held, literal⟩ 1 (crash.raised.map issue) (.error crash)
  | unquoted {reader next : Reader} {held left : Option Suspended}
      {literal : Option (Session × Token)} {items : List Item} {expanded : List Emission}
      {turns : Nat}
      (ho : reader.remainders ≠ []) (ha : reader.advance files options = .ok (items, next))
      (he : Expands held items turns expanded left) (hm : mergePart? literal expanded = none) :
      Iterates files options ⟨reader, held, literal⟩ (turns + 1) [] (.error .literal)
  | step {reader next : Reader} {held left : Option Suspended}
      {literal kept : Option (Session × Token)} {items : List Item}
      {expanded ready more : List Emission} {turns steps : Nat} {outcome : Except Crash Session}
      (ho : reader.remainders ≠ []) (ha : reader.advance files options = .ok (items, next))
      (he : Expands held items turns expanded left)
      (hm : mergePart? literal expanded = some (ready, kept))
      (h : Iterates files options ⟨next, left, kept⟩ steps more outcome) :
      Iterates files options ⟨reader, held, literal⟩ (steps + turns + 1) (ready ++ more) outcome

/-- The steps, what comes out and the outcome are a function of the state. -/
theorem Iterates.unique {pipeline : Pipeline} {steps₁ steps₂ : Nat}
    {emissions₁ emissions₂ : List Emission} {outcome₁ outcome₂ : Except Crash Session}
    (h₁ : Iterates files options pipeline steps₁ emissions₁ outcome₁)
    (h₂ : Iterates files options pipeline steps₂ emissions₂ outcome₂) :
    steps₁ = steps₂ ∧ emissions₁ = emissions₂ ∧ outcome₁ = outcome₂ := by
  induction h₁ generalizing steps₂ emissions₂ outcome₂ with
  | done session literal =>
    cases h₂ with
    | done => exact ⟨rfl, rfl, rfl⟩
    | crash ho | unquoted ho | step ho => exact absurd rfl ho
  | crash ho ha =>
    cases h₂ with
    | done => exact absurd rfl ho
    | crash _ ha' =>
      cases ha.symm.trans ha'
      exact ⟨rfl, rfl, rfl⟩
    | unquoted _ ha' | step _ ha' => cases ha.symm.trans ha'
  | unquoted ho ha he hm =>
    cases h₂ with
    | done => exact absurd rfl ho
    | crash _ ha' => cases ha.symm.trans ha'
    | unquoted _ ha' he' =>
      cases ha.symm.trans ha'
      obtain ⟨rfl, -, -⟩ := he.unique he'
      exact ⟨rfl, rfl, rfl⟩
    | step _ ha' he' hm' =>
      cases ha.symm.trans ha'
      obtain ⟨-, rfl, -⟩ := he.unique he'
      cases hm.symm.trans hm'
  | step ho ha he hm _ ih =>
    cases h₂ with
    | done => exact absurd rfl ho
    | crash _ ha' => cases ha.symm.trans ha'
    | unquoted _ ha' he' hm' =>
      cases ha.symm.trans ha'
      obtain ⟨-, rfl, -⟩ := he.unique he'
      cases hm.symm.trans hm'
    | step _ ha' he' hm' h =>
      cases ha.symm.trans ha'
      obtain ⟨rfl, rfl, rfl⟩ := he.unique he'
      cases hm.symm.trans hm'
      obtain ⟨rfl, rfl, rfl⟩ := ih h
      exact ⟨rfl, rfl, rfl⟩

/-- What a run comes to: the session at its end, or the crash at the path that it was broken off
at. -/
inductive Ended (final : Session) : Option Files.Overlong → Except Crash Session → Prop where
  | whole : Ended final none (.ok final)
  | broken (raised : List Issue) (fault : Files.Overlong) :
      Ended final (some fault) (.error (.overlong raised fault))

/-- Where the reader comes to its end through literals with quotes, and no call waits there, so does
the pipeline. Where the reader is broken off, so is the pipeline. -/
theorem iterates_of_reads {reader : Reader} {steps : Nat} {items : List Item} {final : Session}
    {halt : Option Files.Overlong} (hr : Reads files options reader steps items final halt)
    (hi : ∀ item ∈ items, item.Has Token.Quoted) {held : Option Suspended}
    (hh : ∀ suspended ∈ held, suspended.Has Token.Quoted) {literal : Option (Session × Token)}
    (hl : Literal.Holds (literal.map Prod.snd))
    (hn : halt = none → (expandPart held items).2 = none) :
    ∃ steps outcome, Ended final halt outcome ∧ Iterates files options ⟨reader, held, literal⟩ steps
      (mergeFrom halt.isNone literal (expandPart held items).1) outcome := by
  induction hr generalizing held literal with
  | done session =>
    obtain rfl : held = none := hn rfl
    exact ⟨0, _, .whole, .done session literal⟩
  | @halt reader raised fault ho ha =>
    have hlost : mergeFrom false literal (raised.map issue) = raised.map issue := by
      simpa [mergeFrom] using mergeFrom_issues false literal raised []
    rw [expandPart_issues]
    dsimp only [Option.isNone]
    rw [hlost]
    exact ⟨1, _, .broken raised fault, .crash ho ha⟩
  | @step reader next items more steps final halt ho ha _ ih =>
    obtain ⟨hitems, hmore⟩ := List.forall_mem_append.1 hi
    obtain ⟨hem, hleft⟩ := has_expandPart inherited_quoted hh hitems
    have hk : ∀ kept ∈ literal, kept.2.Quoted := fun kept hm =>
      (hl kept.2 (Option.mem_map_of_mem Prod.snd hm)).2
    obtain ⟨ready, kept, hm⟩ := merged_of_quoted inherited_quoted (fun _ hq => hq) hl hk hem
    rw [expandPart_append] at hn ⊢
    obtain ⟨steps, outcome, hended, h⟩ := ih hmore hleft hm.holds hn
    obtain ⟨turns, he⟩ := expands_expandPart held items
    have hs := Iterates.step ho ha he hm.made h
    rw [← hm.append] at hs
    exact ⟨_, outcome, hended, hs⟩

/-! ## Well-formed streams -/

/-- A run ends in an end of file, with ordinary tokens only in front of it and no file open. -/
structure Run.WellFormed (run : Run) : Prop where
  tokens : ∃ body stop, run.tokens = body ++ [stop] ∧ stop.kind = .endOfFile ∧
    ∀ token ∈ body, token.kind ≠ .endOfFile ∧ token.kind ≠ .newline ∧
      token.kind ≠ .directiveHash ∧ token.kind ≠ .headerName
  stack : run.session.stack.frames = []

/-- The end of a main file decides the call that waits in front of it, and nothing waits behind. -/
theorem expandPart_endOfFile (held : Option Suspended) (front : List Item) (final : Session)
    {stop : Token} (hk : stop.kind = .endOfFile) :
    expandPart held (front ++ [.text final [stop]]) =
      ((expandPart held front).1 ++
        ((feed final.macros false (expandPart held front).2 []).events.map (ofEvent final) ++
          [.token final stop]), none) := by
  have he := feed_endOfFile final.macros true (expandPart held front).2 [] hk
  rw [List.nil_append] at he
  rw [expandPart_append]
  simp only [expandPart, he, List.map_append, List.append_nil]
  rfl

theorem tokens_merge_endOfFile (literal : Option (Session × Token)) (final : Session) {stop : Token}
    (hk : stop.kind = .endOfFile) :
    (mergeFrom true literal [.token final stop]).filterMap Emission.token? =
      (literal.map Prod.snd).toList ++ [stop] := by
  have hs : stop.kind ≠ .string := by
    rw [hk]
    decide
  cases literal with
  | none => simp [mergeFrom, Literal.absorb, hs, Emission.token?]
  | some kept => simp [mergeFrom, Literal.absorb, hs, Emission.token?]

/-- Ordinary tokens stay ordinary where they are expanded. -/
theorem ordinary_expandPart {items : List Item} (h : ∀ item ∈ items, item.Has Token.Ordinary) :
    (∀ emission ∈ (expandPart none items).1, emission.Has Token.Ordinary) ∧
      ∀ suspended ∈ (expandPart none items).2, suspended.Has Token.Ordinary :=
  has_expandPart inherited_ordinary
    (fun suspended hm => absurd hm (Option.not_mem_none suspended)) h

theorem merged_of_ordinary {emissions : List Emission}
    (h : ∀ emission ∈ emissions, emission.Has Token.Ordinary) :
    ∃ ready left, Merged Token.Ordinary none emissions ready left := by
  have hholds : Literal.Holds ((none : Option (Session × Token)).map Prod.snd) :=
    Literal.holds_none
  exact merged_of_quoted inherited_ordinary (fun _ ho => ho.quoted) hholds
    (fun kept hm => absurd hm (Option.not_mem_none kept)) h

/-- Whatever was read up to the end of a main file gives ordinary tokens and an end of file. -/
theorem exists_body_of_endsMain {reading : Reading} (h : EndsMain options reading)
    (hn : reading.halt = none) :
    ∃ body stop, (Run.ofReading reading).tokens = body ++ [.endOfFile stop] ∧
      ∀ token ∈ body, token.Ordinary := by
  obtain ⟨front, stop, hitems, hfront⟩ := h.whole hn
  obtain ⟨hem, hheld⟩ := ordinary_expandPart hfront
  have hfeed := has_feed inherited_ordinary h.macros false hheld (List.forall_mem_nil _)
  have hlast := has_ofEvent hfeed.tokens reading.session
  obtain ⟨ready, literal, hm⟩ := merged_of_ordinary (List.forall_mem_append.2 ⟨hem, hlast⟩)
  refine ⟨ready.filterMap Emission.token? ++ (literal.map Prod.snd).toList, stop, ?_,
    fun token ht => ?_⟩
  · have hk : (Token.endOfFile stop).kind = .endOfFile := rfl
    rw [Run.tokens, Run.ofReading, hn, expandFrom_eq, hitems, expandPart_endOfFile _ _ _ hk,
      ← List.append_assoc]
    dsimp only [Option.isNone]
    rw [hm.append, List.filterMap_append, tokens_merge_endOfFile _ _ hk, List.append_assoc]
  · rcases List.mem_append.1 ht with ht | ht
    · obtain ⟨emission, he, ht⟩ := List.mem_filterMap.1 ht
      exact (hm.has emission he).of_token? token ht
    · obtain ⟨kept, hl, rfl⟩ := Option.map_eq_some_iff.1 (Option.mem_toList.1 ht)
      exact hm.left_has kept hl

/-- Whatever was read up to a path that the system refuses gives ordinary tokens. -/
theorem ordinary_of_broken {reading : Reading} (h : EndsMain options reading)
    {fault : Files.Overlong} (hb : reading.halt = some fault) :
    ∀ token ∈ (Run.ofReading reading).tokens, token.Ordinary := by
  obtain ⟨hem, -⟩ := ordinary_expandPart (h.broken fault hb)
  obtain ⟨ready, literal, hm⟩ := merged_of_ordinary hem
  have hready : mergeFrom false none (expandPart none reading.items).1 = ready := by
    simpa [mergeFrom] using hm.append false []
  intro token ht
  rw [Run.tokens, Run.ofReading, hb, expandFrom_eq] at ht
  dsimp only [Option.isNone] at ht
  rw [hready] at ht
  obtain ⟨emission, he, ht⟩ := List.mem_filterMap.1 ht
  exact (hm.has emission he).of_token? token ht

/-- How a run over a main file ends: with a well-formed stream unless it is broken off, and then at
a path that a header may have and that the system refuses, behind ordinary tokens alone. -/
structure Run.Closed (files : Files.Tree) (options : Options) (run : Run) : Prop where
  wellFormed_iff : run.WellFormed ↔ run.halt = none
  stack : run.session.stack.frames = []
  refused : ∀ fault ∈ run.halt, ∃ (reference : Reference) (directory : Option Files.Path),
    fault.path ∈ reference.candidates options directory ∧ files.refuses fault.path
  broken : ∀ fault ∈ run.halt, ∀ token ∈ run.tokens, token.kind ≠ .endOfFile ∧
    token.kind ≠ .newline ∧ token.kind ≠ .directiveHash ∧ token.kind ≠ .headerName

/-- Whatever was read of a main file, the run ends like that. -/
theorem closed_of_endsMain {reading : Reading} (h : EndsMain options reading)
    (hl : ∀ fault ∈ reading.halt, ∃ (reference : Reference) (directory : Option Files.Path),
      reference.locate files options directory = .error fault) :
    (Run.ofReading reading).Closed files options := by
  have hstack : reading.session.stack.frames = [] := by
    rw [h.stack]
    rfl
  have hbroken : ∀ fault ∈ reading.halt, ∀ token ∈ (Run.ofReading reading).tokens,
      token.kind ≠ .endOfFile ∧ token.kind ≠ .newline ∧ token.kind ≠ .directiveHash ∧
        token.kind ≠ .headerName := fun fault hm token ht =>
    Token.Kind.isOrdinary_iff.1 (ordinary_of_broken h hm token ht).kind
  refine ⟨⟨fun hw => ?_, fun hn => ?_⟩, hstack, fun fault hm => ?_, hbroken⟩
  · obtain ⟨body, stop, htokens, hstop, -⟩ := hw.tokens
    show reading.halt = none
    by_contra hne
    obtain ⟨fault, hm⟩ := Option.ne_none_iff_exists'.1 hne
    refine (hbroken fault hm stop ?_).1 hstop
    rw [htokens]
    exact List.mem_append_right body List.mem_cons_self
  · obtain ⟨body, stop, htokens, hbody⟩ := exists_body_of_endsMain h hn
    exact ⟨⟨body, .endOfFile stop, htokens, rfl,
      fun token ht => Token.Kind.isOrdinary_iff.1 (hbody token ht).kind⟩, hstack⟩
  · obtain ⟨reference, directory, hlocate⟩ := hl fault hm
    obtain ⟨before, after, hpaths, hrefused, -⟩ := Reference.locate_eq_error_iff.1 hlocate
    refine ⟨reference, directory, ?_, hrefused⟩
    rw [hpaths]
    exact List.mem_append_right before List.mem_cons_self

/-! ## Main files one after the other -/

namespace Files.Path

theorem mem_of_splitSlashes {text piece : List Char} {c : Char} (hp : piece ∈ splitSlashes text)
    (hc : c ∈ piece) : c ∈ text := by
  induction text generalizing piece with
  | nil =>
    rw [List.mem_singleton.1 hp] at hc
    contradiction
  | cons first rest ih =>
    unfold splitSlashes at hp
    split at hp
    · rcases List.mem_cons.1 hp with rfl | hp
      · contradiction
      · exact List.mem_cons_of_mem _ (ih hp hc)
    · split at hp
      · rw [List.mem_singleton.1 hp] at hc
        rw [List.mem_singleton.1 hc]
        exact List.mem_cons_self
      · next head pieces hs =>
        rcases List.mem_cons.1 hp with rfl | hp
        · rcases List.mem_cons.1 hc with rfl | hc
          · exact List.mem_cons_self
          · exact List.mem_cons_of_mem _ (ih (hs ▸ List.mem_cons_self) hc)
        · exact List.mem_cons_of_mem _ (ih (hs ▸ List.mem_cons_of_mem _ hp) hc)

theorem isNameable_ofString {text : String} (h : '\x00' ∉ text.toList) :
    (ofString text).isNameable := by
  refine List.all_eq_true.2 fun name hn => ?_
  obtain ⟨piece, hp, rfl⟩ := List.mem_map.1 (List.mem_filter.1 hn).1
  have hc : '\x00' ∉ piece := fun hc => h (mem_of_splitSlashes hp hc)
  simpa using hc

end Files.Path

theorem exists_mainFrame (files : Files.Tree) {filename : String}
    (h : '\x00' ∉ filename.toList) : ∃ frame, SourceFile.mainFrame files filename = .ok frame := by
  unfold SourceFile.mainFrame
  by_cases hm : filename ∈ SourceFile.memoryNames
  · rw [if_pos hm]
    exact ⟨_, rfl⟩
  · rw [if_neg hm, Files.Path.nameable, if_pos (Files.Path.isNameable_ofString h)]
    exact ⟨_, rfl⟩

/-- A main file is run: it can be entered, and the pipeline behind it comes to the end of the run,
or to the crash there, with what the run has, in one way only. -/
structure Ends (files : Files.Tree) (options : Options) (session : Session)
    (filename source : String) (run : Run) : Prop where
  made : Run.ofSource files options session filename source = .ok run
  ends : ∃ frame reader steps outcome, SourceFile.mainFrame files filename = .ok frame ∧
    Reader.enter options ⟨session, []⟩ frame source = .ok reader ∧
    Ended run.session run.halt outcome ∧
    ∀ n emissions other, Iterates files options ⟨reader, none, none⟩ n emissions other ↔
      n = steps ∧ emissions = run.emissions ∧ other = outcome

/-- Main files, each with its name and its source, are run one after the other, each one in the
session that the one before it leaves. -/
inductive EndInTurn (files : Files.Tree) (options : Options) :
    Session → List (String × String) → List Run → Prop where
  | nil (session : Session) : EndInTurn files options session [] []
  | cons {session : Session} {filename source : String} {run : Run} {rest : List (String × String)}
      {runs : List Run} (h : Ends files options session filename source run)
      (hr : EndInTurn files options run.session rest runs) :
      EndInTurn files options session ((filename, source) :: rest) (run :: runs)

/-- In a session that has ordinary macros and no file open, a main file is run, and the session
behind it is another such one. -/
theorem ends_of_ready (files : Files.Tree) (hm : session.macros.Has Token.Ordinary)
    (hs : session.stack = .empty options.depthLimit) {filename : String}
    (hn : '\x00' ∉ filename.toList) (source : String) :
    ∃ run, Ends files options session filename source run ∧ run.Closed files options ∧
      run.session.macros.Has Token.Ordinary ∧ run.session.stack = .empty options.depthLimit := by
  obtain ⟨frame, hf⟩ := exists_mainFrame files hn
  obtain ⟨hends, reader, steps, henter, hreads⟩ := reads_read files options hm hs frame source
  have hrun : Run.ofSource files options session filename source =
      .ok (Run.ofFrame files options session frame source) := by
    rw [Run.ofSource, hf]
    rfl
  rw [Run.ofFrame] at hrun
  generalize SourceFile.read files options session frame source = reading at hends hreads hrun
  have hnone : reading.halt = none → (expandPart none reading.items).2 = none := by
    intro hwhole
    obtain ⟨front, stop, hitems, -⟩ := hends.whole hwhole
    have hk : (Token.endOfFile stop).kind = .endOfFile := rfl
    rw [hitems, expandPart_endOfFile _ _ _ hk]
  have hcall : ∀ suspended ∈ (none : Option Suspended), suspended.Has Token.Quoted :=
    fun suspended hm => absurd hm (Option.not_mem_none suspended)
  have hholds : Literal.Holds ((none : Option (Session × Token)).map Prod.snd) :=
    Literal.holds_none
  obtain ⟨steps, outcome, hended, h⟩ :=
    iterates_of_reads hreads hends.quoted hcall hholds hnone
  rw [← expandFrom_eq] at h
  have hall : ∀ n emissions other, Iterates files options ⟨reader, none, none⟩ n emissions other ↔
      n = steps ∧ emissions = (Run.ofReading reading).emissions ∧ other = outcome := by
    refine fun n emissions other => ⟨fun hi => hi.unique h, ?_⟩
    rintro ⟨rfl, rfl, rfl⟩
    exact h
  exact ⟨_, ⟨hrun, frame, reader, steps, outcome, hf, henter, hended, hall⟩,
    closed_of_endsMain hends hreads.locate, hends.macros, hends.stack⟩

/-- Whatever main files are run one after the other, and whatever they include: each run comes to
its end after finitely many steps, and no file stays open. Its stream ends in the only end of file
and no newline, directive hash or header name comes out, unless a path is to be looked up that the
system refuses. That, and nothing else, is a crash, which costs the rest of the file and the end of
file with it. -/
theorem pipeline_ends (files : Files.Tree) {options : Options} {session : Session}
    (hs : Session.initial options = .ok session) {units : List (String × String)}
    (hn : ∀ unit ∈ units, '\x00' ∉ unit.1.toList) :
    ∃ runs, EndInTurn files options session units runs ∧
      ∀ run ∈ runs, run.Closed files options := by
  have hready : session.macros.Has Token.Ordinary ∧ session.stack = .empty options.depthLimit := by
    obtain ⟨hm, hsession⟩ := ready_of_initial hs
    exact ⟨hm, by rw [hsession]⟩
  clear hs
  induction units generalizing session with
  | nil => exact ⟨[], .nil session, nofun⟩
  | cons unit rest ih =>
    obtain ⟨filename, source⟩ := unit
    obtain ⟨hname, hrest⟩ := List.forall_mem_cons.1 hn
    obtain ⟨hm, hs⟩ := hready
    obtain ⟨run, hrun, hclosed, hnext⟩ := ends_of_ready files hm hs hname source
    obtain ⟨runs, hruns, hall⟩ := ih hrest hnext
    exact ⟨run :: runs, .cons hrun hruns, List.forall_mem_cons.2 ⟨hclosed, hall⟩⟩

/-- A macro that the command line defines as `1`. -/
def unitMacro (name : String) : Macro.Definition :=
  ⟨name, none,
    [{ kind := .number, text := "1", position := ⟨Macro.commandLine.file, 1, name.length + 2⟩ }],
    Macro.commandLine⟩

/-- The session that a run without options starts in. -/
def standardSession : Session :=
  { macros := ⟨["__STDC_NO_ATOMICS__", "__STDC_NO_COMPLEX__", "__STDC_NO_THREADS__",
      "__STDC_NO_VLA__"].map unitMacro⟩
    stack := .empty 200 }

theorem initial_standardSession : Session.initial {} = .ok standardSession := by decide +kernel

/-- A name of so many letters. -/
def nameOfLength (length : Nat) : String := String.ofList (List.replicate length 'a')

theorem length_nameOfLength (length : Nat) : (nameOfLength length).length = length := by
  rw [nameOfLength, String.length_ofList, List.length_replicate]

theorem eq_of_mem_nameOfLength {length : Nat} {c : Char} (h : c ∈ (nameOfLength length).toList) :
    c = 'a' := by
  rw [nameOfLength, String.toList_ofList] at h
  exact List.eq_of_mem_replicate h

/-- A main file without any other file that includes a header by a name of 300 letters. -/
theorem ofSource_nameOfLength (session : Session) :
    Run.ofSource ⟨.directory [], []⟩ {} session "main.c"
        (Expanded.literalSource ⟨nameOfLength 300, false⟩) =
      .ok ⟨[], session, some ⟨⟨.root, []⟩ ++ .ofString (nameOfLength 300)⟩⟩ := by
  have hframe : SourceFile.mainFrame ⟨.directory [], []⟩ "main.c" =
      .ok ⟨"/main.c", "main.c", some ⟨.root, []⟩, .start "main.c"⟩ := by decide +kernel
  have hlong : Files.isOverlong (nameOfLength 300) := Files.isOverlong_of_length <| by
    rw [length_nameOfLength]
    decide
  have hname : ∀ c ∈ (nameOfLength 300).toList,
      (Source.Inner c ∧ c ≠ '"') ∧ c ≠ '\x00' ∧ c ≠ '/' := by
    intro c hc
    rw [eq_of_mem_nameOfLength hc]
    decide
  rw [Run.ofSource, hframe]
  exact congrArg Except.ok
    (ofFrame_of_isOverlong rfl rfl rfl rfl (List.forall_mem_nil _) hlong hname)

/-- That main file, and another one. -/
def overlongUnits : List (String × String) :=
  [("main.c", Expanded.literalSource ⟨nameOfLength 300, false⟩), ("<input>", "b\n")]

/-- The first one is broken off at its include. -/
theorem pipeline_ends_overlong :
    Session.initial {} = .ok standardSession ∧
      (∀ unit ∈ overlongUnits, '\x00' ∉ unit.1.toList) ∧
      ∃ runs, EndInTurn ⟨.directory [], []⟩ {} standardSession overlongUnits runs ∧
        (∀ run ∈ runs, run.Closed ⟨.directory [], []⟩ {}) ∧ ∃ run ∈ runs, ¬run.WellFormed := by
  have hn : ∀ unit ∈ overlongUnits, '\x00' ∉ unit.1.toList := by decide
  obtain ⟨runs, hturn, hclosed⟩ := pipeline_ends ⟨.directory [], []⟩ initial_standardSession hn
  refine ⟨initial_standardSession, hn, runs, hturn, hclosed, ?_⟩
  cases hturn with
  | cons h _ =>
    have hfirst := hclosed _ List.mem_cons_self
    obtain rfl := Except.ok.inj ((ofSource_nameOfLength standardSession).symm.trans h.made)
    refine ⟨_, List.mem_cons_self, fun hw => ?_⟩
    cases hfirst.wellFormed_iff.1 hw

end CPreprocessor

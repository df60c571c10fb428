import CPreprocessor.Proofs.Macro.Parse
import CPreprocessor.Proofs.Unplaced.Directive
import CPreprocessor.Proofs.Unplaced.Expansion

/-!
# Definitions that agree

A body gives its tokens to the calls of its macro, and each of them takes the place of the call. So
expansion, places included, tells two definitions apart only by what is left of them without their
own places, and that is the same for two that agree.

* `hide_of_mem_lex`: a token of a source hides nothing.
* `unplaced_eq_of_isEquivalent`: definitions of such tokens that agree differ in places alone.
* `paste_congr`, `Invocation.replacement_bare`: the issues of a paste stand at the call, and so do
  the tokens that replace it.
* `events_drain_unplaced`: tokens are expanded alike, places included, where the places of the
  definitions are forgotten.
* `expand_install_of_isEquivalent`: of two definitions that agree either will do.
  `expand_install_of_isGiven`: those that a program is given, too.
-/

namespace CPreprocessor

/-! ## What is left of a definition without its places -/

theorem Lexed.hide_of_mem_locate {file : String} {finish : Nat × Nat} {ending : Lexeme.Ending}
    {chars : List Source.Located} {lexemes : List Lexeme} :
    ∀ token ∈ (locate file finish ending chars lexemes).tokens, token.hide = ∅ := by
  induction lexemes generalizing chars with
  | nil =>
    cases ending with
    | complete gap midLine =>
      intro token hm
      rcases List.mem_append.1 hm with hm | hm
      · cases midLine with
        | false => contradiction
        | true => rw [List.mem_singleton.1 hm]
      · rw [List.mem_singleton.1 hm]
        rfl
    | unclosed opener before rest => exact List.forall_mem_nil _
  | cons lexeme rest ih => exact List.forall_mem_cons.2 ⟨rfl, ih⟩

/-- A token of a source hides nothing. -/
theorem hide_of_mem_lex {directives trigraphs : Bool} {file source : String} {token : Token}
    (h : token ∈ (lex directives trigraphs file source).tokens) : token.hide = ∅ :=
  Lexed.hide_of_mem_locate token h

theorem hide_of_mem_lexFragment {file text : String} {tokens : List Token}
    (h : lexFragment file text = .ok tokens) : ∀ token ∈ tokens, token.hide = ∅ := by
  unfold lexFragment at h
  dsimp only at h
  split at h
  · contradiction
  · obtain rfl := Except.ok.inj h
    exact fun token hm => hide_of_mem_lex (List.mem_filter.1 hm).1

/-- A line is divided off from tokens that hold all of its own. -/
theorem Lines.mem_of_mem_divideFrom {current tokens : List Token} {line : Line}
    (hl : line ∈ (divideFrom current tokens).lines) :
    ∀ token ∈ line.tokens, token ∈ current ∨ token ∈ tokens := by
  induction tokens generalizing current with
  | nil => contradiction
  | cons first rest ih =>
    unfold divideFrom at hl
    intro token hm
    split at hl
    · rcases List.mem_cons.1 hl with rfl | hl
      · exact .inl hm
      · exact .inr (List.mem_cons_of_mem _ ((ih hl token hm).resolve_left List.not_mem_nil))
    · contradiction
    · rcases ih hl token hm with hm | hm
      · rcases List.mem_append.1 hm with hm | hm
        · exact .inl hm
        · exact .inr (List.mem_singleton.1 hm ▸ List.mem_cons_self)
      · exact .inr (List.mem_cons_of_mem _ hm)

theorem Lines.mem_of_mem_ofTokens {tokens : List Token} {line : Line} {token : Token}
    (hl : line ∈ (ofTokens tokens).lines) (hm : token ∈ line.tokens) : token ∈ tokens :=
  (mem_of_mem_divideFrom hl token hm).resolve_left List.not_mem_nil

namespace Macro

/-- The token that is spelled so and hides nothing, in no place in particular. -/
def ofSpelling (spelling : Token.Kind × String × Bool) : Token :=
  { kind := spelling.1, text := spelling.2.1, position := nowhere, space := spelling.2.2 }

/-- A body that hides nothing and begins without a blank is its spelling, but for the places. -/
theorem map_unplaced_eq {body : List Token} (hh : ∀ token ∈ body, token.hide = ∅)
    (hs : ∀ first ∈ body.head?, first.space = false) :
    body.map Token.unplaced = (Definition.spelling body).map ofSpelling := by
  have hbare {token : Token} (ht : token.hide = ∅) :
      token.unplaced = ofSpelling (Definition.tokenSpelling token) := by
    obtain ⟨kind, text, position, hide, space⟩ := token
    obtain rfl := ht
    rfl
  cases body with
  | nil => rfl
  | cons first rest =>
    have hfirst : first.unplaced = ofSpelling (first.kind, first.text, false) := by
      rw [← hs first rfl]
      exact hbare (hh first List.mem_cons_self)
    have hrest : rest.map Token.unplaced = (rest.map Definition.tokenSpelling).map ofSpelling := by
      rw [List.map_map]
      exact List.map_congr_left fun token hm => hbare (hh token (List.mem_cons_of_mem _ hm))
    rw [List.map_cons, hfirst, hrest]
    rfl

/-- The body of a definition that was read begins without a blank. -/
theorem space_of_parse {place : Position} {tokens : List Token} {definition : Definition}
    (h : Definition.parse place tokens = .ok definition) :
    ∀ first ∈ definition.body.head?, first.space = false := by
  obtain ⟨-, -, body, -, -, -, -, hb, -⟩ := parse_eq_ok h
  intro first hf
  rw [hb] at hf
  cases body with
  | nil => contradiction
  | cons head rest =>
    obtain rfl := Option.some.inj hf
    rfl

variable {leftSite rightSite : Position} {leftTokens rightTokens : List Token}
  {left right : Definition}

/-- Definitions that agree, read from tokens that hide nothing, differ in nothing but places. -/
theorem unplaced_eq_of_isEquivalent (hl : Definition.parse leftSite leftTokens = .ok left)
    (hr : Definition.parse rightSite rightTokens = .ok right)
    (hlh : ∀ token ∈ leftTokens, token.hide = ∅) (hrh : ∀ token ∈ rightTokens, token.hide = ∅)
    (hn : left.name = right.name) (he : left.isEquivalent right) :
    left.unplaced = right.unplaced := by
  have hidden {site : Position} {tokens : List Token} {definition : Definition}
      (hp : Definition.parse site tokens = .ok definition)
      (hh : ∀ token ∈ tokens, token.hide = ∅) : ∀ token ∈ definition.body, token.hide = ∅ := by
    intro token hm
    obtain ⟨read, hread, -, -, hhide⟩ := mem_body_of_parse hp hm
    rw [hhide, hh read hread]
  obtain ⟨hparameters, hspelling⟩ : left.parameters = right.parameters ∧
      Definition.spelling left.body = Definition.spelling right.body := by
    simpa [Definition.isEquivalent] using he
  unfold Definition.unplaced
  rw [map_unplaced_eq (hidden hl hlh) (space_of_parse hl),
    map_unplaced_eq (hidden hr hrh) (space_of_parse hr), hn, hparameters, hspelling]

/-! ## Where definitions come from -/

/-- A definition that a program is given, on a line of a file or on the command line. -/
inductive IsGiven (definition : Definition) : Prop where
  | line {trigraphs : Bool} {file source : String} {line : Line} {hash keyword : Token}
      {operands : List Token}
      (hl : line ∈ (Lines.ofTokens (lex true trigraphs file source).tokens).lines)
      (ht : line.tokens = hash :: keyword :: operands)
      (hp : Definition.parse keyword.position operands = .ok definition) : IsGiven definition
  | argument {text : String} (h : Definition.ofCommandLine text = .ok definition) :
      IsGiven definition

/-- It was read from tokens that hide nothing. -/
theorem IsGiven.exists_parse {definition : Definition} (h : IsGiven definition) :
    ∃ site tokens, Definition.parse site tokens = .ok definition ∧
      ∀ token ∈ tokens, token.hide = ∅ := by
  cases h with
  | @line trigraphs file source line hash keyword operands hl ht hp =>
    refine ⟨keyword.position, operands, hp, fun token hm => hide_of_mem_lex
      (Lines.mem_of_mem_ofTokens hl (ht ▸ ?_))⟩
    exact List.mem_cons_of_mem _ (List.mem_cons_of_mem _ hm)
  | @argument text h =>
    obtain ⟨tokens, hlex, -, hp⟩ := exists_parse_of_ofCommandLine h
    exact ⟨commandLine, tokens, hp, hide_of_mem_lexFragment hlex⟩

end Macro

namespace Expansion

open Macro

variable {table : Table}

/-! ## What replaces a call -/

theorem position_of_mem_pasteFrom {site : Position} {before : List (Option Token)}
    {pieces : List Piece} :
    ∀ issue ∈ (pasteFrom site before pieces).issues, issue.position = some site := by
  fun_induction pasteFrom site before pieces with
  | case1 before => exact List.forall_mem_nil _
  | case2 left before operator right rest joined more ih =>
    intro issue hm
    rcases List.mem_append.1 hm with hm | hm
    · simp only [joined] at hm
      unfold pasteOperands at hm
      split at hm
      · contradiction
      · contradiction
      · split at hm
        · contradiction
        · rw [List.mem_singleton.1 hm]
          rfl
    · exact ih issue hm
  | case3 before piece rest h ih => exact ih

/-- Pasting tells pieces apart by what they are without their places. -/
theorem paste_congr (site : Position) {pieces others : List Piece}
    (h : pieces.map Piece.unplaced = others.map Piece.unplaced) :
    (paste site pieces).1 = (paste site others).1 ∧
      (paste site pieces).2.map Token.unplaced = (paste site others).2.map Token.unplaced := by
  -- All issues stand at the call, so nothing is lost with their places.
  have hplaced (pieces : List Piece) : (paste site pieces).1 =
      ((paste site pieces).1.map Issue.unplaced).map fun issue =>
        { issue with position := some site } := by
    rw [List.map_map]
    refine (List.map_id _).symm.trans (List.map_congr_left fun issue hm => ?_)
    obtain ⟨fault, position⟩ := issue
    obtain rfl : position = some site := position_of_mem_pasteFrom _ hm
    rfl
  have hboth := (paste_unplaced site pieces).symm.trans (h ▸ paste_unplaced site others)
  obtain ⟨hissues, htokens⟩ := Prod.mk.inj hboth
  rw [hplaced pieces, hplaced others, hissues]
  exact ⟨rfl, htokens⟩

namespace Invocation

/-- The call with the places in the definition of its macro forgotten. -/
def bare (call : Invocation) : Invocation := { call with definition := call.definition.unplaced }

theorem wanted_bare (call : Invocation) : call.bare.wanted = call.wanted := by
  unfold wanted bare
  rw [expandedNames_unplaced]

/-- What replaces a call does not depend on where its macro is defined. -/
theorem replacement_bare (call : Invocation) (expanded : Bindings) :
    call.bare.replacement expanded = call.replacement expanded := by
  have hcall : call.bare.unplaced = call.unplaced := by
    unfold unplaced bare
    rw [Definition.unplaced_unplaced]
  have hpieces : ((parts call.bare.definition).flatMap (call.bare.fill expanded)).map
      Piece.unplaced =
        ((parts call.definition).flatMap (call.fill expanded)).map Piece.unplaced := by
    rw [← pieces_unplaced, hcall, pieces_unplaced]
  obtain ⟨hissues, htokens⟩ := paste_congr call.site.position hpieces
  have hsettle (tokens : List Token) :
      tokens.map call.settle = (tokens.map Token.unplaced).map call.settle := by
    rw [List.map_map]
    rfl
  refine Prod.ext hissues (congrArg (spaceFirst call.site.space) ?_)
  refine (hsettle _).trans ?_
  rw [hsettle (paste _ ((parts call.definition).flatMap _)).2, ← htokens]
  rfl

end Invocation

/-! ## Steps and expansions -/

/-- The step with the places in the definitions forgotten. -/
def Step.bare : Step → Step
  | emit token => .emit token
  | refuse issue painted => .refuse issue painted
  | wait suspended =>
    .wait ⟨{ suspended.head with definition := suspended.head.definition.unplaced },
      suspended.read⟩
  | invoke call rest => .invoke call.bare rest

theorem Head.step_bare (head : Head) (more : Bool) (rest : List Token) :
    Head.step { head with definition := head.definition.unplaced } more rest =
      (head.step more rest).bare := by
  unfold Head.step
  cases rest with
  | nil => cases more <;> rfl
  | cons opening tail =>
    dsimp only
    cases opening.isPunctuator "(" with
    | false => rfl
    | true =>
      cases collect 0 tail with
      | ended => rfl
      | exhausted => cases more <;> rfl
      | closed first others closing behind =>
        simp only [if_true, Definition.name_unplaced]
        cases bindArguments head.definition.name head.parameters head.site.position
          (first :: others) <;> rfl

/-- What becomes of a token does not depend on where macros are defined. -/
theorem step_bare (more : Bool) (token : Token) (rest : List Token) :
    step table.unplaced more token rest = (step table more token rest).bare := by
  unfold step
  rw [Table.find?_unplaced]
  split
  · cases table.find? token.text with
    | none => rfl
    | some definition =>
      dsimp only [Option.map_some, Definition.parameters_unplaced]
      cases definition.parameters with
      | none => rfl
      | some parameters => exact Head.step_bare ⟨definition, parameters, token⟩ more rest
  · rfl

theorem Progress.eq_of_events {p q : Progress} (he : p.events = q.events) (hp : p.held = none)
    (hq : q.held = none) : p = q := by
  obtain ⟨events, held⟩ := p
  obtain ⟨others, left⟩ := q
  obtain rfl := he
  obtain rfl := hp
  obtain rfl := hq
  rfl

/-- Tokens are expanded alike, places included, wherever the macros are defined. -/
theorem events_drain_unplaced (more : Bool) (tokens : List Token) :
    (drain table.unplaced more tokens).events = (drain table more tokens).events := by
  induction more, tokens using drain_induction table with
  | nil more => rw [drain_nil, drain_nil]
  | emit more token rest produced hs ih =>
    rw [drain_cons, drain_cons, step_bare, hs]
    exact congrArg (_ ++ ·) ih
  | refuse more token rest issue painted hs ih =>
    rw [drain_cons, drain_cons, step_bare, hs]
    exact congrArg (_ ++ ·) ih
  | wait more token rest suspended hs =>
    rw [drain_cons, drain_cons, step_bare, hs]
    rfl
  | invoke more token rest call behind hs ihw ih =>
    have harguments : call.bare.arguments table.unplaced = call.arguments table := by
      unfold Invocation.arguments
      rw [Invocation.wanted_bare]
      refine List.map_congr_left fun wanted hm => congrArg (wanted.1, ·) ?_
      exact Progress.eq_of_events (ihw wanted hm) (held_drain_false _ _) (held_drain_false _ _)
    have hresult : call.bare.result table.unplaced = call.result table := by
      unfold Invocation.result
      rw [harguments, Invocation.replacement_bare]
    rw [drain_cons, drain_cons, step_bare, hs, Step.bare, Step.proceed, Step.proceed,
      Invocation.events, Invocation.events, harguments, hresult, Progress.events_after,
      Progress.events_after, ih]

theorem expand_unplaced (tokens : List Token) :
    expand table.unplaced tokens = expand table tokens := events_drain_unplaced false tokens

end Expansion

/-! ## Either definition will do -/

namespace Macro.Table

theorem find?_install (table : Table) (definition : Definition) :
    (table.install definition).find? definition.name = some definition := by
  obtain ⟨entries⟩ := table
  unfold find? install
  dsimp only
  induction entries with
  | nil => simp [place]
  | cons head tail ih =>
    rw [place]
    by_cases h : head.name = definition.name
    · simp [h]
    · rw [if_neg h, List.find?_cons_of_neg (by simpa using h), ih]

theorem install_install (table : Table) (definition : Definition) :
    (table.install definition).install definition = table.install definition := by
  have hplace (entries : List Definition) :
      place definition (place definition entries) = place definition entries := by
    induction entries with
    | nil => simp [place]
    | cons head tail ih =>
      by_cases h : head.name = definition.name
      · simp [place, h]
      · simp [place, h, ih]
  exact congrArg Table.mk (hplace table.entries)

end Macro.Table

namespace Expansion

open Macro

variable {left right : Definition}

/-- Of two definitions that agree and differ in nothing but places either will do. -/
theorem expand_install_of_unplaced (table : Table) (hu : left.unplaced = right.unplaced)
    (he : left.isEquivalent right) (tokens : List Token) :
    expand (table.install left) tokens = expand (table.install right) tokens ∧
      (table.install left).define right = .ok (table.install left) ∧
      expand ((table.install left).install right) tokens = expand (table.install left) tokens := by
  have hn : left.name = right.name := by
    rw [← left.name_unplaced, hu, right.name_unplaced]
  have hfound : (table.install left).find? right.name = some left := hn ▸ table.find?_install left
  refine ⟨?_, ?_, ?_⟩
  · rw [← expand_unplaced, ← Table.install_unplaced, hu, Table.install_unplaced, expand_unplaced]
  · rw [Table.define, hfound]
    exact if_pos he
  · rw [← expand_unplaced, ← Table.install_unplaced, ← hu, ← Table.install_unplaced,
      Table.install_install, Table.install_unplaced, expand_unplaced]

/-- Two definitions of one name that agree and were read from tokens that hide nothing, as those of
a source do, are the same to every expansion. So a definition that agrees with the one in force may
be ignored as well as installed. -/
theorem expand_install_of_isEquivalent (table : Table) {leftSite rightSite : Position}
    {leftTokens rightTokens : List Token} {left right : Definition}
    (hl : Definition.parse leftSite leftTokens = .ok left)
    (hr : Definition.parse rightSite rightTokens = .ok right)
    (hlh : ∀ token ∈ leftTokens, token.hide = ∅) (hrh : ∀ token ∈ rightTokens, token.hide = ∅)
    (hn : left.name = right.name) (he : left.isEquivalent right) (tokens : List Token) :
    expand (table.install left) tokens = expand (table.install right) tokens ∧
      (table.install left).define right = .ok (table.install left) ∧
      expand ((table.install left).install right) tokens = expand (table.install left) tokens :=
  expand_install_of_unplaced table (unplaced_eq_of_isEquivalent hl hr hlh hrh hn he) he tokens

/-- The tokens of a fragment that leaves nothing open. -/
def fragment (file text : String) : List Token := (lexFragment file text).toOption.getD []

/-- The macro `F(x)` that is defined in a fragment, at the front of a file. -/
def fragmentMacro (file text : String) : Definition :=
  { name := "F"
    parameters := some ⟨["x"], false⟩
    body := trimStart ((fragment file text).drop 4)
    position := .start file }

theorem eq_ok_of_toOption {α ε : Type} {made : Except ε α} {value : α}
    (h : made.toOption = some value) : made = .ok value := by
  cases made with
  | error issue => contradiction
  | ok other => rw [Option.some.inj h]

theorem hide_of_mem_fragment {file text : String} :
    ∀ token ∈ fragment file text, token.hide = ∅ := by
  unfold fragment
  cases h : lexFragment file text with
  | error issue => exact List.forall_mem_nil _
  | ok tokens => exact hide_of_mem_lexFragment h

/-- Two definitions that differ in the places of all their tokens, as stringized and pasted in a
call whose argument is a call and in one that is not closed. -/
theorem expand_install_respaced :
    let left := fragmentMacro "a.h" "F(x) #x x##1"
    let right := fragmentMacro "b.h" "F( x )\t#x /* */x##1"
    let calls := fragment "main.c" "F(y F(2))\nF("
    (Definition.parse (.start "a.h") (fragment "a.h" "F(x) #x x##1") = .ok left ∧
      Definition.parse (.start "b.h") (fragment "b.h" "F( x )\t#x /* */x##1") = .ok right ∧
      (∀ token ∈ fragment "a.h" "F(x) #x x##1", token.hide = ∅) ∧
      (∀ token ∈ fragment "b.h" "F( x )\t#x /* */x##1", token.hide = ∅) ∧
      left.name = right.name ∧ left.isEquivalent right ∧ left ≠ right) ∧
    expand ((∅ : Table).install left) calls = expand ((∅ : Table).install right) calls ∧
      ((∅ : Table).install left).define right = .ok ((∅ : Table).install left) ∧
      expand (((∅ : Table).install left).install right) calls =
        expand ((∅ : Table).install left) calls := by
  intro left right calls
  have hidden {file text : String} (h : (lexFragment file text).toOption.isSome) :
      ∀ token ∈ fragment file text, token.hide = ∅ := by
    obtain ⟨tokens, ht⟩ := Option.isSome_iff_exists.1 h
    rw [fragment, ht]
    exact hide_of_mem_lexFragment (eq_ok_of_toOption ht)
  have hl := eq_ok_of_toOption (show (Definition.parse (.start "a.h")
    (fragment "a.h" "F(x) #x x##1")).toOption = some left by decide +kernel)
  have hr := eq_ok_of_toOption (show (Definition.parse (.start "b.h")
    (fragment "b.h" "F( x )\t#x /* */x##1")).toOption = some right by decide +kernel)
  have hlh : ∀ token ∈ fragment "a.h" "F(x) #x x##1", token.hide = ∅ := hidden (by decide +kernel)
  have hrh : ∀ token ∈ fragment "b.h" "F( x )\t#x /* */x##1", token.hide = ∅ :=
    hidden (by decide +kernel)
  have he : left.isEquivalent right := by decide +kernel
  have hne : left ≠ right := by decide +kernel
  exact ⟨⟨hl, hr, hlh, hrh, rfl, he, hne⟩,
    expand_install_of_isEquivalent ∅ hl hr hlh hrh rfl he calls⟩

/-- Definitions that a program is given, in a file or on the command line, were read from tokens
that hide nothing. Of two such definitions of one name that agree either will do. -/
theorem expand_install_of_isGiven (table : Table) (hl : IsGiven left) (hr : IsGiven right)
    (hn : left.name = right.name) (he : left.isEquivalent right) (tokens : List Token) :
    expand (table.install left) tokens = expand (table.install right) tokens ∧
      (table.install left).define right = .ok (table.install left) ∧
      expand ((table.install left).install right) tokens = expand (table.install left) tokens := by
  obtain ⟨leftSite, leftTokens, hl, hlh⟩ := hl.exists_parse
  obtain ⟨rightSite, rightTokens, hr, hrh⟩ := hr.exists_parse
  exact expand_install_of_unplaced table (unplaced_eq_of_isEquivalent hl hr hlh hrh hn he) he tokens

end Expansion

end CPreprocessor

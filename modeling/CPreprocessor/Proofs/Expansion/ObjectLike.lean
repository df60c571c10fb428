import CPreprocessor.Proofs.Expansion.Preserved
import CPreprocessor.Proofs.Expansion.Turns
import CPreprocessor.Proofs.Macro.Equivalent

/-!
# Object-like macros as a recursion on tokens

Without arguments no token depends on what stands behind it, so the loop that puts a replacement in
front of the tokens to come does the same as a recursion: what becomes of a token is what becomes of
the tokens of its replacement. The recursion ends because each of them hides one more macro.

* `substituted`: the replacement of an object-like macro. `result_eq_substituted`: it is the one
  that the loop puts in front.
* `resolve`: the recursion. `expand_eq_flatMap`: the loop is the recursion, token by token.
* `Final`: a token that nothing more becomes of. `final_of_mem_resolve`: the recursion leaves only
  such tokens.
* `expand_eq_resolve`: all of it, for macros that were read.
-/

namespace CPreprocessor.Expansion

open Macro

variable {table : Table} {definition : Definition} {token produced : Token}

/-! ## Replacements -/

/-- A body without parameters as pieces. -/
def bodyPieces (body : List Token) : List Piece :=
  body.map fun token => if token.isPaste then .paste token else .token token

/-- The issues and the tokens that a name is replaced by: the body, pasted. Its tokens stand at the
name, and hide what the name hides and the macro. -/
def substituted (definition : Definition) (name : Token) : List Issue × List Token :=
  let pasted := paste name.position (bodyPieces definition.body)
  let placed := pasted.2.map fun token =>
    { token with
      position := name.position
      hide := token.hide ∪ name.hide.insert definition.name }
  (pasted.1, spaceFirst name.space placed)

theorem partsFrom_of_objectLike (hp : definition.parameters = none) (after : Bool)
    (body : List Token) :
    partsFrom definition after body =
      body.map fun token => if token.isPaste then .paste token else .token token := by
  have hname (name : String) : definition.isParameter name = false := by
    simp [Definition.isParameter, hp]
  have hpart (pasted : Bool) (token : Token) :
      part definition pasted token = if token.isPaste then .paste token else .token token := by
    simp [part, hname]
  fun_induction partsFrom definition after body with
  | case1 => rfl
  | case2 => simp [hpart]
  | case3 _ _ next _ hs => simp [hname] at hs
  | case4 _ _ _ _ _ ih => simp [hpart, ih]

theorem expandedNames_of_objectLike (hp : definition.parameters = none) :
    expandedNames definition = [] := by
  have hnone : (parts definition).filterMap Part.expandedName? = [] := by
    rw [List.filterMap_eq_nil_iff, parts, partsFrom_of_objectLike hp]
    intro p hm
    obtain ⟨token, -, rfl⟩ := List.mem_map.1 hm
    split <;> rfl
  rw [expandedNames, hnone]
  rfl

theorem replacement_eq_substituted (hp : definition.parameters = none) (name : Token)
    (bindings expanded : Bindings) :
    Invocation.replacement ⟨definition, name, name, bindings⟩ expanded =
      substituted definition name := by
  have hpieces : (parts definition).flatMap
      (Invocation.fill ⟨definition, name, name, bindings⟩ expanded) =
        bodyPieces definition.body := by
    rw [parts, partsFrom_of_objectLike hp, bodyPieces]
    induction definition.body with
    | nil => rfl
    | cons token rest ih =>
      rw [List.map_cons, List.flatMap_cons, List.map_cons, ih]
      split <;> rfl
  have hhide : Invocation.hide ⟨definition, name, name, bindings⟩ =
      name.hide.insert definition.name := by
    refine HideSet.ext fun other => ?_
    rw [Invocation.mem_hide, HideSet.mem_insert, and_self]
  rw [Invocation.replacement, hpieces, substituted]
  unfold Invocation.settle
  rw [hhide]

/-- What replaces the name of an object-like macro in an expansion, and what it reports. -/
theorem result_eq_substituted (hp : definition.parameters = none) (table : Table) (name : Token) :
    let call : Invocation := ⟨definition, name, name, []⟩
    call.result table = substituted definition name ∧
      call.events table = (substituted definition name).1.map .issue := by
  intro call
  have hresult : call.result table = substituted definition name :=
    replacement_eq_substituted hp name [] _
  have hnone : call.arguments table = [] := by
    rw [Invocation.arguments, Invocation.wanted, expandedNames_of_objectLike hp]
    rfl
  refine ⟨hresult, ?_⟩
  rw [Invocation.events, hresult, hnone]
  rfl

/-- Where a token of a replacement comes from. -/
theorem exists_of_mem_substituted {name : Token} (hm : token ∈ (substituted definition name).2) :
    ∃ pasted ∈ (paste name.position (bodyPieces definition.body)).2,
      token.hide = pasted.hide ∪ name.hide.insert definition.name := by
  obtain ⟨placed, hplaced, he⟩ := exists_of_mem_spaceFirst hm
  obtain ⟨pasted, hpasted, rfl⟩ := List.mem_map.1 hplaced
  exact ⟨pasted, hpasted, by rw [he]⟩

/-- A token of a replacement hides the macro and what was hidden before. -/
theorem mem_hide_of_mem_substituted {name : Token} (hm : token ∈ (substituted definition name).2)
    {other : String} (ho : other = definition.name ∨ other ∈ name.hide) : other ∈ token.hide := by
  obtain ⟨pasted, -, he⟩ := exists_of_mem_substituted hm
  rw [he, HideSet.mem_union, HideSet.mem_insert]
  exact .inr ho

/-! ## The recursion -/

/-- The number of macros that the token may still be expanded as. -/
def unhidden (table : Table) (token : Token) : Nat :=
  level table.names fun name => !decide (name ∈ token.hide)

/-- One macro more is hidden behind a replacement. -/
theorem unhidden_lt {name : Token} (hf : table.find? name.text = some definition)
    (hh : name.text ∉ name.hide) (hm : token ∈ (substituted definition name).2) :
    unhidden table token < unhidden table name := by
  have hname : definition.name = name.text := Table.name_of_find? hf
  have hlisted : name.text ∈ table.names :=
    hname ▸ List.mem_map_of_mem (Table.mem_of_find? hf)
  have hhidden : name.text ∈ token.hide := mem_hide_of_mem_substituted hm (.inl hname.symm)
  refine level_lt (fun other ho => ?_) hlisted (by simpa using hh) (by simpa using hhidden)
  simp only [Bool.not_eq_true', decide_eq_false_iff_not] at ho ⊢
  exact fun hidden => ho (mem_hide_of_mem_substituted hm (.inr hidden))

/-- What becomes of a token: it is left alone if it is no identifier or hides itself, a built-in
name is replaced by its value, and the name of a macro by what becomes of the tokens of its body. -/
def resolve (table : Table) (token : Token) : List Event :=
  if _ : token.kind = .identifier ∧ token.text ∉ token.hide then
    match _ : table.find? token.text with
    | none => [.token (builtin token)]
    | some definition =>
      let body := substituted definition token
      body.1.map .issue ++ body.2.attach.flatMap fun inner => resolve table inner.1
  else [.token token]
termination_by unhidden table token
decreasing_by exact unhidden_lt ‹_› (And.right ‹_›) inner.2

theorem resolve_of_alone (h : ¬(token.kind = .identifier ∧ token.text ∉ token.hide)) :
    resolve table token = [.token token] := by
  rw [resolve, dif_neg h]

theorem resolve_of_none (h : token.kind = .identifier ∧ token.text ∉ token.hide)
    (hf : table.find? token.text = none) : resolve table token = [.token (builtin token)] := by
  rw [resolve, dif_pos h]
  split
  · rfl
  · next hs => rw [hf] at hs; contradiction

theorem resolve_of_find? (h : token.kind = .identifier ∧ token.text ∉ token.hide)
    (hf : table.find? token.text = some definition) :
    resolve table token = (substituted definition token).1.map .issue ++
      (substituted definition token).2.flatMap (resolve table) := by
  rw [resolve, dif_pos h]
  split
  · next hn => rw [hf] at hn; contradiction
  · next found hs =>
    obtain rfl := Option.some.inj (hf.symm.trans hs)
    dsimp only
    rw [List.flatMap_def, List.flatMap_def, List.attach_map_val (f := resolve table)]

/-- The loop over tokens is the recursion on each of them: a step passes on what becomes of the
token, or reads tokens from which it comes. -/
theorem events_step (ho : ∀ definition ∈ table.entries, definition.parameters = none)
    (token : Token) (rest : List Token) :
    (step table false token rest).events table ++
        ((step table false token rest).next table rest).flatMap (resolve table) =
      (token :: rest).flatMap (resolve table) := by
  rw [List.flatMap_cons, step]
  split
  · next h =>
    cases hf : table.find? token.text with
    | none =>
      rw [resolve_of_none h hf]
      rfl
    | some definition =>
      have hp := ho definition (Table.mem_of_find? hf)
      obtain ⟨hresult, hevents⟩ := result_eq_substituted hp table token
      rw [resolve_of_find? h hf]
      simp only [hp, Step.events, Step.next]
      rw [hresult, hevents, List.flatMap_append, List.append_assoc]
  · next h =>
    rw [resolve_of_alone h]
    rfl

theorem expand_eq_flatMap (ho : ∀ definition ∈ table.entries, definition.parameters = none)
    (tokens : List Token) : expand table tokens = tokens.flatMap (resolve table) := by
  induction tokens using drain_steps table false with
  | nil => exact congrArg Progress.events (drain_nil table false)
  | wait token rest suspended hs => exact absurd hs (step_false_ne_wait _ _ _ _)
  | goes token rest hs ih =>
    rw [← events_step ho token rest, ← ih, expand, drain_cons_of_not_wait hs]
    rfl

/-! ## What is left -/

/-- The token does not hide the names that are replaced without a definition. -/
def KeepsBuiltins (token : Token) : Prop := ∀ name ∈ builtinNames, name ∉ token.hide

/-- Nothing more becomes of the token: it names no macro that it does not hide, and has no value. -/
structure Final (table : Table) (token : Token) : Prop where
  hidden : token.kind = .identifier → table.contains token.text → token.text ∈ token.hide
  value : token.kind = .identifier → token.text ∉ builtinNames

theorem kind_builtin_of_mem (h : token.text ∈ builtinNames) :
    (builtin token).kind ≠ .identifier := by
  obtain hfile | hline : token.text = "__FILE__" ∨ token.text = "__LINE__" := by
    simpa [builtinNames] using h
  · simp [builtin, hfile]
  · simp [builtin, hline]

theorem Final.passes (h : Final table token) : Passes table token := by
  intro more rest
  rw [step]
  split
  · next hn =>
    have hf : table.find? token.text = none := by
      rw [← Option.not_isSome_iff_eq_none]
      exact fun hs => hn.2 (h.hidden hn.1 hs)
    rw [hf, builtin_eq_self (h.value hn.1)]
  · rfl

theorem hide_of_pasteTokens? {file : String} {left right joined : Token}
    (h : pasteTokens? file left right = some joined) : joined.hide = left.hide ∪ right.hide := by
  unfold pasteTokens? at h
  split at h
  · rw [← Option.some.inj h]
  · contradiction

theorem keepsBuiltins_of_mem_substituted {name : Token} (hn : KeepsBuiltins name)
    (hd : definition.name ∉ builtinNames) (hb : ∀ token ∈ definition.body, KeepsBuiltins token)
    (hm : token ∈ (substituted definition name).2) : KeepsBuiltins token := by
  have hpieces : ∀ piece ∈ bodyPieces definition.body, ∀ token ∈ piece.operand,
      KeepsBuiltins token := by
    intro piece hm token ht
    obtain ⟨own, ho, rfl⟩ := List.mem_map.1 hm
    split at ht
    all_goals
      obtain rfl := Option.some.inj ht
      exact hb own ho
  obtain ⟨pasted, hpasted, he⟩ := exists_of_mem_substituted hm
  have hkept : KeepsBuiltins pasted := by
    refine has_paste (fun hl hr hj => ?_) _ hpieces pasted hpasted
    intro other ho
    rw [hide_of_pasteTokens? hj, HideSet.mem_union, not_or]
    exact ⟨hl other ho, hr other ho⟩
  intro other ho
  rw [he, HideSet.mem_union, HideSet.mem_insert]
  rintro (hother | rfl | hother)
  · exact hkept other ho hother
  · exact hd ho
  · exact hn other ho hother

/-- A macro whose replacements do not hide the built-in names. -/
structure OpensBuiltins (definition : Definition) : Prop where
  name : definition.name ∉ builtinNames
  body : ∀ token ∈ definition.body, KeepsBuiltins token

/-- The recursion goes on until nothing more becomes of a token. -/
theorem final_of_mem_resolve (hd : ∀ definition ∈ table.entries, OpensBuiltins definition)
    (ht : KeepsBuiltins token) (hm : .token produced ∈ resolve table token) :
    Final table produced := by
  fun_induction resolve table token with
  | case1 token h hf =>
    obtain rfl := Event.token.inj (List.mem_singleton.1 hm)
    by_cases hb : token.text ∈ builtinNames
    · have hk := kind_builtin_of_mem hb
      exact ⟨fun hi => absurd hi hk, fun hi => absurd hi hk⟩
    · rw [builtin_eq_self hb]
      refine ⟨fun _ hc => ?_, fun _ => hb⟩
      rw [Table.contains, hf] at hc
      contradiction
  | case2 token h definition hf body ih =>
    rcases List.mem_append.1 hm with hm | hm
    · obtain ⟨_, -, he⟩ := List.mem_map.1 hm
      contradiction
    · obtain ⟨inner, -, hm⟩ := List.mem_flatMap.1 hm
      have hopens := hd definition (Table.mem_of_find? hf)
      exact ih inner (keepsBuiltins_of_mem_substituted ht hopens.name hopens.body inner.2) hm
  | case3 token h =>
    obtain rfl := Event.token.inj (List.mem_singleton.1 hm)
    by_cases hk : produced.kind = .identifier
    · have hhidden : produced.text ∈ produced.hide := by_contra fun hn => h ⟨hk, hn⟩
      exact ⟨fun _ _ => hhidden, fun _ hb => ht produced.text hb hhidden⟩
    · exact ⟨fun hi => absurd hi hk, fun hi => absurd hi hk⟩

/-- Tokens that nothing more becomes of come out as they are. -/
theorem expand_of_final {tokens : List Token} (h : ∀ token ∈ tokens, Final table token) :
    expand table tokens = tokens.map .token := by
  induction tokens with
  | nil => exact congrArg Progress.events (drain_nil table false)
  | cons token rest ih =>
    obtain ⟨hfirst, hrest⟩ := List.forall_mem_cons.1 h
    rw [expand_cons_of_passes hfirst.passes, ih hrest, List.map_cons]

/-! ## Macros that were read -/

/-- Only object-like macros, read from tokens that do not hide the built-in names. -/
def ReadObjectLike (table : Table) : Prop :=
  ∀ definition ∈ table.entries, definition.parameters = none ∧
    ∃ site tokens, Definition.parse site tokens = .ok definition ∧
      ∀ token ∈ tokens, KeepsBuiltins token

/-- What is read from tokens that do not hide the built-in names does not hide them, either. -/
theorem opensBuiltins_of_parse {site : Position} {tokens : List Token}
    (hp : Definition.parse site tokens = .ok definition)
    (hk : ∀ token ∈ tokens, KeepsBuiltins token) : OpensBuiltins definition := by
  refine ⟨?_, fun token ht => ?_⟩
  · obtain ⟨name, -, -, -, -, hr, -, -, hn, -⟩ := parse_eq_ok hp
    rw [isReserved, Bool.or_eq_false_iff] at hr
    rw [hn]
    simpa using hr.1
  · obtain ⟨read, hread, -, -, he⟩ := mem_body_of_parse hp ht
    rw [KeepsBuiltins, he]
    exact hk read hread

theorem ReadObjectLike.opensBuiltins (h : ReadObjectLike table) :
    ∀ definition ∈ table.entries, OpensBuiltins definition := by
  intro definition hm
  obtain ⟨-, site, tokens, hp, hk⟩ := h definition hm
  exact opensBuiltins_of_parse hp hk

/-- The expansion of object-like macros is what becomes of the tokens one by one, by recursion. The
name of a macro comes out only where it is hidden, a built-in name never, and what came out is left
alone when it is expanded again. -/
theorem expand_eq_resolve (ho : ReadObjectLike table) {tokens : List Token}
    (ht : ∀ token ∈ tokens, KeepsBuiltins token) :
    expand table tokens = tokens.flatMap (resolve table) ∧
      (∀ produced ∈ (expand table tokens).filterMap Event.token?, produced.kind = .identifier →
        (produced.text ∈ table.names → produced.text ∈ produced.hide) ∧
          produced.text ∉ ["__FILE__", "__LINE__"]) ∧
      expand table ((expand table tokens).filterMap Event.token?) =
        ((expand table tokens).filterMap Event.token?).map .token := by
  have hexpand := expand_eq_flatMap (fun definition hm => (ho definition hm).1) tokens
  have hfinal : ∀ produced ∈ (expand table tokens).filterMap Event.token?,
      Final table produced := by
    intro produced hm
    rw [hexpand] at hm
    obtain ⟨event, he, hp⟩ := List.mem_filterMap.1 hm
    obtain ⟨token, hr, he⟩ := List.mem_flatMap.1 he
    cases event with
    | issue => contradiction
    | token other =>
      obtain rfl := Option.some.inj hp
      exact final_of_mem_resolve ho.opensBuiltins (ht token hr) he
  refine ⟨hexpand, fun produced hm hk => ⟨fun hn => ?_, (hfinal produced hm).value hk⟩,
    expand_of_final hfinal⟩
  refine (hfinal produced hm).hidden hk ?_
  obtain ⟨definition, hd, he⟩ := List.mem_map.1 hn
  exact List.find?_isSome.2 ⟨definition, hd, by simpa using he⟩

/-- The macros that are defined in fragments. -/
def readAll (texts : List String) : Table :=
  ⟨texts.filterMap fun text =>
    (Definition.parse (.start "a.h") (fragment "a.h" text)).toOption⟩

/-- Macros that stand for each other, one that pastes the name of another one, one that stands for
nothing and one with a paste that fails. -/
theorem expand_eq_resolve_mutual :
    let table := readAll ["A B A", "B (A __LINE__)", "AB A", "C A##B A", "E", "D +##B E"]
    let tokens := fragment "main.c" "A C\nE D __FILE__"
    (table.names = ["A", "B", "AB", "C", "E", "D"] ∧ ReadObjectLike table ∧
      ∀ token ∈ tokens, KeepsBuiltins token) ∧
    expand table tokens = tokens.flatMap (resolve table) ∧
      expand table ((expand table tokens).filterMap Event.token?) =
        ((expand table tokens).filterMap Event.token?).map .token := by
  intro table tokens
  have hkeeps {file text : String} : ∀ token ∈ fragment file text, KeepsBuiltins token := by
    intro token hm name _
    rw [hide_of_mem_fragment token hm]
    exact HideSet.not_mem_empty name
  have hnone : ∀ definition ∈ table.entries, definition.parameters = none := by decide +kernel
  have hread : ReadObjectLike table := by
    intro definition hm
    obtain ⟨text, -, hp⟩ := List.mem_filterMap.1 hm
    exact ⟨hnone definition hm, .start "a.h", fragment "a.h" text, eq_ok_of_toOption hp, hkeeps⟩
  have htokens : ∀ token ∈ tokens, KeepsBuiltins token := hkeeps
  obtain ⟨hexpand, -, hagain⟩ := expand_eq_resolve hread htokens
  exact ⟨⟨by decide +kernel, hread, htokens⟩, hexpand, hagain⟩

end CPreprocessor.Expansion

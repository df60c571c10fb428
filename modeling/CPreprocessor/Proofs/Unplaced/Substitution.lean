import CPreprocessor.Macro.Table
import CPreprocessor.Proofs.Expansion.Preserved
import CPreprocessor.Proofs.Unplaced.Lines

/-!
# Substitution without places

Where a macro is defined and where it is called tells apart nothing but the places of the tokens
that replace the call.

* `Macro.Definition.unplaced`, `Macro.Table.unplaced`: macros with the places forgotten.
* `collect_unplaced`, `bindArguments_unplaced`: the arguments of a call without their places.
* `paste_unplaced`, `Invocation.replacement_unplaced`: what replaces a call without its places is
  the replacement without its places.
-/

namespace CPreprocessor

/-! ## Macros -/

namespace Macro

/-- The definition with the places of its tokens forgotten, and its own. -/
def Definition.unplaced (definition : Definition) : Definition :=
  { definition with body := definition.body.map Token.unplaced, position := nowhere }

namespace Definition

variable (definition : Definition)

@[simp] theorem name_unplaced : definition.unplaced.name = definition.name := rfl

@[simp] theorem parameters_unplaced :
    definition.unplaced.parameters = definition.parameters := rfl

@[simp] theorem body_unplaced :
    definition.unplaced.body = definition.body.map Token.unplaced := rfl

@[simp] theorem isParameter_unplaced (name : String) :
    definition.unplaced.isParameter name = definition.isParameter name := rfl

@[simp] theorem unplaced_unplaced : definition.unplaced.unplaced = definition.unplaced := by
  simp [unplaced]

theorem tokenSpelling_unplaced (tokens : List Token) :
    (tokens.map Token.unplaced).map tokenSpelling = tokens.map tokenSpelling := by
  rw [List.map_map]
  rfl

theorem spelling_unplaced (body : List Token) :
    spelling (body.map Token.unplaced) = spelling body := by
  cases body with
  | nil => rfl
  | cons first rest =>
    exact congrArg ((first.kind, first.text, false) :: ·) (tokenSpelling_unplaced rest)

/-- Definitions agree where they do without their places. -/
@[simp] theorem isEquivalent_unplaced (left right : Definition) :
    left.unplaced.isEquivalent right.unplaced = left.isEquivalent right := by
  rw [Bool.eq_iff_iff]
  simp only [isEquivalent, Bool.and_eq_true, decide_eq_true_eq]
  rw [parameters_unplaced, parameters_unplaced, body_unplaced, body_unplaced, spelling_unplaced,
    spelling_unplaced]

end Definition

end Macro

namespace Token

open Macro.Definition

theorem renderTail_congr {tokens others : List Token}
    (h : tokens.map tokenSpelling = others.map tokenSpelling) :
    renderTail tokens = renderTail others := by
  induction tokens generalizing others with
  | nil =>
    obtain rfl := List.map_eq_nil_iff.1 h.symm
    rfl
  | cons token rest ih =>
    obtain ⟨other, more, rfl, hfirst, hrest⟩ := List.map_eq_cons_iff.1 h.symm
    obtain ⟨-, hpair⟩ := Prod.mk.inj hfirst
    obtain ⟨htext, hspace⟩ := Prod.mk.inj hpair
    rw [renderTail, renderTail, ih hrest.symm, htext, hspace]

/-- Tokens are rendered by their spellings and blanks. -/
theorem render_congr {tokens others : List Token}
    (h : tokens.map tokenSpelling = others.map tokenSpelling) : render tokens = render others := by
  cases tokens with
  | nil =>
    obtain rfl := List.map_eq_nil_iff.1 h.symm
    rfl
  | cons token rest =>
    obtain ⟨other, more, rfl, hfirst, hrest⟩ := List.map_eq_cons_iff.1 h.symm
    obtain ⟨-, hpair⟩ := Prod.mk.inj hfirst
    rw [render, render, renderTail_congr hrest.symm, (Prod.mk.inj hpair).1]

theorem render_unplaced (tokens : List Token) : render (tokens.map unplaced) = render tokens :=
  render_congr (tokenSpelling_unplaced tokens)

end Token

namespace Macro

/-- The table with the places of its definitions forgotten. -/
def Table.unplaced (table : Table) : Table := ⟨table.entries.map Definition.unplaced⟩

namespace Table

@[simp] theorem find?_unplaced (table : Table) (name : String) :
    table.unplaced.find? name = (table.find? name).map Definition.unplaced :=
  List.find?_map

@[simp] theorem unplaced_unplaced (table : Table) : table.unplaced.unplaced = table.unplaced := by
  simp [unplaced]

theorem names_unplaced (table : Table) : table.unplaced.names = table.names := by
  rw [names, unplaced, List.map_map]
  rfl

end Table

end Macro

/-- The issue with its own place forgotten. -/
def Issue.unplaced (issue : Issue) : Issue :=
  { issue with position := issue.position.map fun _ => nowhere }

namespace Expansion

open Macro

/-! ## Arguments -/

namespace Collected

/-- What was read with the places forgotten. -/
def unplaced : Collected → Collected
  | closed first others closing rest =>
    closed (first.map Token.unplaced) (others.map (List.map Token.unplaced)) closing.unplaced
      (rest.map Token.unplaced)
  | ended => ended
  | exhausted => exhausted

theorem unplaced_add (token : Token) (collected : Collected) :
    (collected.add token).unplaced = collected.unplaced.add token.unplaced := by
  cases collected <;> rfl

theorem unplaced_separate (collected : Collected) :
    collected.separate.unplaced = collected.unplaced.separate := by
  cases collected <;> rfl

end Collected

theorem collect_unplaced (depth : Nat) (tokens : List Token) :
    collect depth (tokens.map Token.unplaced) = (collect depth tokens).unplaced := by
  induction tokens generalizing depth with
  | nil => rfl
  | cons token rest ih =>
    rw [List.map_cons, collect.eq_def, collect.eq_def depth (token :: rest)]
    simp only [Token.kind_unplaced, Token.isPunctuator_unplaced, ih]
    split
    · rfl
    split
    · rw [Collected.unplaced_add]
    split
    · cases depth with
      | zero => rfl
      | succ depth => rw [Collected.unplaced_add]
    split
    · rw [Collected.unplaced_separate]
    · rw [Collected.unplaced_add]

theorem joinArguments_unplaced (position : Position) (arguments : List (List Token)) :
    joinArguments nowhere (arguments.map (List.map Token.unplaced)) =
      (joinArguments position arguments).map Token.unplaced := by
  fun_induction joinArguments position arguments with
  | case1 => rfl
  | case2 => rfl
  | case3 argument next more ih =>
    rw [List.map_append, List.map_cons (l := joinArguments position (next :: more)), ← ih]
    rfl

/-- What names stand for, with the places forgotten. -/
def Bindings.unplaced (bindings : Bindings) : Bindings :=
  bindings.map fun bound => (bound.1, bound.2.map Token.unplaced)

theorem Bindings.get_unplaced (bindings : Bindings) (name : String) :
    bindings.unplaced.get name = (bindings.get name).map Token.unplaced := by
  unfold get unplaced
  induction bindings with
  | nil => rfl
  | cons bound rest ih =>
    rw [List.map_cons, List.lookup_cons, List.lookup_cons]
    cases name == bound.1 with
    | true => rfl
    | false => exact ih

theorem givenArguments_unplaced (parameters : Parameters) (arguments : List (List Token)) :
    givenArguments parameters (arguments.map (List.map Token.unplaced)) =
      (givenArguments parameters arguments).map (List.map Token.unplaced) := by
  have hempty : arguments.map (List.map Token.unplaced) = [[]] ↔ arguments = [[]] := by
    match arguments with
    | [] => exact iff_of_false nofun nofun
    | [[]] => exact iff_of_true rfl rfl
    | [_ :: _] => simp
    | _ :: _ :: _ => simp
  unfold givenArguments
  simp only [hempty]
  split <;> rfl

theorem bindArguments_unplaced (name : String) (parameters : Parameters) (position : Position)
    (arguments : List (List Token)) :
    bindArguments name parameters nowhere (arguments.map (List.map Token.unplaced)) =
      (bindArguments name parameters position arguments).map Bindings.unplaced := by
  have hzip (given : List (List Token)) :
      parameters.names.zip (given.map (List.map Token.unplaced)) =
        Bindings.unplaced (parameters.names.zip given) := List.zip_map_right ..
  unfold bindArguments
  simp only [givenArguments_unplaced, List.length_map, hzip, ← List.map_drop,
    joinArguments_unplaced position]
  split
  · split
    · rfl
    · simp [Except.map, Bindings.unplaced]
  · split <;> rfl

/-! ## Bodies -/

/-- The part with the places of its tokens forgotten. -/
def Part.unplaced : Part → Part
  | token plain => .token plain.unplaced
  | paste operator => .paste operator.unplaced
  | written name space => .written name space
  | expanded name space => .expanded name space
  | text name operator => .text name operator.unplaced

theorem part_unplaced (definition : Definition) (pasted : Bool) (token : Token) :
    part definition.unplaced pasted token.unplaced = (part definition pasted token).unplaced := by
  simp only [part, apply_ite Part.unplaced]
  rfl

theorem partsFrom_unplaced (definition : Definition) (afterPaste : Bool) (tokens : List Token) :
    partsFrom definition.unplaced afterPaste (tokens.map Token.unplaced) =
      (partsFrom definition afterPaste tokens).map Part.unplaced := by
  fun_induction partsFrom definition afterPaste tokens with
  | case1 => rfl
  | case2 afterPaste last => exact congrArg ([·]) (part_unplaced definition afterPaste last)
  | case3 afterPaste token next rest h ih =>
    rw [List.map_cons, List.map_cons, partsFrom, if_pos (by simpa using h), ih]
    rfl
  | case4 afterPaste token next rest h ih =>
    rw [List.map_cons, List.map_cons, partsFrom, if_neg (by simpa using h), List.map_cons,
      ← part_unplaced, ← ih]
    rfl

theorem parts_unplaced (definition : Definition) :
    parts definition.unplaced = (parts definition).map Part.unplaced :=
  partsFrom_unplaced definition false definition.body

theorem expandedNames_unplaced (definition : Definition) :
    expandedNames definition.unplaced = expandedNames definition := by
  have hname : Part.expandedName? ∘ Part.unplaced = Part.expandedName? := by
    funext part
    cases part <;> rfl
  rw [expandedNames, expandedNames, parts_unplaced, List.filterMap_map, hname]

/-! ## Pasting -/

/-- The piece with the places of its tokens forgotten. -/
def Piece.unplaced : Piece → Piece
  | token plain => .token plain.unplaced
  | placemarker => .placemarker
  | paste operator => .paste operator.unplaced

/-- What pasting gives, with the places forgotten. -/
def Pasted.unplaced (pasted : Pasted) : Pasted :=
  ⟨pasted.issues.map Issue.unplaced, pasted.reversed.map (Option.map Token.unplaced)⟩

theorem pasteTokens?_unplaced (file other : String) (left right : Token) :
    pasteTokens? other left.unplaced right.unplaced =
      (pasteTokens? file left right).map Token.unplaced := by
  have h := unplaced_lexFragment file other (left.text ++ right.text)
  unfold pasteTokens?
  simp only [Token.text_unplaced]
  cases hl : lexFragment file (left.text ++ right.text) with
  | error issue =>
    cases hr : lexFragment other (left.text ++ right.text) with
    | error issue => rfl
    | ok tokens =>
      rw [hl, hr] at h
      contradiction
  | ok tokens =>
    cases hr : lexFragment other (left.text ++ right.text) with
    | error issue =>
      rw [hl, hr] at h
      contradiction
    | ok others =>
      rw [hl, hr] at h
      have he : tokens.map Token.unplaced = others.map Token.unplaced := Option.some.inj h
      match tokens, others with
      | [], [] => rfl
      | [joined], [joined'] =>
        have hj : joined.unplaced = joined'.unplaced := (List.cons.inj he).1
        have hk := congrArg Token.kind hj
        have ht := congrArg Token.text hj
        rw [Token.kind_unplaced, Token.kind_unplaced] at hk
        rw [Token.text_unplaced, Token.text_unplaced] at ht
        simp only [hk, ht]
        rfl
      | _ :: _ :: _, _ :: _ :: _ => rfl
      | [], _ :: _ => contradiction
      | _ :: _, [] => contradiction
      | [_], _ :: _ :: _ => exact absurd (List.cons.inj he).2 nofun
      | _ :: _ :: _, [_] => exact absurd (List.cons.inj he).2 nofun

theorem pasteOperands_unplaced (site : Position) (left right : Option Token) :
    pasteOperands nowhere (left.map Token.unplaced) (right.map Token.unplaced) =
      (pasteOperands site left right).unplaced := by
  cases left with
  | none => rfl
  | some left =>
    cases right with
    | none => rfl
    | some right =>
      simp only [Option.map_some, pasteOperands, pasteTokens?_unplaced site.file nowhere.file]
      cases pasteTokens? site.file left right <;> rfl

theorem Piece.operand_unplaced (piece : Piece) :
    piece.unplaced.operand = piece.operand.map Token.unplaced := by
  cases piece <;> rfl

theorem pasteFrom_unplaced (site : Position) (before : List (Option Token))
    (pieces : List Piece) :
    pasteFrom nowhere (before.map (Option.map Token.unplaced)) (pieces.map Piece.unplaced) =
      (pasteFrom site before pieces).unplaced := by
  fun_induction pasteFrom site before pieces with
  | case1 before => rw [List.map_nil, pasteFrom]; rfl
  | case2 left before operator right rest joined more ih =>
    have hj := pasteOperands_unplaced site left right.operand
    rw [List.map_cons, List.map_cons, List.map_cons, Piece.unplaced, pasteFrom,
      Piece.operand_unplaced, hj]
    have hmore : pasteFrom nowhere (joined.unplaced.reversed ++
        before.map (Option.map Token.unplaced)) (rest.map Piece.unplaced) = more.unplaced := by
      rw [← ih, List.map_append]
      rfl
    rw [hmore]
    simp [Pasted.unplaced, joined]
  | case3 before piece rest h ih =>
    rw [List.map_cons, pasteFrom, Piece.operand_unplaced]
    · exact ih
    · rintro left front operator right behind hb hp hr
      obtain ⟨left, front, rfl, -, -⟩ := List.map_eq_cons_iff.1 hb
      obtain ⟨right, behind, rfl, -, -⟩ := List.map_eq_cons_iff.1 hr
      cases piece with
      | paste operator => exact h left front operator right behind rfl rfl rfl
      | token | placemarker => contradiction

theorem paste_unplaced (site : Position) (pieces : List Piece) :
    paste nowhere (pieces.map Piece.unplaced) =
      ((paste site pieces).1.map Issue.unplaced, (paste site pieces).2.map Token.unplaced) := by
  have h := pasteFrom_unplaced site [] pieces
  rw [List.map_nil] at h
  unfold paste
  dsimp only
  rw [h, Pasted.unplaced, ← List.map_reverse, List.filterMap_map, List.map_filterMap]
  rfl

/-! ## Calls -/

theorem spaceFirst_unplaced (space : Bool) (tokens : List Token) :
    spaceFirst space (tokens.map Token.unplaced) =
      (spaceFirst space tokens).map Token.unplaced := by
  cases tokens <;> rfl

theorem stringize_unplaced (operator : Token) (argument : List Token) :
    stringize operator.unplaced (argument.map Token.unplaced) =
      (stringize operator argument).unplaced := by
  have htail (tokens : List Token) : literalTail (tokens.map Token.unplaced) =
      literalTail tokens := by
    induction tokens with
    | nil => rfl
    | cons token rest ih =>
      rw [List.map_cons, literalTail, ih]
      rfl
  have htext : argumentText (argument.map Token.unplaced) = argumentText argument := by
    cases argument with
    | nil => rfl
    | cons first rest =>
      rw [List.map_cons, argumentText, htail]
      rfl
  unfold stringize
  rw [htext]
  rfl

namespace Invocation

/-- The call with the places forgotten. -/
def unplaced (call : Invocation) : Invocation :=
  ⟨call.definition.unplaced, call.site.unplaced, call.last.unplaced, call.bindings.unplaced⟩

theorem wanted_unplaced (call : Invocation) : call.unplaced.wanted = call.wanted.unplaced := by
  have hget : call.unplaced.bindings.get =
      fun name => (call.bindings.get name).map Token.unplaced := by
    funext name
    exact Bindings.get_unplaced call.bindings name
  unfold wanted
  rw [hget]
  simp only [unplaced, expandedNames_unplaced, Bindings.unplaced, List.map_map]
  rfl

theorem fill_unplaced (call : Invocation) (expanded : Bindings) (part : Part) :
    call.unplaced.fill expanded.unplaced part.unplaced =
      (call.fill expanded part).map Piece.unplaced := by
  cases part with
  | token plain => rfl
  | paste operator => rfl
  | written name space =>
    simp only [Part.unplaced, fill, unplaced, Bindings.get_unplaced]
    cases call.bindings.get name with
    | nil => rfl
    | cons first rest =>
      simp only [spaceFirst, List.map_cons, List.map_map]
      rfl
  | expanded name space =>
    simp only [Part.unplaced, fill, Bindings.get_unplaced, spaceFirst_unplaced, List.map_map]
    rfl
  | text name operator =>
    simp only [Part.unplaced, fill, unplaced, Bindings.get_unplaced, stringize_unplaced]
    rfl

theorem pieces_unplaced (call : Invocation) (expanded : Bindings) :
    (parts call.unplaced.definition).flatMap (call.unplaced.fill expanded.unplaced) =
      ((parts call.definition).flatMap (call.fill expanded)).map Piece.unplaced := by
  rw [unplaced, parts_unplaced, List.flatMap_map, List.map_flatMap]
  exact congrArg (List.flatMap · _) (funext fun part => fill_unplaced call expanded part)

/-- What replaces a call without its places is the replacement without its places. -/
theorem replacement_unplaced (call : Invocation) (expanded : Bindings) :
    call.unplaced.replacement expanded.unplaced =
      ((call.replacement expanded).1.map Issue.unplaced,
        (call.replacement expanded).2.map Token.unplaced) := by
  unfold replacement
  dsimp only
  rw [pieces_unplaced, ← spaceFirst_unplaced]
  have hpaste := paste_unplaced call.site.position
    ((parts call.definition).flatMap (call.fill expanded))
  show ((paste nowhere _).1, spaceFirst call.site.space ((paste nowhere _).2.map _)) = _
  rw [hpaste, List.map_map, List.map_map]
  rfl

end Invocation

end Expansion

end CPreprocessor

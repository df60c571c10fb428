import CPreprocessor.Proofs.Expansion.ObjectLike
import CPreprocessor.Proofs.Expansion.Placemarker

/-!
# Names that stand for their bodies

An object-like macro whose body has no paste operator, and no name in it that stands for anything
else, is replaced by that body as it is written.

* `substituted_of_not_isPaste`: nothing is pasted where no operator stands.
* `expand_name`: the name is expanded to tokens that are spelled as the body is.
-/

namespace CPreprocessor.Expansion

open Macro

variable {definition : Definition} {name : Token} {table : Table}

/-- A body without the paste operator is its own replacement. -/
theorem substituted_of_not_isPaste (hb : ∀ token ∈ definition.body, token.isPaste = false)
    (name : Token) :
    substituted definition name = ([], spaceFirst name.space (definition.body.map fun token =>
      { token with
        position := name.position
        hide := token.hide ∪ name.hide.insert definition.name })) := by
  have hpieces : bodyPieces definition.body = definition.body.map .token :=
    List.map_congr_left fun token hm => if_neg (by simp [hb token hm])
  have hplain : ∀ piece ∈ definition.body.map Piece.token, ∀ operator,
      piece ≠ .paste operator := by
    intro piece hm operator
    obtain ⟨token, -, rfl⟩ := List.mem_map.1 hm
    exact nofun
  have hpaste := Placemarker.pasteFrom_append name.position hplain [] []
  rw [List.append_nil, List.append_nil] at hpaste
  have hdone : paste name.position (definition.body.map .token) = ([], definition.body) := by
    rw [paste, hpaste, pasteFrom, List.reverse_reverse, List.map_map]
    simp [Function.comp_def, Piece.operand]
  rw [substituted, hpieces, hdone]

/-- What counts of tokens in front of which a blank stands or not. -/
theorem tokenSpelling_spaceFirst (space : Bool) {tokens others : List Token}
    (h : tokens.map Definition.tokenSpelling = others.map Definition.tokenSpelling) :
    (spaceFirst space tokens).map Definition.tokenSpelling =
      (spaceFirst space others).map Definition.tokenSpelling := by
  cases tokens with
  | nil =>
    obtain rfl := List.map_eq_nil_iff.1 h.symm
    rfl
  | cons first rest =>
    obtain ⟨other, more, rfl, hfirst, hrest⟩ := List.map_eq_cons_iff.1 h.symm
    obtain ⟨hkind, hpair⟩ := Prod.mk.inj hfirst
    obtain ⟨htext, -⟩ := Prod.mk.inj hpair
    rw [spaceFirst, spaceFirst, List.map_cons, List.map_cons, hrest]
    simp [Definition.tokenSpelling, hkind, htext]

/-- The name of a macro comes out as its body, if nothing in that is replaced. -/
theorem expand_name (hp : definition.parameters = none)
    (hf : table.find? name.text = some definition) (hk : name.kind = .identifier)
    (hh : name.text ∉ name.hide) (hb : ∀ token ∈ definition.body, token.isPaste = false)
    (hn : ∀ token ∈ definition.body, token.kind = .identifier →
      table.find? token.text = none ∧ token.text ∉ builtinNames) :
    ∃ tokens : List Token, expand table [name] = tokens.map .token ∧
      tokens.map Definition.tokenSpelling =
        (spaceFirst name.space definition.body).map Definition.tokenSpelling := by
  have hstep : step table false name [] = .invoke ⟨definition, name, name, []⟩ [] := by
    simp only [step, if_pos (And.intro hk hh), hf, hp]
  obtain ⟨hresult, hevents⟩ := result_eq_substituted hp table name
  have hplain := substituted_of_not_isPaste hb name
  refine ⟨(substituted definition name).2, ?_, ?_⟩
  · have hfinal : ∀ token ∈ (substituted definition name).2, Final table token := by
      rw [hplain]
      intro token hm
      obtain ⟨other, ho, he⟩ := exists_of_mem_spaceFirst hm
      obtain ⟨own, hown, rfl⟩ := List.mem_map.1 ho
      have hown := hn own hown
      rw [he]
      refine ⟨fun hk hc => ?_, fun hk => (hown hk).2⟩
      rw [Table.contains, (hown hk).1] at hc
      contradiction
    have hevents : (Step.invoke ⟨definition, name, name, []⟩ []).events table = [] := by
      rw [Step.events, hevents, hplain]
      rfl
    have hnext : (Step.invoke ⟨definition, name, name, []⟩ []).next table [] =
        (substituted definition name).2 := by
      rw [Step.next, hresult, List.append_nil]
    rw [expand, drain_cons_of_not_wait (by simp [hstep]), hstep, hevents, hnext]
    exact expand_of_final hfinal
  · rw [hplain]
    refine tokenSpelling_spaceFirst name.space ?_
    rw [List.map_map]
    rfl

end CPreprocessor.Expansion

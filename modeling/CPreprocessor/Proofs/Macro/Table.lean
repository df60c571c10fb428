import CPreprocessor.Macro.CommandLine
import CPreprocessor.Proofs.Macro.Parse
import CPreprocessor.Proofs.Token.Shape

/-!
# What every token of every body has

Bodies are made of tokens that were read, so what holds of the tokens behind `define` and on the
command line holds in the macros in force.

* `Inherited`: a property of tokens that only looks at their classes and spellings, and that every
  ordinary token has. `inherited_ordinary`, `inherited_quoted`: two of them.
* `Table.Has`: the property holds in every body.
* `has_define`, `has_erase`, `has_initial`: directives and the command line keep it.
-/

namespace CPreprocessor

open Macro

/-- A property of classes and spellings that every ordinary token has. -/
structure Inherited (P : Token → Prop) : Prop where
  congr : ∀ {token other : Token}, P token → other.kind = token.kind → other.text = token.text →
    P other
  ordinary : ∀ {token : Token}, token.Ordinary → P token

theorem inherited_ordinary : Inherited Token.Ordinary := ⟨Token.Ordinary.congr, id⟩

theorem inherited_quoted : Inherited Token.Quoted := by
  refine ⟨fun h hk ht hs => ?_, Token.Ordinary.quoted⟩
  rw [ht]
  exact h (hk ▸ hs)

namespace Macro

variable {P : Token → Prop} {table : Table} {definition : Definition}

theorem has_body_of_parse (hi : Inherited P) {place : Position} {tokens : List Token}
    (h : Definition.parse place tokens = .ok definition) (ht : ∀ token ∈ tokens, P token) :
    ∀ token ∈ definition.body, P token := by
  intro token hm
  obtain ⟨read, hr, hk, he, -⟩ := mem_body_of_parse h hm
  exact hi.congr (ht read hr) hk he

/-- A definition on the command line is read as one from a line of a file. -/
theorem exists_parse_of_ofCommandLine {text : String}
    (h : Definition.ofCommandLine text = .ok definition) :
    ∃ tokens, lexFragment commandLine.file (String.ofList
        ((splitDefinition text.toList).1 ++ ' ' :: (splitDefinition text.toList).2)) = .ok tokens ∧
      isHead (splitDefinition text.toList).1 ∧
      Definition.parse commandLine tokens = .ok definition := by
  unfold Definition.ofCommandLine at h
  dsimp only at h
  split at h
  · contradiction
  · next hh =>
    split at h
    · contradiction
    · next tokens hl => exact ⟨tokens, hl, by simpa using hh, h⟩

namespace Table

/-- The property holds of every token of every body. -/
def Has (P : Token → Prop) (table : Table) : Prop :=
  ∀ definition ∈ table.entries, ∀ token ∈ definition.body, P token

theorem mem_of_place {definition other : Definition} {entries : List Definition}
    (h : other ∈ place definition entries) : other = definition ∨ other ∈ entries := by
  induction entries with
  | nil => exact .inl (List.mem_singleton.1 h)
  | cons head tail ih =>
    unfold place at h
    split at h
    · rcases List.mem_cons.1 h with rfl | h
      · exact .inl rfl
      · exact .inr (List.mem_cons_of_mem _ h)
    · rcases List.mem_cons.1 h with rfl | h
      · exact .inr List.mem_cons_self
      · exact (ih h).imp id (List.mem_cons_of_mem _)

theorem has_empty : Table.Has P ∅ := List.forall_mem_nil _

theorem has_install (h : table.Has P) (hb : ∀ token ∈ definition.body, P token) :
    (table.install definition).Has P := by
  intro other hm
  rcases mem_of_place hm with rfl | hm
  · exact hb
  · exact h other hm

theorem has_erase (h : table.Has P) (name : String) : (table.erase name).Has P :=
  fun other hm => h other (List.mem_filter.1 hm).1

theorem has_define {defined : Table} (h : table.Has P) (hb : ∀ token ∈ definition.body, P token)
    (hd : table.define definition = .ok defined) : defined.Has P := by
  unfold define at hd
  split at hd
  · obtain rfl := Except.ok.inj hd
    exact has_install h hb
  · split at hd
    · obtain rfl := Except.ok.inj hd
      exact h
    · contradiction

theorem has_installAll {texts : List String} {installed : Table} (h : table.Has Token.Ordinary)
    (hd : table.installAll texts = .ok installed) : installed.Has Token.Ordinary := by
  induction texts generalizing table with
  | nil =>
    obtain rfl := Except.ok.inj hd
    exact h
  | cons text rest ih =>
    rw [installAll] at hd
    cases ho : Definition.ofCommandLine text with
    | error issue =>
      rw [ho] at hd
      contradiction
    | ok definition =>
      rw [ho] at hd
      obtain ⟨tokens, hl, -, hp⟩ := exists_parse_of_ofCommandLine ho
      exact ih (has_install h (has_body_of_parse inherited_ordinary hp
        (ordinary_of_lexFragment hl))) hd

theorem has_eraseAll {names : List String} {erased : Table} (h : table.Has P)
    (hd : table.eraseAll names = .ok erased) : erased.Has P := by
  induction names generalizing table with
  | nil =>
    obtain rfl := Except.ok.inj hd
    exact h
  | cons name rest ih =>
    unfold eraseAll at hd
    split at hd
    · exact ih (has_erase h name) hd
    · contradiction

/-- The macros that a run starts with have ordinary bodies. -/
theorem has_initial {defines undefines : List String} {initial : Table}
    (h : Table.initial defines undefines = .ok initial) : initial.Has Token.Ordinary := by
  unfold Table.initial at h
  cases hi : installAll ∅ (standard ++ defines) with
  | error issue =>
    rw [hi] at h
    contradiction
  | ok installed =>
    rw [hi] at h
    exact has_eraseAll (has_installAll has_empty hi) h

end Table

end Macro

end CPreprocessor

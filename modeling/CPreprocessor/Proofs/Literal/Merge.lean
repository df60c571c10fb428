import CPreprocessor.Literal.Merge
import CPreprocessor.Proofs.Macro.Table

/-!
# Literals that can be joined

Two literals can only be joined if each has a quote to be cut at. `absorb?` and `merge?` merge like
`absorb` and `merge` and stop at a literal without one.

* `absorb?_eq`, `merge?_eq`: among literals with quotes they never stop.
* `has_absorb`: what comes out has the properties of what went in.
-/

namespace CPreprocessor.Literal

/-- Whether the token has the parts of a literal. -/
def hasParts (token : Token) : Bool := (split? token.text.toList).isSome

/-- Reads one token with a literal held back; nothing if a literal that is to be joined with
another one has no quote. -/
def absorb? (held : Option Token) (token : Token) : Option (List Token × Option Token) :=
  if token.kind = .string ∧ (held.any fun left => !(hasParts left && hasParts token)) then none
  else some (absorb held token)

/-- Merges string literals as long as they can be joined. -/
def mergeFrom? (held : Option Token) : List Token → Option (List Token)
  | [] => some held.toList
  | token :: rest => do
    let (ready, held) ← absorb? held token
    return ready ++ (← mergeFrom? held rest)

/-- Merges runs of adjacent string literals as long as they can be joined. -/
def merge? (tokens : List Token) : Option (List Token) := mergeFrom? none tokens

/-- What is held back is a literal with a quote. -/
def Holds (held : Option Token) : Prop := ∀ left ∈ held, left.kind = .string ∧ left.Quoted

theorem holds_none : Holds none := fun left hl => absurd hl (Option.not_mem_none left)

theorem hasParts_of_quoted {token : Token} (hk : token.kind = .string) (hq : token.Quoted) :
    hasParts token := by
  unfold hasParts split?
  cases hd : token.text.toList.dropWhile (· ≠ '"') with
  | nil =>
    have hw := List.takeWhile_append_dropWhile (p := (· ≠ '"')) (l := token.text.toList)
    rw [hd, List.append_nil] at hw
    have hall := List.all_takeWhile (p := (· ≠ '"')) (l := token.text.toList)
    rw [hw, List.all_eq_true] at hall
    exact absurd (hall '"' (hq hk)) (by decide)
  | cons quote rest => rfl

theorem ordinary_of_join? {left right joined : Token} (h : join? left right = some joined) :
    joined.kind = .string ∧ joined.Ordinary := by
  unfold join? at h
  obtain ⟨first, -, h⟩ := Option.bind_eq_some_iff.1 h
  obtain ⟨second, -, h⟩ := Option.bind_eq_some_iff.1 h
  obtain ⟨both, -, h⟩ := Option.bind_eq_some_iff.1 h
  obtain rfl := Option.some.inj h
  exact ⟨rfl, .of_string rfl (by simp [spell])⟩

/-- What comes out of merging, and what it holds back, has the properties of what went in. -/
theorem has_absorb {P : Token → Prop} (hi : Inherited P) {held : Option Token} {token : Token}
    (hh : ∀ left ∈ held, P left) (ht : P token) :
    (∀ ready ∈ (absorb held token).1, P ready) ∧ ∀ left ∈ (absorb held token).2, P left := by
  unfold absorb
  split
  · split
    · simpa using ht
    · next left =>
      split
      · next joined hj => simpa using hi.ordinary (ordinary_of_join? hj).2
      · simpa using ⟨hh left rfl, ht⟩
  · refine ⟨fun ready hm => ?_, nofun⟩
    rcases List.mem_append.1 hm with hm | hm
    · exact hh ready (Option.mem_toList.1 hm)
    · rw [List.mem_singleton.1 hm]
      exact ht

theorem holds_absorb {held : Option Token} {token : Token} (hh : Holds held)
    (ht : token.Quoted) : Holds (absorb held token).2 := by
  intro left hl
  refine ⟨?_, (has_absorb inherited_quoted (fun other ho => (hh other ho).2) ht).2 left hl⟩
  unfold absorb at hl
  split at hl
  · next hk =>
    split at hl
    · obtain rfl := Option.some.inj hl
      exact hk
    · split at hl
      · next joined hj =>
        obtain rfl := Option.some.inj hl
        exact (ordinary_of_join? hj).1
      · obtain rfl := Option.some.inj hl
        exact hk
  · contradiction

/-- A literal with a quote can be joined with the one that is held back. -/
theorem absorb?_eq {held : Option Token} {token : Token} (hh : Holds held) (ht : token.Quoted) :
    absorb? held token = some (absorb held token) := by
  refine if_neg ?_
  rintro ⟨hk, hp⟩
  cases held with
  | none => contradiction
  | some left =>
    obtain ⟨hl, hq⟩ := hh left rfl
    simp [hasParts_of_quoted hk ht, hasParts_of_quoted hl hq] at hp

theorem mergeFrom?_eq {held : Option Token} {tokens : List Token} (hh : Holds held)
    (ht : ∀ token ∈ tokens, token.Quoted) :
    mergeFrom? held tokens = some (mergeFrom held tokens) := by
  induction tokens generalizing held with
  | nil => rfl
  | cons token rest ih =>
    obtain ⟨hf, hr⟩ := List.forall_mem_cons.1 ht
    rw [mergeFrom?, absorb?_eq hh hf]
    change (mergeFrom? (absorb held token).2 rest).bind _ = _
    rw [ih (holds_absorb hh hf) hr]
    rfl

/-- Literals with quotes can all be merged. -/
theorem merge?_eq {tokens : List Token} (ht : ∀ token ∈ tokens, token.Quoted) :
    merge? tokens = some (merge tokens) := mergeFrom?_eq holds_none ht

end CPreprocessor.Literal

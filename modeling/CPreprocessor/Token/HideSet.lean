/-!
# Hide sets

The names a token may no longer be expanded as. A hide set is kept as its names in ascending order,
so two sets with the same names are equal (`HideSet.ext`) and the names can be listed in order.

- Membership after each operation: `mem_insert`, `mem_union`, `mem_inter`.
-/

namespace CPreprocessor

/-- A finite set of names, listed in ascending order by code point. -/
structure HideSet where
  names : List String
  ascending : names.Pairwise (· < ·)
deriving DecidableEq

namespace HideSet

instance : EmptyCollection HideSet := ⟨⟨[], .nil⟩⟩

instance : Inhabited HideSet := ⟨∅⟩

instance : Membership String HideSet := ⟨fun set name => name ∈ set.names⟩

instance (name : String) (set : HideSet) : Decidable (name ∈ set) :=
  inferInstanceAs (Decidable (name ∈ set.names))

theorem mem_iff {name : String} {set : HideSet} : name ∈ set ↔ name ∈ set.names := .rfl

@[simp] theorem not_mem_empty (name : String) : name ∉ (∅ : HideSet) := List.not_mem_nil

/-- Puts a name at its place in an ascending list. -/
def place (name : String) : List String → List String
  | [] => [name]
  | head :: tail =>
    if name < head then name :: head :: tail
    else if name = head then head :: tail
    else head :: place name tail

theorem mem_place {name other : String} {names : List String} :
    other ∈ place name names ↔ other = name ∨ other ∈ names := by
  induction names with
  | nil => simp [place]
  | cons head tail ih =>
    unfold place
    split
    · simp
    · split
      · next h => simp [h]
      · simp only [List.mem_cons, ih]
        exact or_left_comm

theorem ascending_place (name : String) {names : List String}
    (ascending : names.Pairwise (· < ·)) : (place name names).Pairwise (· < ·) := by
  induction names with
  | nil => simp [place]
  | cons head tail ih =>
    obtain ⟨below, rest⟩ := List.pairwise_cons.1 ascending
    unfold place
    split
    · next before =>
      refine List.pairwise_cons.2 ⟨fun other member => ?_, ascending⟩
      rcases List.mem_cons.1 member with rfl | later
      · exact before
      · exact String.lt_trans before (below other later)
    · split
      · exact ascending
      · next notBefore notEqual =>
        refine List.pairwise_cons.2 ⟨fun other member => ?_, ih rest⟩
        rcases mem_place.1 member with rfl | later
        · rcases Std.lt_trichotomy other head with before | same | after
          · exact absurd before notBefore
          · exact absurd same notEqual
          · exact after
        · exact below other later

/-- Adds a name. -/
def insert (set : HideSet) (name : String) : HideSet :=
  ⟨place name set.names, ascending_place name set.ascending⟩

/-- The names of either set. -/
protected def union (left right : HideSet) : HideSet := left.names.foldl insert right

/-- The names of both sets. -/
protected def inter (left right : HideSet) : HideSet :=
  ⟨left.names.filter (· ∈ right), left.ascending.filter _⟩

instance : Union HideSet := ⟨HideSet.union⟩

instance : Inter HideSet := ⟨HideSet.inter⟩

@[simp] theorem mem_insert {name other : String} {set : HideSet} :
    other ∈ set.insert name ↔ other = name ∨ other ∈ set := mem_place

theorem mem_foldl_insert {other : String} {names : List String} {set : HideSet} :
    other ∈ names.foldl insert set ↔ other ∈ names ∨ other ∈ set := by
  induction names generalizing set with
  | nil => simp
  | cons head tail ih =>
    rw [List.foldl_cons, ih, mem_insert, List.mem_cons, or_left_comm, or_assoc]

@[simp] theorem mem_union {name : String} {left right : HideSet} :
    name ∈ left ∪ right ↔ name ∈ left ∨ name ∈ right := mem_foldl_insert

@[simp] theorem mem_inter {name : String} {left right : HideSet} :
    name ∈ left ∩ right ↔ name ∈ left ∧ name ∈ right := by
  change name ∈ left.names.filter _ ↔ _
  simp [mem_iff]

theorem names_eq_of_mem_iff {left right : List String} (ascendingLeft : left.Pairwise (· < ·))
    (ascendingRight : right.Pairwise (· < ·)) (same : ∀ name, name ∈ left ↔ name ∈ right) :
    left = right := by
  induction left generalizing right with
  | nil =>
    cases right with
    | nil => rfl
    | cons head tail => exact absurd ((same head).2 List.mem_cons_self) List.not_mem_nil
  | cons head tail ih =>
    cases right with
    | nil => exact absurd ((same head).1 List.mem_cons_self) List.not_mem_nil
    | cons other rest =>
      obtain ⟨below, ascendingTail⟩ := List.pairwise_cons.1 ascendingLeft
      obtain ⟨above, ascendingRest⟩ := List.pairwise_cons.1 ascendingRight
      have heads : head = other := by
        rcases List.mem_cons.1 ((same head).1 List.mem_cons_self) with equal | later
        · exact equal
        · rcases List.mem_cons.1 ((same other).2 List.mem_cons_self) with equal | behind
          · exact equal.symm
          · exact absurd (above head later) (String.lt_asymm (below other behind))
      subst heads
      have tails : tail = rest := by
        refine ih ascendingTail ascendingRest fun name => ⟨fun member => ?_, fun member => ?_⟩
        · rcases List.mem_cons.1 ((same name).1 (List.mem_cons_of_mem _ member)) with rfl | found
          · exact absurd (below name member) (String.lt_irrefl name)
          · exact found
        · rcases List.mem_cons.1 ((same name).2 (List.mem_cons_of_mem _ member)) with rfl | found
          · exact absurd (above name member) (String.lt_irrefl name)
          · exact found
      rw [tails]

/-- Sets with the same names are equal. -/
theorem ext {left right : HideSet} (same : ∀ name, name ∈ left ↔ name ∈ right) : left = right := by
  obtain ⟨names, ascending⟩ := left
  obtain ⟨others, ascendingOthers⟩ := right
  have equal : names = others := names_eq_of_mem_iff ascending ascendingOthers same
  subst equal
  rfl

end HideSet

end CPreprocessor

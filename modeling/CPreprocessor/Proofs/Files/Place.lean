import CPreprocessor.Proofs.Files.Walk

/-!
# The files of a tree and their identities

In a tree whose names hold no slashes, as those of no file system do, the path from the root tells
files apart once it is written: two files have one identity only if they stand at one place.

* `Slashless`: such a tree. `Slashless.insert`: it stays one when files are put into it.
* `FileAt`: a path leads to the file at a place. `identity_inj`: files are told apart.
-/

namespace CPreprocessor.Files

/-! ## Names without slashes -/

namespace Node

/-- No name in the tree below holds a slash. -/
def Slashless (node : Node) : Prop :=
  ∀ place, (node.at? place).isSome → ∀ name ∈ place, '/' ∉ name.toList

theorem at?_cons (node : Node) (name : String) (rest : List String) :
    node.at? (name :: rest) = (node.entry? name).bind fun inner => inner.at? rest := rfl

/-- Nothing stands below a file. -/
theorem slashless_file (bytes : List UInt8) : (file bytes).Slashless
  | [], _ => List.forall_mem_nil _
  | _ :: _, h => nomatch h

/-- The names in a directory are those of its entries and those in them. -/
theorem slashless_iff {node : Node} :
    node.Slashless ↔ ∀ name inner, node.entry? name = some inner →
      '/' ∉ name.toList ∧ inner.Slashless := by
  constructor
  · intro h name inner he
    have hat (rest : List String) : node.at? (name :: rest) = inner.at? rest := by
      rw [at?_cons, he, Option.bind_some]
    refine ⟨h [name] ?_ name List.mem_cons_self, fun rest hr => ?_⟩
    · rw [hat]
      rfl
    · exact (List.forall_mem_cons.1 (h (name :: rest) (hat rest ▸ hr))).2
  · rintro h (_ | ⟨name, rest⟩) hs
    · exact List.forall_mem_nil _
    · rw [at?_cons] at hs
      obtain ⟨inner, he⟩ : ∃ inner, node.entry? name = some inner := by
        cases he : node.entry? name with
        | none =>
          rw [he] at hs
          contradiction
        | some inner => exact ⟨inner, rfl⟩
      rw [he, Option.bind_some] at hs
      obtain ⟨hname, hinner⟩ := h name inner he
      exact List.forall_mem_cons.2 ⟨hname, hinner rest hs⟩

theorem lookup_setEntry (name other : String) (node : Node) (entries : List (String × Node)) :
    (setEntry name node entries).lookup other =
      if other = name then some node else entries.lookup other := by
  induction entries with
  | nil =>
    by_cases h : other = name
    · simp [setEntry, h]
    · simp [setEntry, List.lookup_cons, beq_false_of_ne h, h]
  | cons entry rest ih =>
    obtain ⟨first, old⟩ := entry
    by_cases hf : first = name
    · subst hf
      by_cases h : other = first
      · simp [setEntry, h]
      · simp [setEntry, h, List.lookup_cons, beq_false_of_ne h]
    · by_cases h : other = first
      · subst h
        simp [setEntry, hf]
      · simp only [setEntry, if_neg hf, List.lookup_cons, beq_false_of_ne h]
        exact ih

theorem slashless_empty : empty.Slashless := slashless_iff.2 fun _ _ he => nomatch he

theorem Slashless.setEntry {entries : List (String × Node)} (h : (directory entries).Slashless)
    {name : String} (hn : '/' ∉ name.toList) {node : Node} (hs : node.Slashless) :
    (directory (setEntry name node entries)).Slashless := by
  refine slashless_iff.2 fun other inner he => ?_
  change (Node.setEntry name node entries).lookup other = some inner at he
  rw [lookup_setEntry] at he
  split at he
  · next hname =>
    obtain rfl := Option.some.inj he
    exact ⟨hname ▸ hn, hs⟩
  · exact slashless_iff.1 h other inner he

/-- A tree without slashes stays one when such a node is put into it at such a place. -/
theorem Slashless.insert {new : Node} (hn : new.Slashless) {place : List String}
    (hp : ∀ name ∈ place, '/' ∉ name.toList) {old : Node} (ho : old.Slashless) :
    (new.insert place old).Slashless := by
  induction place generalizing old with
  | nil =>
    unfold Node.insert replacing
    split
    · exact ho
    · exact hn
  | cons name rest ih =>
    obtain ⟨hname, hrest⟩ := List.forall_mem_cons.1 hp
    have hinner : (new.insert rest ((old.entry? name).getD empty)).Slashless := by
      refine ih hrest ?_
      cases he : old.entry? name with
      | none => exact slashless_empty
      | some inner => exact (slashless_iff.1 ho name inner he).2
    cases old with
    | file bytes => exact slashless_empty.setEntry hname hinner
    | directory entries => exact ho.setEntry hname hinner

end Node

namespace Path

theorem notMem_of_mem_splitSlashes (chars : List Char) :
    ∀ piece ∈ splitSlashes chars, '/' ∉ piece := by
  fun_induction splitSlashes chars with
  | case1 => simp
  | case2 rest ih => exact List.forall_mem_cons.2 ⟨List.not_mem_nil, ih⟩
  | case3 c rest hc hs ih =>
    exact List.forall_mem_singleton.2 (List.not_mem_cons_of_ne_of_not_mem (Ne.symm hc)
      List.not_mem_nil)
  | case4 c rest hc piece pieces hs ih =>
    rw [hs] at ih
    obtain ⟨hpiece, hpieces⟩ := List.forall_mem_cons.1 ih
    exact List.forall_mem_cons.2 ⟨List.not_mem_cons_of_ne_of_not_mem (Ne.symm hc) hpiece, hpieces⟩

/-- No component of a path that is read holds a slash. -/
theorem notMem_of_mem_components (text : String) :
    ∀ name ∈ (ofString text).components, '/' ∉ name.toList := by
  intro name hm
  obtain ⟨piece, hp, rfl⟩ := List.mem_map.1 (List.mem_filter.1 hm).1
  rw [String.toList_ofList]
  exact notMem_of_mem_splitSlashes _ piece hp

theorem collapse_subset (seen rest : List String) : collapse seen rest ⊆ seen ++ rest := by
  fun_induction collapse seen rest with
  | case1 seen => simp
  | case2 seen rest ih =>
    refine List.Subset.trans ih (List.append_subset.2 ⟨?_, ?_⟩)
    · exact List.Subset.trans (List.tail_sublist seen).subset (List.subset_append_left _ _)
    · exact List.Subset.trans (List.subset_cons_self _ _) (List.subset_append_right _ _)
  | case3 seen name rest hn ih => exact List.Subset.trans ih List.perm_middle.symm.subset

end Path

namespace Tree

variable {tree : Tree} {path : Path} {place : List String}

/-- A tree stays without slashes when a file or directory is put into it at a path that is read. -/
theorem slashless_insert (ht : tree.root.Slashless) (hw : ∀ name ∈ tree.working, '/' ∉ name.toList)
    {node : Node} (hn : node.Slashless) (text : String) :
    (tree.insert (.ofString text) node).root.Slashless := by
  refine hn.insert (fun name hm => ?_) ht
  have hread := Path.notMem_of_mem_components text
  rcases List.mem_append.1 (Path.collapse_subset _ _ hm) with hm | hm
  · contradiction
  · rcases List.mem_append.1 hm with hm | hm
    · split at hm
      · exact hw name hm
      · contradiction
    · exact hread name hm

/-! ## Files -/

/-- The path leads to a file, which stands at this place. -/
def FileAt (tree : Tree) (path : Path) (place : List String) : Prop :=
  tree.Reaches path place ∧ ∃ bytes, tree.root.at? place = some (.file bytes)

theorem isFile_iff_fileAt (tree : Tree) (path : Path) :
    tree.isFile path ↔ ∃ place, tree.FileAt path place := by
  rw [isFile_iff]
  exact exists_congr fun place => exists_and_left

theorem FileAt.resolve_eq (h : tree.FileAt path place) : tree.resolve path = ⟨.root, place⟩ :=
  resolve_of_reaches h.1

/-- The names on the way to a file hold no slash if none in the tree does. -/
theorem FileAt.slashless (hs : tree.root.Slashless) (h : tree.FileAt path place) :
    ∀ name ∈ place, '/' ∉ name.toList := by
  obtain ⟨-, bytes, hat⟩ := h
  exact hs place (hat ▸ rfl)

end Tree

/-! ## Identities -/

/-- What identifies the file at a place. -/
def identity (place : List String) : String := Path.render ⟨.root, place⟩

theorem splitOn_identity {place : List String} (hp : place ≠ [])
    (hs : ∀ name ∈ place, '/' ∉ name.toList) :
    (identity place).toList.tail.splitOn '/' = place.map String.toList := by
  have hs' : ∀ name ∈ place.map String.toList, '/' ∉ name := by
    simpa only [List.forall_mem_map] using hs
  rw [identity, Path.render, String.toList_append, String.toList_intercalate]
  exact List.splitOn_intercalate '/' hs' (by simpa using hp)

/-- Where the whole tree is a file, there is no other one. -/
theorem Tree.FileAt.eq_nil {tree : Tree} {path written : Path} {other : List String}
    (h : tree.FileAt path []) (ho : tree.FileAt written other) : other = [] := by
  obtain ⟨-, bytes, hroot⟩ := h
  obtain ⟨-, _, hother⟩ := ho
  rw [Option.some.inj hroot] at hother
  cases other with
  | nil => rfl
  | cons name rest => contradiction

/-- Two files of a tree have the same identity only if they are the same one. -/
theorem identity_inj {tree : Tree} (hs : tree.root.Slashless) {path written : Path}
    {place other : List String} (h : tree.FileAt path place) (ho : tree.FileAt written other) :
    identity place = identity other ↔ place = other := by
  refine ⟨fun he => ?_, congrArg identity⟩
  by_cases hp : place = []
  · subst hp
    exact (h.eq_nil ho).symm
  · have hn : other ≠ [] := by
      rintro rfl
      exact hp (ho.eq_nil h)
    have hsame : place.map String.toList = other.map String.toList := by
      rw [← splitOn_identity hp (h.slashless hs), he, splitOn_identity hn (ho.slashless hs)]
    exact (List.map_inj_right fun _ _ => String.toList_injective).1 hsame

end CPreprocessor.Files

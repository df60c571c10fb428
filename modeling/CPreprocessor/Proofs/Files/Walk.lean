import CPreprocessor.Files.Tree

/-!
# Where paths lead to

A walk along a path goes from place to place. It goes on only from a directory, down to an entry of
it or, with a double dot, back up, so that the double dots can be taken out of the path beforehand:
whatever a path leads to has one name from the root, and every path that leads to it resolves to
that name.

* `Node.at?`: what stands at a place. `Walks`: a walk from place to place.
* `walk_eq_ok_iff`: a path is walked to what stands at the place that it reaches.
* `resolve_of_reaches`: it resolves to that place.
-/

namespace CPreprocessor.Files

namespace Node

/-- What stands at a place, given by the names on the way to it. -/
def at? : Node → List String → Option Node
  | node, [] => some node
  | node, name :: rest => (node.entry? name).bind fun inner => inner.at? rest

theorem at?_append (node : Node) (place more : List String) :
    node.at? (place ++ more) = (node.at? place).bind fun inner => inner.at? more := by
  induction place generalizing node with
  | nil => rfl
  | cons name rest ih =>
    rw [List.cons_append, at?, at?]
    cases node.entry? name with
    | none => rfl
    | some inner => exact ih inner

theorem at?_concat (node : Node) (place : List String) (name : String) :
    node.at? (place ++ [name]) = (node.at? place).bind fun inner => inner.entry? name := by
  rw [at?_append]
  congr 1
  funext inner
  rw [at?]
  cases inner.entry? name <;> rfl

end Node

/-- A walk along components from one place to another one. Both are given by the names on the way
from the root in reverse order. -/
inductive Walks (root : Node) : List String → List String → List String → Prop where
  | done (seen : List String) : Walks root seen [] seen
  | up {seen rest final : List String} {entries : List (String × Node)}
      (hd : root.at? seen.reverse = some (.directory entries))
      (h : Walks root seen.tail rest final) : Walks root seen (".." :: rest) final
  | down {seen rest final : List String} {name : String} {inner : Node} (hn : name ≠ "..")
      (hi : root.at? (name :: seen).reverse = some inner)
      (h : Walks root (name :: seen) rest final) : Walks root seen (name :: rest) final

/-- Taking out the double dots gives the end of a walk. -/
theorem Walks.collapse {root : Node} {seen rest final : List String}
    (h : Walks root seen rest final) : Path.collapse seen rest = final.reverse := by
  induction h with
  | done => rfl
  | up _ _ ih => exact ih
  | @down seen rest _ name _ hn _ _ ih =>
    rw [Path.collapse]
    · exact ih
    · exact hn

/-! ## Walks and the nodes on the way -/

/-- The nodes above a place, the nearest first, and the one that stands there. -/
inductive Stands (root : Node) : List String → Node → List Node → Prop where
  | root : Stands root [] root []
  | entry {seen : List String} {node inner : Node} {above : List Node} {name : String}
      (h : Stands root seen node above) (he : node.entry? name = some inner) :
      Stands root (name :: seen) inner (node :: above)

theorem Stands.at? {root node : Node} {seen : List String} {above : List Node}
    (h : Stands root seen node above) : root.at? seen.reverse = some node := by
  induction h with
  | root => rfl
  | entry _ he ih => rw [List.reverse_cons, Node.at?_concat, ih, Option.bind_some, he]

theorem walkFrom_up (above : List Node) (entries : List (String × Node)) (rest : List String) :
    Tree.walkFrom above (.directory entries) (".." :: rest) =
      Tree.walkFrom above.tail (above.head?.getD (.directory entries)) rest := by
  cases above with
  | nil => exact Tree.walkFrom.eq_def [] (.directory entries) (".." :: rest)
  | cons parent further =>
    exact Tree.walkFrom.eq_def (parent :: further) (.directory entries) (".." :: rest)

theorem walkFrom_down (above : List Node) (entries : List (String × Node)) {name : String}
    (hn : name ≠ "..") (rest : List String) :
    Tree.walkFrom above (.directory entries) (name :: rest) =
      match entries.lookup name with
      | none => .error .missing
      | some inner => Tree.walkFrom (.directory entries :: above) inner rest :=
  (Tree.walkFrom.eq_def above (.directory entries) (name :: rest)).trans (if_neg hn)

/-- Following components is a walk to what is found. -/
theorem walks_of_walkFrom {root node final : Node} {seen components : List String}
    {above : List Node} (hs : Stands root seen node above)
    (h : Tree.walkFrom above node components = .ok final) :
    ∃ place, Walks root seen components place ∧ root.at? place.reverse = some final := by
  induction components generalizing seen node above with
  | nil =>
    obtain rfl := Except.ok.inj h
    exact ⟨seen, .done seen, hs.at?⟩
  | cons name rest ih =>
    cases node with
    | file bytes => contradiction
    | directory entries =>
      by_cases hn : name = ".."
      · subst hn
        rw [walkFrom_up] at h
        cases hs with
        | root =>
          obtain ⟨place, hw, hf⟩ := ih .root h
          exact ⟨place, .up (Stands.at? .root) hw, hf⟩
        | entry hs he =>
          obtain ⟨place, hw, hf⟩ := ih hs h
          exact ⟨place, .up (hs.entry he).at? hw, hf⟩
      · rw [walkFrom_down above entries hn] at h
        split at h
        · contradiction
        · next inner he =>
          have hinner := hs.entry he
          obtain ⟨place, hw, hf⟩ := ih hinner h
          exact ⟨place, .down hn hinner.at? hw, hf⟩

/-- Along a walk the components can be followed. -/
theorem walkFrom_of_walks {root node : Node} {seen components final : List String}
    {above : List Node} (hs : Stands root seen node above)
    (h : Walks root seen components final) :
    ∃ found, Tree.walkFrom above node components = .ok found ∧
      root.at? final.reverse = some found := by
  induction h generalizing node above with
  | done => exact ⟨node, rfl, hs.at?⟩
  | @up seen rest final entries hd _ ih =>
    obtain rfl := Option.some.inj (hs.at?.symm.trans hd)
    rw [walkFrom_up]
    cases hs with
    | root => exact ih .root
    | entry hs => exact ih hs
  | @down seen rest final name inner hn hi _ ih =>
    rw [List.reverse_cons, Node.at?_concat, hs.at?, Option.bind_some] at hi
    cases node with
    | file bytes => contradiction
    | directory entries =>
      have hl : entries.lookup name = some inner := hi
      obtain ⟨found, hf, ha⟩ := ih (hs.entry hi)
      refine ⟨found, ?_, ha⟩
      rw [walkFrom_down above entries hn, hl]
      exact hf

namespace Tree

/-- The components that are walked along from the root for a path. -/
def steps (tree : Tree) (path : Path) : List String :=
  match path.anchor with
  | .relative => tree.working ++ path.components
  | _ => path.components

/-- A path reaches a place, given by the names on the way from the root. -/
def Reaches (tree : Tree) (path : Path) (place : List String) : Prop :=
  Walks tree.root [] (tree.steps path) place.reverse

/-- A path is walked to what stands at the place that it reaches. -/
theorem walk_eq_ok_iff (tree : Tree) (path : Path) (node : Node) :
    tree.walk path = .ok node ↔
      ∃ place, tree.Reaches path place ∧ tree.root.at? place = some node := by
  have hw : tree.walk path = walkFrom [] tree.root (tree.steps path) := by
    unfold walk steps
    cases path.anchor <;> rfl
  rw [hw]
  constructor
  · intro h
    obtain ⟨place, hwalks, hat⟩ := walks_of_walkFrom .root h
    refine ⟨place.reverse, ?_, hat⟩
    rwa [Reaches, List.reverse_reverse]
  · rintro ⟨place, hwalks, hat⟩
    obtain ⟨found, hfound, hf⟩ := walkFrom_of_walks .root hwalks
    rw [List.reverse_reverse, hat] at hf
    rwa [Option.some.inj hf]

/-- A path that names a file reaches a place, and there is a file. -/
theorem isFile_iff (tree : Tree) (path : Path) :
    tree.isFile path ↔
      ∃ place bytes, tree.Reaches path place ∧ tree.root.at? place = some (.file bytes) := by
  have hw : tree.isFile path ↔ ∃ bytes, tree.walk path = .ok (.file bytes) := by
    unfold isFile
    split
    · next bytes h => simp [h]
    · next h => simp only [Bool.false_eq_true, false_iff, not_exists]; exact h
  rw [hw]
  constructor
  · rintro ⟨bytes, h⟩
    obtain ⟨place, hr, ha⟩ := (walk_eq_ok_iff tree path _).1 h
    exact ⟨place, bytes, hr, ha⟩
  · rintro ⟨place, bytes, hr, ha⟩
    exact ⟨bytes, (walk_eq_ok_iff tree path _).2 ⟨place, hr, ha⟩⟩

/-- A path resolves to the place that it reaches. -/
theorem resolve_of_reaches {tree : Tree} {path : Path} {place : List String}
    (h : tree.Reaches path place) : tree.resolve path = ⟨.root, place⟩ := by
  have hc := h.collapse
  rw [List.reverse_reverse] at hc
  rw [← hc, resolve, Path.resolve, steps]
  cases path.anchor <;> rfl

end Tree

end CPreprocessor.Files

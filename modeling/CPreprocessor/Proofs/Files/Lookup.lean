import CPreprocessor.Include.Reference
import Mathlib.Data.List.TakeWhile
import Mathlib.Data.String.Basic

/-!
# What a search comes to

The first of some paths that names a file or is refused decides a search. Up to that one every path
is looked at, and leads to no file.

* `meetsOverlong_iff`: a name that is too long counts where it is looked up in a directory.
  `refuses_append`: every directory refuses it.
* `search_eq`: the path that decides. `search_eq_error_iff`: it is refused.
* `Reference.resolve?_of_locate`: what is found is the file that the reference leads to.
  `Reference.locate_eq_error_iff`: what is refused is a path that the header may have.
-/

namespace CPreprocessor

open Include

namespace Files

namespace Path

theorem splitSlashes_of_notMem {text : List Char} (h : '/' ∉ text) :
    splitSlashes text = [text] := by
  induction text with
  | nil => rfl
  | cons c rest ih =>
    rw [List.mem_cons, not_or] at h
    obtain ⟨hc, hrest⟩ := h
    rw [splitSlashes, if_neg (Ne.symm hc), ih hrest]

/-- A name is a path of one component. -/
theorem ofString_name {name : String} (hs : '/' ∉ name.toList) (hc : isComponent name) :
    ofString name = ⟨.relative, [name]⟩ := by
  have hanchor : anchorOf name.toList = .relative := by
    unfold anchorOf
    split
    all_goals first | rfl | simp_all
  rw [ofString, hanchor, splitSlashes_of_notMem hs, List.map_singleton, String.ofList_toList,
    List.filter_cons_of_pos hc, List.filter_nil]

end Path

/-! ## Names that are too long -/

/-- Every character takes a byte at least. -/
theorem length_le_utf8ByteSize (name : String) : name.length ≤ name.utf8ByteSize := by
  rw [← String.length_toList, ← String.utf8Len_toList]
  induction name.toList with
  | nil => rfl
  | cons c rest ih =>
    have hc := c.utf8Size_pos
    rw [List.length_cons, String.utf8Len_cons]
    omega

theorem isOverlong_of_length {name : String} (h : nameLimit < name.length) : isOverlong name :=
  decide_eq_true (h.trans_le (length_le_utf8ByteSize name))

theorem isComponent_of_isOverlong {name : String} (h : isOverlong name) :
    Path.isComponent name := by
  simp only [Path.isComponent, Bool.and_eq_true, decide_eq_true_eq]
  constructor
  all_goals
    rintro rfl
    exact absurd h (by decide)

namespace Tree

variable {tree : Tree} {paths : List Path} {path : Path} {fault : Overlong}

/-- The first name that is too long counts where those in front of it lead to a directory. -/
theorem meetsOverlong_iff : tree.meetsOverlong path ↔
    ∃ front name behind entries, path.components = front ++ name :: behind ∧
      (∀ earlier ∈ front, ¬isOverlong earlier) ∧ isOverlong name ∧
      tree.walk { path with components := front } = .ok (.directory entries) := by
  unfold meetsOverlong
  constructor
  · intro h
    obtain ⟨hlength, hwalk⟩ := Bool.and_eq_true_iff.1 h
    have hsplit : path.components.takeWhile (!isOverlong ·) ++
        path.components.dropWhile (!isOverlong ·) = path.components :=
      List.takeWhile_append_dropWhile
    cases hd : path.components.dropWhile (!isOverlong ·) with
    | nil =>
      rw [hd, List.append_nil] at hsplit
      rw [hsplit] at hlength
      simp at hlength
    | cons name behind =>
      have hname := List.head?_dropWhile_not (!isOverlong ·) path.components
      rw [hd] at hname hsplit
      generalize hw : tree.walk { path with
        components := path.components.takeWhile (!isOverlong ·) } = walked at hwalk
      split at hwalk
      · next entries =>
        refine ⟨_, name, behind, entries, hsplit.symm, fun earlier hm => ?_,
          by simpa using hname, hw⟩
        simpa using List.mem_takeWhile_imp hm
      · contradiction
  · rintro ⟨front, name, behind, entries, hpath, hfront, hname, hwalk⟩
    have htake : path.components.takeWhile (!isOverlong ·) = front := by
      rw [hpath, List.takeWhile_append_of_pos fun earlier hm => by simpa using hfront earlier hm,
        List.takeWhile_cons_of_neg (by simpa using hname), List.append_nil]
    dsimp only
    rw [htake, hwalk, hpath]
    simp

/-- Every directory refuses a name that is too long. -/
theorem refuses_append {base : Path} {name : String} {entries : List (String × Node)}
    (hw : tree.walk base = .ok (.directory entries)) (hz : base.isNameable)
    (hb : ∀ earlier ∈ base.components, ¬isOverlong earlier) (hn : isOverlong name)
    (hc : '\x00' ∉ name.toList) : tree.refuses (base ++ ⟨.relative, [name]⟩) := by
  have hpath : base ++ ⟨.relative, [name]⟩ = ⟨base.anchor, base.components ++ [name]⟩ := rfl
  have hmeets : tree.meetsOverlong (base ++ ⟨.relative, [name]⟩) :=
    meetsOverlong_iff.2 ⟨base.components, name, [], entries, rfl, hb, hn, hw⟩
  have hnameable : (base ++ ⟨.relative, [name]⟩).isNameable := by
    rw [hpath, Path.isNameable, List.all_append]
    simpa [Path.isNameable] using ⟨by simpa [Path.isNameable] using hz, hc⟩
  rw [refuses, hnameable, hmeets, Bool.or_true]
  rfl

/-! ## Searches -/

/-- Whether a search ends at a path. -/
def decides (tree : Tree) (path : Path) : Bool := tree.refuses path || tree.isFile path

theorem search_eq (tree : Tree) (paths : List Path) :
    tree.search paths =
      match paths.find? tree.decides with
      | none => .ok none
      | some path => if tree.refuses path then .error ⟨path⟩ else .ok (some path) := by
  induction paths with
  | nil => rfl
  | cons path rest ih =>
    rw [search, lookUp, List.find?_cons]
    cases hr : tree.refuses path with
    | true => simp [decides, hr]
    | false =>
      cases hf : tree.isFile path with
      | true => simp [decides, hr, hf]
      | false => simp [decides, hr, hf, ih]

/-- A search is broken off at the first path that is refused, if no path before it names a file. -/
theorem search_eq_error_iff : tree.search paths = .error fault ↔
    ∃ before after, paths = before ++ fault.path :: after ∧ tree.refuses fault.path ∧
      ∀ earlier ∈ before, ¬tree.refuses earlier ∧ ¬tree.isFile earlier := by
  rw [search_eq]
  constructor
  · intro h
    cases hf : paths.find? tree.decides with
    | none =>
      rw [hf] at h
      contradiction
    | some path =>
      simp only [hf] at h
      split at h
      · next hr =>
        obtain rfl := Except.error.inj h
        obtain ⟨-, before, after, hpaths, hbefore⟩ := List.find?_eq_some_iff_append.1 hf
        refine ⟨before, after, hpaths, hr, fun earlier hm => ?_⟩
        simpa [decides] using hbefore earlier hm
      · contradiction
  · rintro ⟨before, after, hpaths, hr, hbefore⟩
    have hf : paths.find? tree.decides = some fault.path := by
      refine List.find?_eq_some_iff_append.2 ⟨by simp [decides, hr], before, after, hpaths, ?_⟩
      intro earlier hm
      simpa [decides] using hbefore earlier hm
    simp only [hf, if_pos hr]

/-- What a search finds is the first path that names a file. -/
theorem find?_of_search {found : Option Path} (h : tree.search paths = .ok found) :
    paths.find? tree.isFile = found := by
  rw [search_eq] at h
  cases hf : paths.find? tree.decides with
  | none =>
    rw [hf] at h
    obtain rfl := Except.ok.inj h
    rw [List.find?_eq_none] at hf ⊢
    exact fun path hm hfile => hf path hm (by simp [decides, hfile])
  | some path =>
    simp only [hf] at h
    split at h
    · contradiction
    · next hr =>
      obtain rfl := Except.ok.inj h
      obtain ⟨hd, before, after, hpaths, hbefore⟩ := List.find?_eq_some_iff_append.1 hf
      refine List.find?_eq_some_iff_append.2 ⟨?_, before, after, hpaths, fun earlier hm => ?_⟩
      · simpa [decides, hr] using hd
      · have hnone := hbefore earlier hm
        simp only [decides, Bool.not_or, Bool.and_eq_true] at hnone
        exact hnone.2

end Tree

end Files

namespace Include.Reference

variable {reference : Reference} {files : Files.Tree} {options : Options}
  {directory : Option Files.Path}

/-- What a search for a header comes to is what the reference leads to. -/
theorem resolve?_of_locate {found : Option Files.Path}
    (h : reference.locate files options directory = .ok found) :
    reference.resolve? files options directory = found := by
  unfold locate at h
  cases hs : files.search (reference.candidates options directory) with
  | error fault =>
    rw [hs] at h
    contradiction
  | ok candidate =>
    rw [hs] at h
    obtain rfl := Except.ok.inj h
    rw [resolve?, Files.Tree.find?_of_search hs]

/-- A search for a header is broken off at a path that the header may have. -/
theorem locate_eq_error_iff {fault : Files.Overlong} :
    reference.locate files options directory = .error fault ↔
      ∃ before after, reference.candidates options directory = before ++ fault.path :: after ∧
        files.refuses fault.path ∧
        ∀ earlier ∈ before, ¬files.refuses earlier ∧ ¬files.isFile earlier := by
  rw [← Files.Tree.search_eq_error_iff]
  unfold locate
  cases files.search (reference.candidates options directory) with
  | error fault =>
    exact ⟨fun h => congrArg _ (Except.error.inj h), fun h => congrArg _ (Except.error.inj h)⟩
  | ok candidate => exact ⟨nofun, nofun⟩

end Include.Reference

end CPreprocessor

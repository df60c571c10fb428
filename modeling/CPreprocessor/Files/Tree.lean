import CPreprocessor.Files.Path

/-!
# File trees

The files that a run can see: a tree of directories and files, and a working directory in it. A path
is walked from component to component, and each but the last has to be a directory.
-/

namespace CPreprocessor.Files

/-- A file with its bytes, or a directory with its entries. -/
inductive Node where
  | file (bytes : List UInt8)
  | directory (entries : List (String × Node))
deriving Inhabited

namespace Node

/-- A directory without entries. -/
def empty : Node := directory []

/-- The entry of a directory. -/
def entry? (node : Node) (name : String) : Option Node :=
  match node with
  | file _ => none
  | directory entries => entries.lookup name

/-- Sets an entry in a list of entries. -/
def setEntry (name : String) (node : Node) : List (String × Node) → List (String × Node)
  | [] => [(name, node)]
  | (other, old) :: rest =>
    if other = name then (name, node) :: rest else (other, old) :: setEntry name node rest

/-- Puts a node into the place of an old one; an empty directory leaves a directory as it is. -/
def replacing (new old : Node) : Node :=
  match new, old with
  | directory [], directory entries => directory entries
  | _, _ => new

/-- Puts a node at the end of a path, and directories along it. -/
def insert (new : Node) : List String → Node → Node
  | [], old => new.replacing old
  | name :: rest, old =>
    let inner := insert new rest ((old.entry? name).getD empty)
    match old with
    | file _ => directory [(name, inner)]
    | directory entries => directory (setEntry name inner entries)

end Node

/-- A tree of files with a working directory in it. -/
structure Tree where
  root : Node
  working : List String

/-- Why a path leads nowhere. -/
inductive WalkFault where
  | missing
  /-- Something on the way is no directory. -/
  | notDirectory
deriving DecidableEq, Repr

namespace Tree

/-- Follows components downwards. The nodes above the current one are `above`, the nearest first. -/
def walkFrom (above : List Node) (node : Node) : List String → Except WalkFault Node
  | [] => .ok node
  | name :: rest =>
    match node with
    | .file _ => .error .notDirectory
    | .directory entries =>
      if name = ".." then
        match above with
        | [] => walkFrom [] node rest
        | parent :: further => walkFrom further parent rest
      else
        match entries.lookup name with
        | none => .error .missing
        | some inner => walkFrom (node :: above) inner rest

/-- What a path names. -/
def walk (tree : Tree) (path : Path) : Except WalkFault Node :=
  let start := match path.anchor with
    | .relative => tree.working
    | _ => []
  walkFrom [] tree.root (start ++ path.components)

/-- Whether a path names a file. -/
def isFile (tree : Tree) (path : Path) : Bool :=
  match tree.walk path with
  | .ok (.file _) => true
  | _ => false

/-- The path from the root that leads to the same place. -/
def resolve (tree : Tree) (path : Path) : Path := path.resolve tree.working

/-- The tree with one more file or directory, at a path seen from the working directory. -/
def insert (tree : Tree) (path : Path) (node : Node) : Tree :=
  { tree with root := node.insert (tree.resolve path).components tree.root }

/-- A tree that holds no more than its working directory. -/
def empty (working : List String) : Tree := ⟨Node.empty.insert working Node.empty, working⟩

end Tree

end CPreprocessor.Files

/-!
# Paths

A path is relative or begins at the root, and names the components to walk through. Repeated
slashes and single dots mean nothing and are dropped; double dots stay, since what they lead to is
for the walk to find out.
-/

namespace CPreprocessor.Files

/-- Where a path begins. Exactly two leading slashes are kept apart from one. -/
inductive Anchor where
  | relative
  | root
  | doubleRoot
deriving DecidableEq, Repr, Inhabited

/-- A path. -/
structure Path where
  anchor : Anchor
  components : List String
deriving DecidableEq, Repr, Inhabited

namespace Path

/-- The pieces between slashes. -/
def splitSlashes : List Char → List (List Char)
  | [] => [[]]
  | c :: rest =>
    if c = '/' then [] :: splitSlashes rest
    else
      match splitSlashes rest with
      | [] => [[c]]
      | piece :: pieces => (c :: piece) :: pieces

/-- Where a written path begins. -/
def anchorOf : List Char → Anchor
  | '/' :: '/' :: '/' :: _ => .root
  | '/' :: '/' :: _ => .doubleRoot
  | '/' :: _ => .root
  | _ => .relative

/-- Whether a piece between slashes names something. -/
def isComponent (piece : String) : Bool := piece ≠ "" && piece ≠ "."

/-- Reads a path. -/
def ofString (text : String) : Path :=
  ⟨anchorOf text.toList, ((splitSlashes text.toList).map String.ofList).filter isComponent⟩

/-- Writes a path; the empty relative one is a dot. -/
def render (path : Path) : String :=
  let joined := String.intercalate "/" path.components
  match path.anchor with
  | .relative => if path.components.isEmpty then "." else joined
  | .root => "/" ++ joined
  | .doubleRoot => "//" ++ joined

/-- A path seen from another one; one that begins at the root stays as it is. -/
def append (base path : Path) : Path :=
  match path.anchor with
  | .relative => ⟨base.anchor, base.components ++ path.components⟩
  | _ => path

instance : Append Path := ⟨append⟩

/-- The path of the directory that holds what a path names. -/
def parent (path : Path) : Path := ⟨path.anchor, path.components.dropLast⟩

/-- Whether a file can have this path. To the system the character NUL ends a name, so it cannot be
part of one. -/
def isNameable (path : Path) : Bool := path.components.all fun name => !name.toList.contains '\x00'

/-- Takes each double dot together with the component before it, `seen` being the components so far
in reverse order. At the root a double dot leads nowhere. -/
def collapse (seen : List String) : List String → List String
  | [] => seen.reverse
  | ".." :: rest => collapse seen.tail rest
  | name :: rest => collapse (name :: seen) rest

/-- The same place as a path from the root without double dots, seen from a working directory. -/
def resolve (working : List String) (path : Path) : Path :=
  let start := match path.anchor with
    | .relative => working
    | _ => []
  ⟨.root, collapse [] (start ++ path.components)⟩

end Path

/-- A path that no file can have, as it holds the character NUL. -/
structure Unnameable where
  path : Path
deriving DecidableEq, Repr

/-- What is wrong with the path. -/
def Unnameable.message (_ : Unnameable) : String := "embedded null byte"

/-- The path itself, if a file can have it. -/
def Path.nameable (path : Path) : Except Unnameable Path :=
  if path.isNameable then .ok path else .error ⟨path⟩

end CPreprocessor.Files

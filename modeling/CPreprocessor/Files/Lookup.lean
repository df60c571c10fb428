import CPreprocessor.Files.Tree
import CPreprocessor.Text.Quoted

/-!
# Looking paths up

The system looks no path up that is too long, and no name that is too long in a directory. A path
that it refuses for that neither names a file nor fails to.
-/

namespace CPreprocessor.Files

/-- The greatest number of bytes in a path. -/
def pathLimit : Nat := 4095

/-- The greatest number of bytes in a name. -/
def nameLimit : Nat := 255

/-- Whether a name is too long for every directory. -/
def isOverlong (name : String) : Bool := nameLimit < name.utf8ByteSize

/-- A path that the system refuses to look up, for its length or that of a name in it. -/
structure Overlong where
  path : Path
deriving DecidableEq, Repr

/-- What is wrong with the path. -/
def Overlong.message (fault : Overlong) : String :=
  "[Errno 36] File name too long: " ++ Text.quoted fault.path.render

namespace Tree

/-- Whether the first name in a path that is too long is to be looked up in a directory. In front of
a name that leads nowhere, or to a file, the walk does not come to it. -/
def meetsOverlong (tree : Tree) (path : Path) : Bool :=
  let front := path.components.takeWhile (!isOverlong ·)
  front.length < path.components.length &&
    match tree.walk { path with components := front } with
    | .ok (.directory _) => true
    | _ => false

/-- Whether the system refuses to look a path up. One that no file can have does not get so far. -/
def refuses (tree : Tree) (path : Path) : Bool :=
  path.isNameable && (pathLimit < path.render.utf8ByteSize || tree.meetsOverlong path)

/-- Whether a path names a file, unless it is refused. -/
def lookUp (tree : Tree) (path : Path) : Except Overlong Bool :=
  if tree.refuses path then .error ⟨path⟩ else .ok (tree.isFile path)

/-- The first of some paths that names a file. The search ends at a path that is refused. -/
def search (tree : Tree) : List Path → Except Overlong (Option Path)
  | [] => .ok none
  | path :: rest =>
    match tree.lookUp path with
    | .error fault => .error fault
    | .ok true => .ok (some path)
    | .ok false => tree.search rest

end Tree

end CPreprocessor.Files

import CPreprocessor.Files.Lookup
import CPreprocessor.Source.Newline
import CPreprocessor.Text.Utf8

/-!
# Reading files

A file is read as UTF-8 with unified line terminators. A byte order mark stays in the text.
-/

namespace CPreprocessor.Files

/-- Why a file cannot be read as text. -/
inductive ReadFault where
  /-- No file can have the name. -/
  | unnameable (fault : Unnameable)
  /-- The path is too long, or a name in it is. -/
  | overlong (fault : Overlong)
  | missing (path : Path)
  | directory (path : Path)
  /-- Something on the way is no directory. -/
  | notDirectory (path : Path)
  /-- The bytes are not UTF-8. -/
  | undecodable (fault : Text.Utf8.Fault)
deriving DecidableEq, Repr

/-- A fault in words. -/
def ReadFault.message : ReadFault → String
  | unnameable fault => fault.message
  | overlong fault => fault.message
  | missing path => "[Errno 2] No such file or directory: " ++ Text.quoted path.render
  | directory path => "[Errno 21] Is a directory: " ++ Text.quoted path.render
  | notDirectory path => "[Errno 20] Not a directory: " ++ Text.quoted path.render
  | undecodable fault => fault.message

/-- The bytes of a file. -/
def Tree.readBytes (tree : Tree) (path : Path) : Except ReadFault (List UInt8) :=
  match path.nameable with
  | .error fault => .error (.unnameable fault)
  | .ok path =>
    if tree.refuses path then .error (.overlong ⟨path⟩)
    else
      match tree.walk path with
      | .ok (.file bytes) => .ok bytes
      | .ok (.directory _) => .error (.directory path)
      | .error .missing => .error (.missing path)
      | .error .notDirectory => .error (.notDirectory path)

/-- The text of a file. -/
def Tree.readText (tree : Tree) (path : Path) : Except ReadFault String :=
  match tree.readBytes path with
  | .error fault => .error fault
  | .ok bytes =>
    match Text.Utf8.decode bytes with
    | .error fault => .error (.undecodable fault)
    | .ok chars => .ok (String.ofList (Source.unifyNewlines chars))

end CPreprocessor.Files

import CPreprocessor.CommandLine.Execute

/-!
# The program

The files that a run may see are loaded beforehand: everything below the working directory, the
directory of the main file and the directories that headers are looked for in. The run itself then
needs no input or output.
-/

namespace CPreprocessor.Program

/-- Loads a file, or a directory with what lies in it down to so many levels. Whatever cannot be
read is left out. -/
def load : (levels : Nat) → String → IO (Option Files.Node)
  | 0, _ => return none
  | levels + 1, name => do
    let path := System.mkFilePath [name]
    try
      if ← path.isDir then
        let mut entries := []
        for entry in ← path.readDir do
          if let some node ← load levels (name ++ "/" ++ entry.fileName) then
            entries := (entry.fileName, node) :: entries
        return some (.directory entries)
      else return some (.file (← IO.FS.readBinFile path).toList)
    catch _ => return none

/-- How many levels of directories are loaded. -/
def levels : Nat := 32

/-- The places to load for a command line. -/
def places (arguments : CommandLine.Arguments) : List Files.Path :=
  let main := Files.Path.ofString (arguments.input.getD "")
  .ofString "." :: main.parent :: arguments.options.quotedSearchPath.map .ofString

/-- Loads the given places into a tree. -/
def loadAll (tree : Files.Tree) : List Files.Path → IO Files.Tree
  | [] => return tree
  | place :: rest => do
    let path := tree.resolve place
    match ← load levels path.render with
    | some node => loadAll (tree.insert path node) rest
    | none => loadAll tree rest

/-- Runs a command line. -/
def run (words : List String) : IO UInt32 := do
  let working := Files.Path.ofString (← IO.currentDir).toString
  let arguments := CommandLine.Arguments.ofWords? words
  let tree ← loadAll (.empty working.components) ((arguments.map places).getD [])
  let input ←
    if (arguments.bind (·.input)) = some "-" then (← IO.getStdin).readToEnd else pure ""
  let effect :=
    match CommandLine.execute tree input words with
    | .ok effect => effect
    | .error fault => { code := 1, errors := [fault.message] }
  (← IO.getStderr).putStr (CommandLine.joinLines effect.errors)
  (← IO.getStdout).putStr (CommandLine.joinLines effect.output)
  return UInt32.ofNat effect.code

end CPreprocessor.Program

/-- Runs the preprocessor with the words of the command line. -/
def main (words : List String) : IO UInt32 := CPreprocessor.Program.run words

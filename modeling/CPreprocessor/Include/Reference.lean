import CPreprocessor.Files.Lookup
import CPreprocessor.Options
import CPreprocessor.Token.Basic

/-!
# References to headers

A header is named in quotes or in angle brackets. In quotes it is looked for in the directory of the
including file first. The first place that holds such a file counts, and the file is identified by
its path from the root. A place that cannot be looked at ends the search.
-/

namespace CPreprocessor.Include

/-- A header as an include directive names it. -/
structure Reference where
  name : String
  angled : Bool
deriving DecidableEq, Repr

namespace Reference

/-- The name in its quotes or brackets. -/
def render (reference : Reference) : String :=
  if reference.angled then "<" ++ reference.name ++ ">" else "\"" ++ reference.name ++ "\""

/-- What stands between the first and the last character. -/
def inner (text : String) : String := String.ofList text.toList.tail.dropLast

/-- The reference that a header name spells. -/
def ofHeaderName (text : String) : Reference := ⟨inner text, text.toList.head? = some '<'⟩

/-- The reference that fully expanded tokens spell. -/
def ofTokens? (tokens : List Token) : Option Reference :=
  match tokens with
  | [] => none
  | first :: rest =>
    if rest.isEmpty then
      if first.kind = .string && first.text.toList.head? = some '"' then
        some ⟨inner first.text, false⟩
      else none
    else if first.isPunctuator "<" && rest.dropLast ≠ []
        && rest.getLast?.any (·.isPunctuator ">") then
      some ⟨Token.render rest.dropLast, true⟩
    else none

/-- The directories that a header is looked for in, in order. -/
def searchRoots (reference : Reference) (options : Options) (directory : Option Files.Path) :
    List Files.Path :=
  if reference.angled then options.angledSearchPath.map .ofString
  else directory.toList ++ options.quotedSearchPath.map .ofString

/-- The paths that a header may have, in order. -/
def candidates (reference : Reference) (options : Options) (directory : Option Files.Path) :
    List Files.Path :=
  (reference.searchRoots options directory).map (· ++ Files.Path.ofString reference.name)

/-- The path from the root of the file that a reference leads to. -/
def resolve? (reference : Reference) (files : Files.Tree) (options : Options)
    (directory : Option Files.Path) : Option Files.Path :=
  ((reference.candidates options directory).find? files.isFile).map files.resolve

/-- Looks for that file, and finds it or none unless the system refuses a path before. -/
def locate (reference : Reference) (files : Files.Tree) (options : Options)
    (directory : Option Files.Path) : Except Files.Overlong (Option Files.Path) :=
  (files.search (reference.candidates options directory)).map (·.map files.resolve)

end Reference

end CPreprocessor.Include

import CPreprocessor.Unicode.Class

/-!
# Words of a command line

A word is an operand, the separator behind which all words are operands, or an option, perhaps with
a value in the same word. Options may be abbreviated as far as no other option begins alike. What is
attached to a flag with one dash is read as further options of one letter.
-/

namespace CPreprocessor.CommandLine

/-- The options. -/
inductive Key where
  | help
  | includeDirectory
  | quoteDirectory
  | systemDirectory
  | define
  | undefine
  | trigraphs
  | warningsAreErrors
  | format
  | dumpTokens
  | dumpTrace
  | dumpMacros
  | dumpPragmas
deriving DecidableEq, Repr

/-- Whether an option takes a value. -/
def Key.takesValue : Key → Bool
  | includeDirectory | quoteDirectory | systemDirectory | define | undefine | format => true
  | _ => false

/-- The spellings of the options. -/
def spellings : List (String × Key) :=
  [("-h", .help), ("--help", .help), ("-I", .includeDirectory), ("-iquote", .quoteDirectory),
   ("-isystem", .systemDirectory), ("-D", .define), ("-U", .undefine),
   ("-trigraphs", .trigraphs), ("-Werror", .warningsAreErrors), ("--diag-format", .format),
   ("--dump-tokens", .dumpTokens), ("--dump-include-trace", .dumpTrace),
   ("--dump-macro-table", .dumpMacros), ("--dump-pragmas", .dumpPragmas)]

/-- A word of a command line. -/
inductive Word where
  | operand (text : String)
  | separator
  /-- An option, the flags spelled before it in the same word, and what is attached to it. -/
  | option (flags : List Key) (key : Key) (attached : Option String)
  /-- A word that looks like an option and names none. -/
  | unknown
deriving DecidableEq, Repr

/-- Whether a text is a negative number, perhaps with a line feed behind it. -/
def isNegativeNumber (text : List Char) : Bool :=
  let digits := fun (chars : List Char) => !chars.isEmpty && chars.all Unicode.isDecimal
  let number := fun (chars : List Char) =>
    digits chars ||
      match chars.dropWhile Unicode.isDecimal with
      | '.' :: fraction => digits fraction
      | _ => false
  match text with
  | '-' :: chars => number chars || (chars.getLast? = some '\n' && number chars.dropLast)
  | _ => false

/-- Cuts a word at its first equals sign. -/
def splitEquals (text : List Char) : List Char × Option (List Char) :=
  match text.dropWhile (· ≠ '=') with
  | [] => (text, none)
  | _ :: value => (text.takeWhile (· ≠ '='), some value)

/-- Whether a text begins with two dashes. -/
def isLong (text : List Char) : Bool := ['-', '-'].isPrefixOf text

/-- Reads the letters attached to an option. Behind a flag, a letter that names an option is one
more option, to which the other letters are attached; an option with a value takes all of them. -/
def readLetters (flags : List Key) (key : Key) : List Char → Word
  | [] => .option flags key none
  | letter :: letters =>
    match if key.takesValue then none else spellings.lookup (String.ofList ['-', letter]) with
    | some next => readLetters (flags ++ [key]) next letters
    | none => .option flags key (some (String.ofList (letter :: letters)))

/-- An option with one dash and what is attached to it, which may be nothing. -/
def attach (key : Key) (attached : List Char) : Word :=
  if attached.isEmpty then .option [] key (some "") else readLetters [] key attached

/-- The options that a word with two leading dashes may abbreviate. -/
def longMatches (text : List Char) : List Word :=
  let (name, value) := splitEquals text
  (spellings.filter fun spelling => name.isPrefixOf spelling.1.toList).map fun spelling =>
    .option [] spelling.2 (value.map String.ofList)

/-- What one option makes of a word with a single leading dash: something is attached to its letter,
or the word abbreviates it. -/
def shortMatch? (text : List Char) (spelling : String × Key) : Option Word :=
  if spelling.1.toList = text.take 2 then some (attach spelling.2 (text.drop 2))
  else if text.isPrefixOf spelling.1.toList then some (.option [] spelling.2 none)
  else none

/-- The options that a word that begins with a dash may stand for without being spelled out. -/
def abbreviated (text : List Char) : List Word :=
  if isLong text then longMatches text else spellings.filterMap (shortMatch? text)

/-- The option spelled out in a word, alone or before an equals sign. -/
def spelledOut? (text : List Char) : Option Word :=
  match spellings.lookup (String.ofList text) with
  | some key => some (.option [] key none)
  | none => do
    let (name, value) := splitEquals text
    let attached ← value
    let key ← spellings.lookup (String.ofList name)
    return if isLong name then .option [] key (some (String.ofList attached))
      else attach key attached

/-- Reads a word that is no separator. There is no reading of an ambiguous option. -/
def Word.ofString? (text : String) : Option Word :=
  let chars := text.toList
  if chars.head? ≠ some '-' ∨ chars = ['-'] then some (.operand text)
  else
    match spelledOut? chars with
    | some word => some word
    | none =>
      match abbreviated chars with
      | [word] => some word
      | [] =>
        if isNegativeNumber chars || chars.contains ' ' then some (.operand text)
        else some .unknown
      | _ => none

/-- Reads the words of a command line. -/
def words? : List String → Option (List Word)
  | [] => some []
  | text :: rest =>
    if text = "--" then some (.separator :: rest.map .operand)
    else do return (← Word.ofString? text) :: (← words? rest)

end CPreprocessor.CommandLine

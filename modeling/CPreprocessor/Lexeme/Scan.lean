import CPreprocessor.Lexeme.Enclosed
import CPreprocessor.Lexeme.Gap
import CPreprocessor.Lexeme.Punctuator
import CPreprocessor.Lexeme.Quoted
import CPreprocessor.Lexeme.Word

/-!
# Dividing a text into lexemes

What is read at a place depends on the place: a directive may begin only at the start of a line, a
header name is read only behind the keyword `include`, and braces are taken whole only behind an asm
keyword. `Context` is the little that has to be known of the text so far.

- `whole_read`: reading one lexeme loses no character.
- `length_read`: it leaves less than there was, which is why `scan` ends.
-/

namespace CPreprocessor.Lexeme

/-- The identifiers behind which braces enclose assembly text. -/
def asmKeywords : List String := ["asm", "__asm", "__asm__"]

/-- The place that the next lexeme is read at. The flag of the first two tells whether the lexeme
before, newlines aside, is an asm keyword. -/
inductive Context where
  | lineStart (afterAsm : Bool)
  | text (afterAsm : Bool)
  | keyword
  | header
  | operands
deriving DecidableEq, Repr

namespace Context

/-- Whether an asm keyword came last. -/
def afterAsm : Context → Bool
  | lineStart afterAsm | text afterAsm => afterAsm
  | _ => false

/-- Whether the line has begun. -/
def midLine : Context → Bool
  | lineStart _ => false
  | _ => true

/-- The place behind a lexeme. -/
def next (context : Context) (kind : Token.Kind) (text : List Char) : Context :=
  match kind with
  | .newline => lineStart context.afterAsm
  | .directiveHash => keyword
  | _ =>
    match context with
    | lineStart _ | Context.text _ =>
      Context.text (kind = .identifier && asmKeywords.contains (String.ofList text))
    | keyword =>
      if kind = .identifier && String.ofList text = "include" then header else operands
    | header | operands => operands

end Context

/-- The outcome of reading one lexeme. -/
inductive Reading where
  | lexeme (kind : Token.Kind) (cut : Cut)
  /-- The part of the lexeme in front of what is left open, and the text from there. -/
  | unclosed (opener : Opener) (before rest : List Char)
deriving DecidableEq, Repr

/-- The mark that begins a directive, at the start of a line. -/
def directiveHash? (context : Context) : List Char → Option Cut
  | '#' :: rest => if context.midLine then none else some ⟨['#'], rest⟩
  | '%' :: ':' :: rest => if context.midLine then none else some ⟨['%', ':'], rest⟩
  | _ => none

/-- Reads a number, an identifier, a punctuator or a stray character. -/
def readPlain (c : Char) (rest : List Char) : Token.Kind × Cut :=
  if startsNumber c rest then (.number, (numberTail false rest).cons c)
  else if Unicode.isWordStart c then (.identifier, (Cut.takeWhile Unicode.isWord rest).cons c)
  else
    match punctuator? (c :: rest) with
    | some cut => (.punctuator, cut)
    | none => (.other, ⟨[c], rest⟩)

/-- Reads a literal, if one begins here, or else a plain lexeme. -/
def readLiteral (c : Char) (rest : List Char) : Reading :=
  match opening? (c :: rest) with
  | some opening =>
    match closeQuote? opening.quote false opening.rest with
    | some cut =>
      .lexeme (if opening.quote = '"' then .string else .character)
        ⟨opening.encoding ++ opening.quote :: cut.text, cut.rest⟩
    | none =>
      .unclosed (if opening.quote = '"' then .string else .character)
        opening.encoding (opening.quote :: opening.rest)
  | none => .lexeme (readPlain c rest).1 (readPlain c rest).2

/-- Reads an asm block, if one may stand here and a brace opens, or else another lexeme. -/
def readText (context : Context) (c : Char) (rest : List Char) : Reading :=
  if context.afterAsm && c = '{' then
    match closeBrace? 0 rest with
    | some cut => .lexeme .asmBlock (cut.cons c)
    | none => .unclosed .asmBlock [] (c :: rest)
  else readLiteral c rest

/-- Reads the lexeme that begins with `c`. -/
def read (directives : Bool) (context : Context) (c : Char) (rest : List Char) : Reading :=
  if c = '\n' then .lexeme .newline ⟨[c], rest⟩
  else
    match if directives then directiveHash? context (c :: rest) else none with
    | some cut => .lexeme .directiveHash cut
    | none =>
      match if context = .header then headerName? (c :: rest) else none with
      | some cut => .lexeme .headerName cut
      | none => readText context c rest

/-! ## Nothing is lost -/

namespace Reading

/-- The text covers exactly `chars`, and a lexeme is not empty. -/
def Covers (chars : List Char) : Reading → Prop
  | lexeme _ cut => cut.whole = chars ∧ cut.text ≠ []
  | unclosed _ before rest => before ++ rest = chars

end Reading

theorem whole_directiveHash? {context : Context} {chars : List Char} {cut : Cut}
    (h : directiveHash? context chars = some cut) : cut.whole = chars ∧ cut.text ≠ [] := by
  unfold directiveHash? at h
  split at h
  · split at h
    · contradiction
    · obtain rfl := Option.some.inj h
      simp [Cut.whole]
  · split at h
    · contradiction
    · obtain rfl := Option.some.inj h
      simp [Cut.whole]
  · contradiction

theorem whole_readPlain (c : Char) (rest : List Char) :
    (readPlain c rest).2.whole = c :: rest ∧ (readPlain c rest).2.text ≠ [] := by
  unfold readPlain
  split
  · simp [whole_numberTail]
  · split
    · simp
    · split
      · next found =>
        obtain ⟨whole, listed⟩ := whole_punctuator? found
        exact ⟨whole, punctuatorTexts_ne_nil _ listed⟩
      · simp [Cut.whole]

theorem covers_readLiteral (c : Char) (rest : List Char) :
    (readLiteral c rest).Covers (c :: rest) := by
  unfold readLiteral
  split
  · next opening found =>
    obtain ⟨split, -⟩ := eq_of_opening? found
    split
    · next cut closed =>
      have inner := whole_closeQuote? closed
      refine ⟨?_, by simp⟩
      rw [split, ← inner]
      simp [Cut.whole]
    · exact split.symm
  · exact whole_readPlain c rest

theorem covers_readText (context : Context) (c : Char) (rest : List Char) :
    (readText context c rest).Covers (c :: rest) := by
  unfold readText
  split
  · split
    · next closed => exact ⟨by rw [Cut.whole_cons, whole_closeBrace? closed], by simp⟩
    · rfl
  · exact covers_readLiteral c rest

/-- Reading a lexeme loses no character. -/
theorem covers_read (directives : Bool) (context : Context) (c : Char) (rest : List Char) :
    (read directives context c rest).Covers (c :: rest) := by
  unfold read
  split
  · exact ⟨rfl, by simp⟩
  · split
    · next found =>
      split at found
      · exact whole_directiveHash? found
      · contradiction
    · split
      · next found =>
        split at found
        · exact whole_headerName? found
        · contradiction
      · exact covers_readText context c rest

theorem length_read {directives : Bool} {context : Context} {c : Char} {rest : List Char}
    {kind : Token.Kind} {cut : Cut} (h : read directives context c rest = .lexeme kind cut) :
    cut.rest.length < (c :: rest).length := by
  have covers := covers_read directives context c rest
  rw [h] at covers
  exact Cut.length_rest_lt covers.1 covers.2

theorem length_skip {chars gap rest : List Char} (h : skip chars = .skipped gap rest) :
    rest.length ≤ chars.length := by
  have whole := whole_skip chars
  rw [h] at whole
  rw [← whole, Gap.whole, List.length_append]
  omega

/-! ## The whole text -/

/-- How a text ends. -/
inductive Ending where
  /-- The blanks and comments behind the last lexeme, and whether the last line has begun. -/
  | complete (gap : List Char) (midLine : Bool)
  /-- The text from the last lexeme to what is left open, and the text from there. -/
  | unclosed (opener : Opener) (before rest : List Char)
deriving DecidableEq, Repr

/-- A text divided into lexemes. -/
structure Division where
  lexemes : List Lexeme
  ending : Ending
deriving DecidableEq, Repr

/-- Puts a lexeme in front. -/
def Division.cons (lexeme : Lexeme) (division : Division) : Division :=
  ⟨lexeme :: division.lexemes, division.ending⟩

/-- Divides a text into lexemes. -/
def divide (directives : Bool) (context : Context) (chars : List Char) : Division :=
  match _ : skip chars with
  | .unclosed before rest => ⟨[], .unclosed .comment before rest⟩
  | .skipped gap [] => ⟨[], .complete gap context.midLine⟩
  | .skipped gap (c :: rest) =>
    match _ : read directives context c rest with
    | .unclosed opener before rest => ⟨[], .unclosed opener (gap ++ before) rest⟩
    | .lexeme kind cut =>
      (divide directives (context.next kind cut.text) cut.rest).cons ⟨gap, kind, cut.text⟩
termination_by chars.length
decreasing_by exact Nat.lt_of_lt_of_le (length_read ‹_›) (length_skip ‹_›)

end CPreprocessor.Lexeme

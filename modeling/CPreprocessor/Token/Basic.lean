import CPreprocessor.Position
import CPreprocessor.Token.HideSet

/-!
# Preprocessing tokens

A token is its class and spelling, with the place it came from, the names it may no longer be
expanded as, and whether blanks or comments stood before it.
-/

namespace CPreprocessor

/-- The classes of preprocessing tokens. -/
inductive Token.Kind where
  | identifier
  | punctuator
  | number
  | character
  | string
  | headerName
  | asmBlock
  | other
  | directiveHash
  | newline
  | endOfFile
deriving DecidableEq, Repr, Inhabited

/-- The word for a class in a token dump. -/
def Token.Kind.label : Token.Kind → String
  | identifier => "IDENT"
  | punctuator => "PUNCTUATOR"
  | number => "PP_NUMBER"
  | character => "CHAR_CONST"
  | string => "STRING_LITERAL"
  | headerName => "HEADER_NAME"
  | asmBlock => "ASM_BLOCK"
  | other => "OTHER"
  | directiveHash => "DIRECTIVE_HASH"
  | newline => "NEWLINE"
  | endOfFile => "EOF"

/-- A preprocessing token. The token that ends a file has an empty spelling. -/
structure Token where
  kind : Token.Kind
  text : String
  position : Position
  hide : HideSet := ∅
  space : Bool := false
deriving DecidableEq, Inhabited

namespace Token

/-- The spelling that a digraph stands for; any other spelling stands for itself. -/
def primarySpelling : String → String
  | "<:" => "["
  | ":>" => "]"
  | "<%" => "\x7b"
  | "%>" => "\x7d"
  | "%:" => "#"
  | "%:%:" => "##"
  | text => text

/-- Whether the token is the punctuator `text`, also as a digraph. -/
def isPunctuator (token : Token) (text : String) : Bool :=
  token.kind = .punctuator && primarySpelling token.text = text

theorem kind_of_isPunctuator {token : Token} {text : String} (h : token.isPunctuator text) :
    token.kind = .punctuator := by
  rw [isPunctuator, Bool.and_eq_true, decide_eq_true_eq] at h
  exact h.1

theorem eq_of_isPunctuator {token : Token} {text other : String} (h : token.isPunctuator text)
    (ho : token.isPunctuator other) : text = other := by
  rw [isPunctuator, Bool.and_eq_true, decide_eq_true_eq, decide_eq_true_eq] at h ho
  exact h.2.symm.trans ho.2

/-- The spellings that stand for other ones. -/
def digraphs : List String := ["<:", ":>", "<%", "%>", "%:", "%:%:"]

theorem primarySpelling_of_not_mem {text : String} (h : text ∉ digraphs) :
    primarySpelling text = text := by
  unfold primarySpelling
  split
  all_goals first | rfl | exact absurd (by decide) h

/-- A punctuator that no digraph stands for is spelled as itself. -/
theorem text_of_isPunctuator {token : Token} {text : String} (h : token.isPunctuator text)
    (hd : ∀ digraph ∈ digraphs, primarySpelling digraph ≠ text) : token.text = text := by
  rw [isPunctuator, Bool.and_eq_true, decide_eq_true_eq, decide_eq_true_eq] at h
  have hm : token.text ∉ digraphs := fun hm => hd _ hm h.2
  rw [← h.2, primarySpelling_of_not_mem hm]

/-- Whether the token is the operator `##`. -/
def isPaste (token : Token) : Bool := token.isPunctuator "##"

theorem text_of_isPaste {token : Token} (h : token.isPaste) :
    token.text = "##" ∨ token.text = "%:%:" := by
  have hall : ∀ digraph ∈ digraphs, primarySpelling digraph = "##" → digraph = "%:%:" := by decide
  rw [isPaste, isPunctuator, Bool.and_eq_true, decide_eq_true_eq, decide_eq_true_eq] at h
  by_cases hm : token.text ∈ digraphs
  · exact .inr (hall _ hm h.2)
  · exact .inl ((primarySpelling_of_not_mem hm).symm.trans h.2)

/-- The token with one more name hidden. -/
def paint (token : Token) (name : String) : Token := { token with hide := token.hide.insert name }

/-- The token that ends a file. -/
def endOfFile (position : Position) (space : Bool := false) : Token :=
  { kind := .endOfFile, text := "", position, space }

/-- The spellings of tokens that follow another one, a blank before each that had one. -/
def renderTail : List Token → String
  | [] => ""
  | token :: rest => (if token.space then " " else "") ++ token.text ++ renderTail rest

/-- The tokens on one line, a single blank where blanks or comments stood between two of them. -/
def render : List Token → String
  | [] => ""
  | token :: rest => token.text ++ renderTail rest

end Token

end CPreprocessor

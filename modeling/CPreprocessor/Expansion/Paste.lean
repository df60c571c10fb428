import CPreprocessor.Token.Lex

/-!
# Pasting

A body with its arguments filled in is a list of pieces. Each paste operator joins the last token
before it with the first one behind it; a placemarker stands in for an empty argument there and
gives way to its partner.
-/

namespace CPreprocessor.Expansion

/-- A piece of a filled in body. -/
inductive Piece where
  | token (token : Token)
  | placemarker
  | paste (operator : Token)
deriving DecidableEq

/-- A piece as an operand; an operator counts as the token it is written as. -/
def Piece.operand : Piece → Option Token
  | token plain => some plain
  | placemarker => none
  | paste operator => some operator

/-- What pasting gives: the issues, and the tokens and placemarkers in reverse order. -/
structure Pasted where
  issues : List Issue
  reversed : List (Option Token)
deriving DecidableEq

/-- The token spelled by two tokens written without a gap, if they spell exactly one. -/
def pasteTokens? (file : String) (left right : Token) : Option Token :=
  match lexFragment file (left.text ++ right.text) with
  | .ok [joined] =>
    some
      { kind := joined.kind
        text := joined.text
        position := left.position
        hide := left.hide ∪ right.hide
        space := left.space }
  | _ => none

/-- Pastes two operands for a call at `site`. Tokens that do not join stay as they are, and one
issue is reported. -/
def pasteOperands (site : Position) : Option Token → Option Token → Pasted
  | none, right => ⟨[], [right]⟩
  | some left, none => ⟨[], [some left]⟩
  | some left, some right =>
    match pasteTokens? site.file left right with
    | some joined => ⟨[], [some joined]⟩
    | none => ⟨[.placed (.pasteInvalid left.text right.text) site], [some right, some left]⟩

/-- Carries out the paste operators from left to right, `before` being what has been produced so
far, in reverse order. An operator with nothing on one side is an ordinary token. -/
def pasteFrom (site : Position) : (before : List (Option Token)) → List Piece → Pasted
  | before, [] => ⟨[], before⟩
  | left :: before, .paste _ :: right :: rest =>
    let joined := pasteOperands site left right.operand
    let more := pasteFrom site (joined.reversed ++ before) rest
    ⟨joined.issues ++ more.issues, more.reversed⟩
  | before, piece :: rest => pasteFrom site (piece.operand :: before) rest

/-- Carries out the paste operators and drops placemarkers. -/
def paste (site : Position) (pieces : List Piece) : List Issue × List Token :=
  let pasted := pasteFrom site [] pieces
  (pasted.issues, pasted.reversed.reverse.filterMap id)

end CPreprocessor.Expansion

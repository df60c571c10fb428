import CPreprocessor.Expansion.Paste
import CPreprocessor.Expansion.Template
import CPreprocessor.Literal.Quote

/-!
# Substitution

A call is replaced by the body of its macro with the arguments filled in and pasted. All tokens of
the replacement stand at the call and hide the macro's name and the names that are hidden both at
the call's name and at its end.

- `mem_hide_of_mem_replacement`: every token of a replacement hides these names.
-/

namespace CPreprocessor.Expansion

open Macro

/-- A call of a macro: its name at `site`, its last token (the name itself, or the closing
parenthesis), and what the parameters are bound to. -/
structure Invocation where
  definition : Definition
  site : Token
  last : Token
  bindings : Bindings
deriving DecidableEq

/-- The first token takes the blank of the parameter it stands for. -/
def spaceFirst (space : Bool) : List Token → List Token
  | [] => []
  | first :: rest => { first with space } :: rest

/-- The text of an argument token inside a string literal. -/
def literalText (token : Token) : List Char :=
  if token.kind = .string ∨ token.kind = .character then Literal.escape token.text.toList
  else token.text.toList

/-- The text of argument tokens that follow another one. -/
def literalTail : List Token → List Char
  | [] => []
  | token :: rest => (if token.space then [' '] else []) ++ literalText token ++ literalTail rest

/-- An argument as the contents of a string literal. -/
def argumentText : List Token → List Char
  | [] => []
  | first :: rest => literalText first ++ literalTail rest

/-- The literal for an argument behind the stringizing operator. -/
def stringize (operator : Token) (argument : List Token) : Token :=
  { kind := .string
    text := String.ofList ('"' :: (argumentText argument ++ ['"']))
    position := operator.position
    space := operator.space }

namespace Invocation

/-- The names that every token of the replacement hides. -/
def hide (call : Invocation) : HideSet :=
  (call.site.hide ∩ call.last.hide).insert call.definition.name

/-- The arguments that have to be expanded, with their names, in the order of their first use. -/
def wanted (call : Invocation) : Bindings :=
  (expandedNames call.definition).map fun name => (name, call.bindings.get name)

/-- The pieces that a part of the body gives, `expanded` holding the expanded arguments. -/
def fill (call : Invocation) (expanded : Bindings) : Part → List Piece
  | .token token => [.token token]
  | .paste operator => [.paste operator]
  | .written name space =>
    match call.bindings.get name with
    | [] => [.placemarker]
    | argument => (spaceFirst space argument).map .token
  | .expanded name space => (spaceFirst space (expanded.get name)).map .token
  | .text name operator => [.token (stringize operator (call.bindings.get name))]

/-- A token of the replacement. -/
def settle (call : Invocation) (token : Token) : Token :=
  { token with position := call.site.position, hide := token.hide ∪ call.hide }

/-- The issues of pasting, and the tokens that replace the call. -/
def replacement (call : Invocation) (expanded : Bindings) : List Issue × List Token :=
  let pasted := paste call.site.position ((parts call.definition).flatMap (call.fill expanded))
  (pasted.1, spaceFirst call.site.space (pasted.2.map call.settle))

theorem mem_hide {call : Invocation} {name : String} :
    name ∈ call.hide ↔
      name = call.definition.name ∨ name ∈ call.site.hide ∧ name ∈ call.last.hide := by
  rw [hide, HideSet.mem_insert, HideSet.mem_inter]

theorem mem_hide_of_mem_replacement {call : Invocation} {expanded : Bindings} {token : Token}
    {name : String} (produced : token ∈ (call.replacement expanded).2) (hidden : name ∈ call.hide) :
    name ∈ token.hide := by
  have settled : ∀ other ∈ (paste call.site.position
      ((parts call.definition).flatMap (call.fill expanded))).2.map call.settle,
      name ∈ other.hide := by
    intro other member
    obtain ⟨produced, -, rfl⟩ := List.mem_map.1 member
    exact HideSet.mem_union.2 (.inr hidden)
  simp only [replacement] at produced
  generalize (paste call.site.position _).2.map call.settle = tokens at produced settled
  cases tokens with
  | nil => contradiction
  | cons first rest =>
    rcases List.mem_cons.1 produced with rfl | later
    · exact settled first List.mem_cons_self
    · exact settled token (List.mem_cons_of_mem _ later)

end Invocation

end CPreprocessor.Expansion

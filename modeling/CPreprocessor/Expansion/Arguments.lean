import CPreprocessor.Fault
import CPreprocessor.Macro.Definition

/-!
# Arguments

The tokens between the parentheses of a call, divided at the commas that stand in no inner
parentheses, and what they are bound to.

- `collect_split`: the tokens read and the tokens left make up the input, and the arguments joined
  by commas are the tokens read.
-/

namespace CPreprocessor.Expansion

open Macro

/-- The outcome of reading arguments up to the closing parenthesis. -/
inductive Collected where
  /-- The first argument and the others, the closing parenthesis, and the tokens behind it. -/
  | closed (first : List Token) (others : List (List Token)) (closing : Token) (rest : List Token)
  /-- The file ends before the parentheses close. -/
  | ended
  /-- The tokens run out before the parentheses close. -/
  | exhausted
deriving DecidableEq

namespace Collected

/-- Puts a token in front of the first argument. -/
def add (token : Token) : Collected → Collected
  | closed first others closing rest => closed (token :: first) others closing rest
  | ended => ended
  | exhausted => exhausted

/-- Puts an empty argument in front of the others. -/
def separate : Collected → Collected
  | closed first others closing rest => closed [] (first :: others) closing rest
  | ended => ended
  | exhausted => exhausted

end Collected

/-- Reads the arguments behind an opening parenthesis, `depth` further ones being open. -/
def collect : (depth : Nat) → List Token → Collected
  | _, [] => .exhausted
  | depth, token :: rest =>
    if token.kind = .endOfFile then .ended
    else if token.isPunctuator "(" then (collect (depth + 1) rest).add token
    else if token.isPunctuator ")" then
      match depth with
      | 0 => .closed [] [] token rest
      | depth + 1 => (collect depth rest).add token
    else if token.isPunctuator "," && depth = 0 then (collect depth rest).separate
    else (collect depth rest).add token

/-- The comma between two joined arguments. -/
def comma (position : Position) : Token := { kind := .punctuator, text := ",", position }

/-- Arguments as one list, with commas between them. -/
def joinArguments (position : Position) : List (List Token) → List Token
  | [] => []
  | [last] => last
  | argument :: next :: more => argument ++ comma position :: joinArguments position (next :: more)

/-- Names and the tokens they stand for. -/
abbrev Bindings := List (String × List Token)

namespace Bindings

/-- The tokens that a name stands for. -/
def get (bindings : Bindings) (name : String) : List Token := (bindings.lookup name).getD []

end Bindings

/-- The arguments that a call gives. Empty parentheses give none to a macro that names no
parameters. -/
def givenArguments (parameters : Parameters) (arguments : List (List Token)) :
    List (List Token) :=
  if parameters.names.isEmpty && arguments = [[]] then [] else arguments

/-- Binds the arguments of a call to parameters. -/
def bindArguments (name : String) (parameters : Parameters) (position : Position)
    (arguments : List (List Token)) : Except Fault Bindings :=
  let given := givenArguments parameters arguments
  let expected := parameters.names.length
  let fault := Fault.argumentCount name parameters.variadic expected given.length
  let named := parameters.names.zip given
  if parameters.variadic then
    if given.length < expected then .error fault
    else .ok (named ++ [(variadicName, joinArguments position (given.drop expected))])
  else if given.length ≠ expected then .error fault
  else .ok named

/-! ## What arguments are made of -/

/-- A token that restrains expansion: a name, or a parenthesis that can close a call. -/
def isGuard (token : Token) : Bool := token.kind = .identifier || token.isPunctuator ")"

/-- The first list comes from the second one by leaving out tokens and replacing some by tokens
that restrain expansion no less. -/
inductive Thins : List Token → List Token → Prop where
  | nil (tokens : List Token) : Thins [] tokens
  | skip {few many : List Token} (token : Token) : Thins few many → Thins few (token :: many)
  | keep {few many : List Token} (left right : Token) :
      (isGuard left → isGuard right ∧ ∀ name, name ∈ right.hide → name ∈ left.hide) →
      Thins few many → Thins (left :: few) (right :: many)

namespace Thins

theorem cons_self {few many : List Token} (token : Token) (h : Thins few many) :
    Thins (token :: few) (token :: many) :=
  keep token token (fun guard => ⟨guard, fun _ member => member⟩) h

theorem of_sublist {less few many : List Token} (sub : List.Sublist less few)
    (h : Thins few many) : Thins less many := by
  induction h generalizing less with
  | nil =>
    rw [List.sublist_nil.1 sub]
    exact nil _
  | skip token _ ih => exact (ih sub).skip token
  | keep left right guarded _ ih =>
    cases sub with
    | cons _ inner => exact (ih inner).skip right
    | cons_cons _ inner => exact keep left right guarded (ih inner)

theorem append_right {few many : List Token} (behind : List Token) (h : Thins few many) :
    Thins few (many ++ behind) := by
  induction h with
  | nil => exact nil _
  | skip token _ ih => exact ih.skip token
  | keep left right guarded _ ih => exact keep left right guarded ih

end Thins

theorem joinArguments_cons_cons (position : Position) (token : Token) (first : List Token)
    (others : List (List Token)) :
    joinArguments position ((token :: first) :: others) =
      token :: joinArguments position (first :: others) := by
  cases others <;> rfl

theorem sublist_joinArguments (position : Position) {argument : List Token}
    {arguments : List (List Token)} (member : argument ∈ arguments) :
    List.Sublist argument (joinArguments position arguments) := by
  induction arguments with
  | nil => contradiction
  | cons first others ih =>
    cases others with
    | nil =>
      rw [List.mem_singleton.1 member]
      exact List.Sublist.refl _
    | cons next more =>
      rcases List.mem_cons.1 member with rfl | later
      · exact List.sublist_append_left _ _
      · exact (ih later).trans ((List.sublist_cons_self _ _).trans (List.sublist_append_right _ _))

theorem joinArguments_drop_sublist (position : Position) (count : Nat)
    (arguments : List (List Token)) :
    List.Sublist (joinArguments position (arguments.drop count))
      (joinArguments position arguments) := by
  induction count generalizing arguments with
  | zero => exact List.Sublist.refl _
  | succ count ih =>
    cases arguments with
    | nil => exact List.Sublist.refl _
    | cons first others =>
      refine (ih others).trans ?_
      cases others with
      | nil => exact List.nil_sublist _
      | cons next more =>
        exact (List.sublist_cons_self _ _).trans (List.sublist_append_right _ _)

/-- What `collect` has read when it succeeds. -/
theorem collect_split (position : Position) {depth : Nat} {tokens first rest : List Token}
    {others : List (List Token)} {closing : Token}
    (h : collect depth tokens = .closed first others closing rest) :
    ∃ read, tokens = read ++ closing :: rest ∧ closing.isPunctuator ")" ∧
      Thins (joinArguments position (first :: others)) read := by
  induction tokens generalizing depth first others with
  | nil => simp [collect] at h
  | cons token tail ih =>
    have added : ∀ depth, (collect depth tail).add token = .closed first others closing rest →
        ∃ read, token :: tail = read ++ closing :: rest ∧ closing.isPunctuator ")" ∧
          Thins (joinArguments position (first :: others)) read := by
      intro depth found
      match inner : collect depth tail with
      | .ended | .exhausted => simp [inner, Collected.add] at found
      | .closed first' others' closing' rest' =>
        simp only [inner, Collected.add, Collected.closed.injEq] at found
        obtain ⟨rfl, rfl, rfl, rfl⟩ := found
        obtain ⟨read, rfl, isClosing, thin⟩ := ih inner
        refine ⟨token :: read, rfl, isClosing, ?_⟩
        rw [joinArguments_cons_cons]
        exact thin.cons_self token
    unfold collect at h
    split at h
    · contradiction
    · split at h
      · exact added _ h
      · split at h
        · next isClosing =>
          split at h
          · obtain ⟨rfl, rfl, rfl, rfl⟩ := Collected.closed.inj h
            exact ⟨[], rfl, isClosing, .nil _⟩
          · exact added _ h
        · split at h
          · match inner : collect depth tail with
            | .ended | .exhausted => simp [inner, Collected.separate] at h
            | .closed first' others' closing' rest' =>
              simp only [inner, Collected.separate, Collected.closed.injEq] at h
              obtain ⟨rfl, rfl, rfl, rfl⟩ := h
              obtain ⟨read, rfl, isClosing, thin⟩ := ih inner
              refine ⟨token :: read, rfl, isClosing, ?_⟩
              refine .keep (comma position) token (fun guard => ?_) thin
              simp [isGuard, comma, Token.isPunctuator, Token.primarySpelling] at guard
          · exact added _ h

/-- Whatever a name is bound to, its tokens come from those read for the arguments. -/
theorem thins_bindArguments {name : String} {parameters : Parameters} {position : Position}
    {arguments : List (List Token)} {bindings : Bindings} {read : List Token}
    (h : bindArguments name parameters position arguments = .ok bindings)
    (thin : Thins (joinArguments position arguments) read) (key : String) :
    Thins (bindings.get key) read := by
  have bound : ∀ pair ∈ bindings, Thins pair.2 read := by
    intro pair member
    have reduced : Thins (joinArguments position (givenArguments parameters arguments)) read := by
      unfold givenArguments
      split
      · exact .nil _
      · exact thin
    have fromNamed : ∀ given : List (List Token), Thins (joinArguments position given) read →
        pair ∈ parameters.names.zip given → Thins pair.2 read := by
      intro given thin inside
      exact thin.of_sublist (sublist_joinArguments position (List.of_mem_zip inside).2)
    simp only [bindArguments] at h
    generalize givenArguments parameters arguments = given at h reduced
    split at h
    · split at h
      · contradiction
      · obtain rfl := Except.ok.inj h
        rcases List.mem_append.1 member with inside | last
        · exact fromNamed _ reduced inside
        · rw [List.mem_singleton.1 last]
          exact reduced.of_sublist (joinArguments_drop_sublist position _ _)
    · split at h
      · contradiction
      · obtain rfl := Except.ok.inj h
        exact fromNamed _ reduced member
  unfold Bindings.get
  cases found : bindings.lookup key with
  | none => exact .nil _
  | some value =>
    obtain ⟨before, behind, rfl, -⟩ := List.lookup_eq_some_iff.1 found
    exact bound (key, value) (by simp)

end CPreprocessor.Expansion

import CPreprocessor.Proofs.Directive
import CPreprocessor.Proofs.Unplaced.Expansion

/-!
# Directives without places

What a directive does to the macros and which file it includes do not depend on where its line
stands, nor on where the macros were defined.

* `Session.unplaced`: a session with the places forgotten, and with them the trace and the pragmas,
  which hold nothing else that is read again.
* `merge_unplaced`, `parse_unplaced`, `define_unplaced`: string literals and definitions.
* `execute_unplaced`: a directive does the same without the places.
-/

namespace CPreprocessor

open Expansion Include

/-! ## String literals -/

namespace Literal

theorem join?_unplaced (left right : Token) :
    join? left.unplaced right.unplaced = (join? left right).map Token.unplaced := by
  unfold join?
  simp only [Token.text_unplaced]
  cases split? left.text.toList with
  | none => rfl
  | some first =>
    cases split? right.text.toList with
    | none => rfl
    | some second =>
      show (first.append? second).bind _ = ((first.append? second).bind _).map _
      cases first.append? second <;> rfl

theorem absorb_unplaced (held : Option Token) (token : Token) :
    absorb (held.map Token.unplaced) token.unplaced =
      ((absorb held token).1.map Token.unplaced, (absorb held token).2.map Token.unplaced) := by
  unfold absorb
  by_cases hk : token.kind = .string
  · have hu : token.unplaced.kind = .string := hk
    rw [if_pos hk, if_pos hu]
    cases held with
    | none => rfl
    | some left =>
      rw [Option.map_some]
      dsimp only
      rw [join?_unplaced]
      cases join? left token <;> rfl
  · have hu : ¬token.unplaced.kind = .string := hk
    rw [if_neg hk, if_neg hu]
    cases held <;> rfl

theorem mergeFrom_unplaced (held : Option Token) (tokens : List Token) :
    mergeFrom (held.map Token.unplaced) (tokens.map Token.unplaced) =
      (mergeFrom held tokens).map Token.unplaced := by
  induction tokens generalizing held with
  | nil => cases held <;> rfl
  | cons token rest ih =>
    rw [List.map_cons, mergeFrom, mergeFrom, absorb_unplaced, List.map_append, ← ih]

theorem merge_unplaced (tokens : List Token) :
    merge (tokens.map Token.unplaced) = (merge tokens).map Token.unplaced :=
  mergeFrom_unplaced none tokens

end Literal

/-! ## Definitions -/

/-- Two outcomes that differ by a function where there are any, and by nothing but the errors where
there are none. -/
theorem cases_of_toOption {α β ε : Type} {f : α → β} {left : Except ε α} {right : Except ε β}
    (h : right.toOption = left.toOption.map f) :
    (∃ e e', left = .error e ∧ right = .error e') ∨ ∃ a, left = .ok a ∧ right = .ok (f a) := by
  cases left with
  | error e =>
    cases right with
    | error e' => exact .inl ⟨e, e', rfl, rfl⟩
    | ok b => contradiction
  | ok a =>
    cases right with
    | error e' => contradiction
    | ok b => exact .inr ⟨a, rfl, congrArg Except.ok (Option.some.inj h)⟩

namespace Macro

theorem parseParameters_unplaced (nameAt other : Position) (seen : List String)
    (tokens : List Token) :
    (parseParameters other seen (tokens.map Token.unplaced)).toOption =
      (parseParameters nameAt seen tokens).toOption.map fun parsed =>
        (parsed.1, parsed.2.map Token.unplaced) := by
  fun_induction parseParameters nameAt seen tokens with
  | case5 | case6 =>
    rw [List.map_cons]
    unfold parseParameters
    simp_all [Except.toOption]
  | _ => simp_all [parseParameters, Except.toOption]

theorem parseTail_unplaced (nameAt other : Position) (tokens : List Token) :
    (parseTail other (tokens.map Token.unplaced)).toOption =
      (parseTail nameAt tokens).toOption.map fun parsed =>
        (parsed.1, parsed.2.map Token.unplaced) := by
  have hlist (rest : List Token) :
      (parseParameterList other (rest.map Token.unplaced)).toOption =
        (parseParameterList nameAt rest).toOption.map fun parsed =>
          (parsed.1, parsed.2.map Token.unplaced) := by
    cases rest with
    | nil => rfl
    | cons token rest =>
      rw [List.map_cons, parseParameterList, parseParameterList, Token.isPunctuator_unplaced]
      split
      · rfl
      · exact parseParameters_unplaced nameAt other [] (token :: rest)
  cases tokens with
  | nil => rfl
  | cons token rest =>
    rw [List.map_cons, parseTail, parseTail, Token.isPunctuator_unplaced, Token.space_unplaced]
    split
    · obtain ⟨e, e', hr, hu⟩ | ⟨parsed, hr, hu⟩ := cases_of_toOption (hlist rest)
      · rw [hr, hu]
        rfl
      · rw [hr, hu]
        rfl
    · rfl

theorem bodyIssue?_unplaced (parameters : Option Parameters) (body : List Token) :
    bodyIssue? parameters (body.map Token.unplaced) =
      (bodyIssue? parameters body).map Issue.unplaced := by
  have hfault (token : Token) (behind : List Token) :
      tokenFault? parameters token.unplaced (behind.map Token.unplaced) =
        tokenFault? parameters token behind := by
    unfold tokenFault?
    cases behind <;> rfl
  have htokens (tokens : List Token) : tokensIssue? parameters (tokens.map Token.unplaced) =
      (tokensIssue? parameters tokens).map Issue.unplaced := by
    induction tokens with
    | nil => rfl
    | cons token rest ih =>
      rw [List.map_cons, tokensIssue?, tokensIssue?, hfault]
      cases tokenFault? parameters token rest with
      | none => exact ih
      | some fault => rfl
  cases body with
  | nil => rfl
  | cons first rest =>
    have hlast : (first.unplaced :: rest.map Token.unplaced).getLast?.any Token.isPaste =
        (first :: rest).getLast?.any Token.isPaste := by
      rw [← List.map_cons, List.getLast?_map]
      cases (first :: rest).getLast? <;> rfl
    rw [List.map_cons, bodyIssue?, bodyIssue?, hlast, Token.isPaste_unplaced]
    split
    · rfl
    · exact htokens (first :: rest)

theorem trimStart_unplaced (tokens : List Token) :
    trimStart (tokens.map Token.unplaced) = (trimStart tokens).map Token.unplaced := by
  cases tokens <;> rfl

/-- A definition without its places is read from the tokens without theirs. -/
theorem parse_unplaced (site other : Position) (tokens : List Token) :
    (Definition.parse other (tokens.map Token.unplaced)).toOption =
      (Definition.parse site tokens).toOption.map Definition.unplaced := by
  cases tokens with
  | nil => rfl
  | cons name tail =>
    rw [List.map_cons, Definition.parse, Definition.parse, Token.kind_unplaced,
      Token.text_unplaced]
    split
    · rfl
    split
    · rfl
    rw [Token.position_unplaced]
    obtain ⟨e, e', hr, hu⟩ | ⟨parsed, hr, hu⟩ :=
      cases_of_toOption (parseTail_unplaced name.position nowhere tail)
    · rw [hr, hu]
      rfl
    · rw [hr, hu]
      simp only [bind, Except.bind, trimStart_unplaced, bodyIssue?_unplaced]
      cases bodyIssue? parsed.1 (trimStart parsed.2) <;> rfl

namespace Table

theorem place_unplaced (definition : Definition) (entries : List Definition) :
    place definition.unplaced (entries.map Definition.unplaced) =
      (place definition entries).map Definition.unplaced := by
  induction entries with
  | nil => rfl
  | cons head tail ih =>
    rw [List.map_cons, place, place, Definition.name_unplaced, Definition.name_unplaced, ih]
    split <;> rfl

theorem install_unplaced (table : Table) (definition : Definition) :
    table.unplaced.install definition.unplaced = (table.install definition).unplaced :=
  congrArg Table.mk (place_unplaced definition table.entries)

theorem erase_unplaced (table : Table) (name : String) :
    table.unplaced.erase name = (table.erase name).unplaced := by
  rw [erase, unplaced, List.filter_map]
  rfl

theorem define_unplaced (table : Table) (definition : Definition) :
    (table.unplaced.define definition.unplaced).toOption =
      (table.define definition).toOption.map Table.unplaced := by
  unfold define
  rw [find?_unplaced, Definition.name_unplaced]
  cases table.find? definition.name with
  | none => exact congrArg some (install_unplaced table definition)
  | some existing =>
    rw [Option.map_some]
    dsimp only
    rw [Definition.isEquivalent_unplaced]
    split <;> rfl

end Table

end Macro

/-! ## Sessions -/

namespace Include

/-- The frame with the place forgotten that reading has come to. -/
def Frame.unplaced (frame : Frame) : Frame := { frame with position := nowhere }

/-- The stack with the places forgotten. -/
def Stack.unplaced (stack : Stack) : Stack :=
  { stack with frames := stack.frames.map Frame.unplaced }

namespace Stack

variable (stack : Stack)

theorem top?_unplaced : stack.unplaced.top? = stack.top?.map Frame.unplaced :=
  List.head?_map

theorem obstacle?_unplaced (identity : String) :
    stack.unplaced.obstacle? identity = stack.obstacle? identity := by
  have hc : stack.unplaced.contains identity = stack.contains identity := List.any_map
  unfold obstacle?
  rw [hc, depth, depth, unplaced, List.length_map]

theorem unplaced_moveTo (position : Position) :
    (stack.moveTo position).unplaced = stack.unplaced := by
  obtain ⟨limit, frames⟩ := stack
  cases frames <;> rfl

@[simp] theorem unplaced_unplaced : stack.unplaced.unplaced = stack.unplaced := by
  simp [unplaced, Frame.unplaced]

theorem unplaced_pop : stack.pop.unplaced = stack.unplaced.pop :=
  congrArg (Stack.mk stack.limit) List.map_tail

end Stack

/-- The header that tokens name depends on their classes and spellings only. -/
theorem Reference.ofTokens?_congr {tokens others : List Token}
    (h : tokens.map Macro.Definition.tokenSpelling = others.map Macro.Definition.tokenSpelling) :
    ofTokens? tokens = ofTokens? others := by
  cases tokens with
  | nil =>
    obtain rfl := List.map_eq_nil_iff.1 h.symm
    rfl
  | cons first rest =>
    obtain ⟨other, more, rfl, hfirst, hrest⟩ := List.map_eq_cons_iff.1 h.symm
    obtain ⟨hkind, hpair⟩ := Prod.mk.inj hfirst
    obtain ⟨htext, -⟩ := Prod.mk.inj hpair
    have hempty : more.isEmpty = rest.isEmpty := by simpa using congrArg List.isEmpty hrest
    have hdrop : more.dropLast.map Macro.Definition.tokenSpelling =
        rest.dropLast.map Macro.Definition.tokenSpelling := by
      rw [List.map_dropLast, List.map_dropLast, hrest]
    have hnone : more.dropLast = [] ↔ rest.dropLast = [] := by
      rw [← List.map_eq_nil_iff, hdrop, List.map_eq_nil_iff]
    have hany (tokens : List Token) : tokens.getLast?.any (·.isPunctuator ">") =
        (tokens.map Macro.Definition.tokenSpelling).getLast?.any fun spelling =>
          spelling.1 = .punctuator && Token.primarySpelling spelling.2.1 = ">" := by
      rw [List.getLast?_map, Option.any_map]
      rfl
    have hopens : other.isPunctuator "<" = first.isPunctuator "<" := by
      rw [Token.isPunctuator, Token.isPunctuator, hkind, htext]
    simp only [ofTokens?, hempty, hkind, htext, hany, hrest, hopens, ne_eq, hnone,
      Token.render_congr hdrop]

theorem Reference.ofTokens?_unplaced (tokens : List Token) :
    ofTokens? (tokens.map Token.unplaced) = ofTokens? tokens :=
  ofTokens?_congr (Macro.Definition.tokenSpelling_unplaced tokens)

end Include

/-- The session with all places forgotten. The trace and the pragmas go with them, since nothing
else in them is read again. -/
def Session.unplaced (session : Session) : Session :=
  { macros := session.macros.unplaced, stack := session.stack.unplaced, once := session.once }

namespace Session

@[simp] theorem unplaced_unplaced (session : Session) :
    session.unplaced.unplaced = session.unplaced := by
  simp [unplaced]

theorem unplaced_moveTo (session : Session) (position : Position) :
    (session.moveTo position).unplaced = session.unplaced := by
  simp only [unplaced, moveTo, Stack.unplaced_moveTo]

theorem unplaced_enter (session : Session) (frame : Frame) :
    (session.enter frame).unplaced = session.unplaced.enter frame.unplaced := rfl

theorem unplaced_leave (session : Session) : session.leave.unplaced = session.unplaced.leave := by
  simp only [unplaced, leave, Stack.unplaced_pop]

end Session

/-! ## Directives -/

/-- The path that reading is broken off at. -/
def Interruption.overlong? : Interruption → Option Files.Overlong
  | issue _ => none
  | overlong fault => some fault

/-- What a directive does, with the places forgotten, and with them the issues. -/
def Outcome.unplaced (outcome : Outcome) :
    Session × Except (Option Files.Overlong) (Option Included) :=
  (outcome.session.unplaced, outcome.result.mapError Interruption.overlong?)

@[simp] theorem Outcome.unplaced_raising (outcome : Outcome) (raised : List Issue) :
    { outcome with raised }.unplaced = outcome.unplaced := rfl

@[simp] theorem Outcome.unplaced_failed (session : Session) (fault : Fault) (position : Position) :
    (failed session fault position).unplaced = (session.unplaced, .error none) := rfl

@[simp] theorem Outcome.unplaced_changed (session : Session) :
    (changed session).unplaced = (session.unplaced, .ok none) := rfl

namespace Directive

/-- No token is replaced by its place in the operand of an include. -/
def PlacelessOperand (table : Macro.Table) (operands : List Token) : Prop :=
  isHeaderName operands ∨ Placeless table false operands

theorem reference?_of_not_isHeaderName {table : Macro.Table} {operands : List Token}
    (h : ¬isHeaderName operands) : (reference? table operands).2 =
      Reference.ofTokens? (Literal.merge (drain table false operands).tokens) := by
  unfold reference?
  match operands with
  | [] => rfl
  | [name] =>
    have hk : name.kind ≠ .headerName := by simpa [isHeaderName] using h
    dsimp only
    rw [if_neg hk]
    rfl
  | _ :: _ :: _ => rfl

theorem reference?_unplaced {table : Macro.Table} {operands : List Token}
    (h : PlacelessOperand table operands) :
    (reference? table.unplaced (operands.map Token.unplaced)).2 =
      (reference? table operands).2 := by
  have hu : isHeaderName (operands.map Token.unplaced) = isHeaderName operands := by
    match operands with
    | [] | [_] | _ :: _ :: _ => rfl
  by_cases hh : isHeaderName operands
  · match operands with
    | [name] =>
      have hk : name.kind = .headerName := by simpa [isHeaderName] using hh
      have hku : name.unplaced.kind = .headerName := hk
      simp only [List.map_cons, List.map_nil, reference?, if_pos hk, if_pos hku]
      rfl
    | [] | _ :: _ :: _ => contradiction
  · rw [reference?_of_not_isHeaderName hh, reference?_of_not_isHeaderName (by rwa [hu]),
      drain_unplaced (h.resolve_left hh), Progress.tokens_unplaced, Literal.merge_unplaced,
      Reference.ofTokens?_unplaced]

variable {files : Files.Tree} {options : Options} {session : Session} {frame : Frame}
  {hash keyword : Token} {operands : List Token}

theorem define_unplaced (keyword : Token) (operands : List Token) :
    (define session.unplaced keyword.unplaced (operands.map Token.unplaced)).unplaced =
      (define session keyword operands).unplaced := by
  unfold define
  rw [Token.position_unplaced]
  obtain ⟨e, e', hr, hu⟩ | ⟨definition, hr, hu⟩ :=
    cases_of_toOption (Macro.parse_unplaced keyword.position nowhere operands)
  · rw [hr, hu]
    simp [bind, Except.bind, Outcome.unplaced, Except.mapError, Interruption.overlong?]
  · rw [hr, hu]
    have hd := Macro.Table.define_unplaced session.macros definition
    obtain ⟨e, e', hr, hu⟩ | ⟨macros, hr, hu⟩ := cases_of_toOption hd
    · simp only [bind, Except.bind, Session.unplaced] at hu ⊢
      rw [hr, hu]
      simp [Outcome.unplaced, Session.unplaced, Except.mapError, Interruption.overlong?]
    · simp only [bind, Except.bind, Session.unplaced] at hu ⊢
      rw [hr, hu]
      simp [Session.unplaced]

theorem undefine_unplaced (keyword : Token) (operands : List Token) :
    (undefine session.unplaced keyword.unplaced (operands.map Token.unplaced)).unplaced =
      (undefine session keyword operands).unplaced := by
  cases operands with
  | nil => simp [undefine]
  | cons name rest =>
    unfold undefine
    rw [List.map_cons]
    dsimp only
    rw [Token.kind_unplaced]
    split
    · simp [Session.unplaced, Macro.Table.erase_unplaced]
    · simp

theorem pragma_unplaced (hash : Token) (operands : List Token) :
    (pragma session.unplaced frame.unplaced hash.unplaced
        (operands.map Token.unplaced)).unplaced =
      (pragma session frame hash operands).unplaced := by
  have ho : isOnce (operands.map Token.unplaced) = isOnce operands := by
    match operands with
    | [] | [_] | _ :: _ :: _ => rfl
  unfold pragma
  rw [ho]
  split <;> simp [Session.unplaced, Frame.unplaced]

theorem openFile_unplaced (keyword : Token) (reference : Reference) (path : Files.Path) :
    (openFile files session.unplaced frame.unplaced keyword.unplaced reference path).unplaced =
      (openFile files session frame keyword reference path).unplaced := by
  have ho := Stack.obstacle?_unplaced session.stack path.render
  unfold openFile
  by_cases hm : path.render ∈ session.once
  · have hu : path.render ∈ session.unplaced.once := hm
    rw [if_pos hm, if_pos hu]
    simp
  · have hu : path.render ∉ session.unplaced.once := hm
    rw [if_neg hm, if_neg hu]
    simp only [Session.unplaced, ho]
    cases session.stack.obstacle? path.render with
    | some fault => simp [Session.unplaced]
    | none =>
      cases files.readText path with
      | error fault => simp [Session.unplaced]
      | ok source => simp [Outcome.unplaced, Session.unplaced]

theorem includeFile_unplaced (h : PlacelessOperand session.macros operands) :
    (includeFile files options session.unplaced frame.unplaced keyword.unplaced
        (operands.map Token.unplaced)).unplaced =
      (includeFile files options session frame keyword operands).unplaced := by
  have hr := reference?_unplaced h
  unfold includeFile
  dsimp only [Session.unplaced] at hr ⊢
  rw [hr]
  cases (reference? session.macros operands).2 with
  | none => simp [Session.unplaced]
  | some reference =>
    dsimp only [Frame.unplaced]
    cases reference.locate files options frame.directory with
    | error fault => simp [Outcome.unplaced, Session.unplaced, Except.mapError]
    | ok found =>
      cases found with
      | none => simp [Session.unplaced]
      | some path => exact openFile_unplaced keyword reference path

/-- A directive does the same without the places. -/
theorem execute_unplaced (h : Includes keyword → PlacelessOperand session.macros operands) :
    (execute files options session.unplaced frame.unplaced hash.unplaced keyword.unplaced
        (operands.map Token.unplaced)).unplaced =
      (execute files options session frame hash keyword operands).unplaced := by
  have hi := name_eq_include keyword
  unfold execute
  rw [Token.kind_unplaced, Token.text_unplaced]
  dsimp only
  generalize (if keyword.kind = .identifier then keyword.text else "") = name at hi ⊢
  split
  · exact define_unplaced keyword operands
  split
  · exact undefine_unplaced keyword operands
  split
  · next hn => exact includeFile_unplaced (h (hi.1 hn))
  split
  · exact pragma_unplaced hash operands
  split
  · simp
  · simp

end Directive

end CPreprocessor

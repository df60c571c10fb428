import CPreprocessor.Lexeme.Basic

/-!
# Blanks and comments

What may stand between two lexemes on one logical line: blanks, line comments and block comments.
A line comment leaves the newline behind it in place, a block comment may cover newlines.
-/

namespace CPreprocessor.Lexeme

/-- Space, tab, vertical tab and form feed. -/
def isBlank (c : Char) : Bool := c = ' ' || c = '\t' || c = '\x0b' || c = '\x0c'

/-- The outcome of skipping blanks and comments. -/
inductive Gap where
  /-- What was skipped, and the text behind it. -/
  | skipped (gap rest : List Char)
  /-- What was skipped before a block comment that is never closed, and the text from there. -/
  | unclosed (before rest : List Char)
deriving DecidableEq, Repr

namespace Gap

/-- Counts further text in front as skipped. -/
def prepend (text : List Char) : Gap → Gap
  | skipped gap rest => skipped (text ++ gap) rest
  | unclosed before rest => unclosed (text ++ before) rest

/-- The whole text that was looked at. -/
def whole : Gap → List Char
  | skipped gap rest => gap ++ rest
  | unclosed before rest => before ++ rest

@[simp] theorem whole_prepend (text : List Char) (gap : Gap) :
    (gap.prepend text).whole = text ++ gap.whole := by
  cases gap <;> simp [prepend, whole]

end Gap

/-- Cuts behind the first `*/`. -/
def closeComment? : List Char → Option Cut
  | [] => none
  | '*' :: '/' :: rest => some ⟨['*', '/'], rest⟩
  | c :: rest => (closeComment? rest).map (Cut.cons c)

theorem whole_closeComment? {chars : List Char} {cut : Cut} (h : closeComment? chars = some cut) :
    cut.whole = chars := by
  fun_induction closeComment? chars generalizing cut with
  | case1 => contradiction
  | case2 rest =>
    obtain rfl := Option.some.inj h
    rfl
  | case3 c rest _ ih =>
    obtain ⟨inner, found, rfl⟩ := Option.map_eq_some_iff.1 h
    rw [Cut.whole_cons, ih found]

theorem length_closeComment? {chars : List Char} {cut : Cut} (h : closeComment? chars = some cut) :
    cut.rest.length ≤ chars.length := by
  rw [← whole_closeComment? h, Cut.whole, List.length_append]
  omega

/-- Skips blanks and comments. -/
def skip : List Char → Gap
  | [] => .skipped [] []
  | '/' :: '/' :: rest =>
    let line := Cut.takeWhile (· ≠ '\n') rest
    (skip line.rest).prepend ('/' :: '/' :: line.text)
  | '/' :: '*' :: rest =>
    match _ : closeComment? rest with
    | some cut => (skip cut.rest).prepend ('/' :: '*' :: cut.text)
    | none => .unclosed [] ('/' :: '*' :: rest)
  | c :: rest => if isBlank c then (skip rest).prepend [c] else .skipped [] (c :: rest)
termination_by chars => chars.length
decreasing_by
  · exact Nat.lt_succ_of_lt (Nat.lt_succ_of_le (List.dropWhile_suffix _).length_le)
  · exact Nat.lt_succ_of_lt (Nat.lt_succ_of_le (length_closeComment? ‹_›))
  · exact Nat.lt_succ_self _

/-- Skipping loses no character. -/
theorem whole_skip (chars : List Char) : (skip chars).whole = chars := by
  fun_induction skip chars with
  | case1 => rfl
  | case2 rest line ih =>
    rw [Gap.whole_prepend, ih]
    exact congrArg (fun text => '/' :: '/' :: text) (Cut.whole_takeWhile _ rest)
  | case3 rest cut closed ih =>
    rw [Gap.whole_prepend, ih]
    exact congrArg (fun text => '/' :: '*' :: text) (whole_closeComment? closed)
  | case4 => rfl
  | case5 c rest _ _ _ ih =>
    rw [Gap.whole_prepend, ih]
    rfl
  | case6 => rfl

end CPreprocessor.Lexeme

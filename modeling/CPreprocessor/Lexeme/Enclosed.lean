import CPreprocessor.Lexeme.Basic

/-!
# Header names and asm blocks

Two lexemes that are taken as written up to their closing mark: the operand of an include
directive, which must close on its line, and the braces behind an asm keyword, which must balance.
-/

namespace CPreprocessor.Lexeme

/-- Cuts behind the first `mark` on the line. -/
def closeOnLine? (mark : Char) : List Char → Option Cut
  | [] => none
  | c :: rest =>
    if c = '\n' then none
    else if c = mark then some ⟨[c], rest⟩
    else (closeOnLine? mark rest).map (Cut.cons c)

/-- A header name, in angle brackets or double quotes, at the front of the text. -/
def headerName? : List Char → Option Cut
  | '<' :: rest => (closeOnLine? '>' rest).map (Cut.cons '<')
  | '"' :: rest => (closeOnLine? '"' rest).map (Cut.cons '"')
  | _ => none

/-- Cuts behind the brace that closes the block, `depth` further braces being open inside it. -/
def closeBrace? : (depth : Nat) → List Char → Option Cut
  | _, [] => none
  | depth, '{' :: rest => (closeBrace? (depth + 1) rest).map (Cut.cons '{')
  | 0, '}' :: rest => some ⟨['}'], rest⟩
  | depth + 1, '}' :: rest => (closeBrace? depth rest).map (Cut.cons '}')
  | depth, c :: rest => (closeBrace? depth rest).map (Cut.cons c)

theorem whole_closeOnLine? {mark : Char} {chars : List Char} {cut : Cut}
    (h : closeOnLine? mark chars = some cut) : cut.whole = chars := by
  fun_induction closeOnLine? mark chars generalizing cut with
  | case1 => contradiction
  | case2 => contradiction
  | case3 =>
    obtain rfl := Option.some.inj h
    rfl
  | case4 c rest _ _ ih =>
    obtain ⟨inner, found, rfl⟩ := Option.map_eq_some_iff.1 h
    rw [Cut.whole_cons, ih found]

theorem whole_headerName? {chars : List Char} {cut : Cut} (h : headerName? chars = some cut) :
    cut.whole = chars ∧ cut.text ≠ [] := by
  unfold headerName? at h
  split at h
  · obtain ⟨inner, found, rfl⟩ := Option.map_eq_some_iff.1 h
    simp [whole_closeOnLine? found]
  · obtain ⟨inner, found, rfl⟩ := Option.map_eq_some_iff.1 h
    simp [whole_closeOnLine? found]
  · contradiction

theorem whole_closeBrace? {depth : Nat} {chars : List Char} {cut : Cut}
    (h : closeBrace? depth chars = some cut) : cut.whole = chars := by
  fun_induction closeBrace? depth chars generalizing cut with
  | case1 => contradiction
  | case3 =>
    obtain rfl := Option.some.inj h
    rfl
  | case2 depth rest ih | case4 rest depth ih | case5 depth c rest _ _ _ ih =>
    obtain ⟨inner, found, rfl⟩ := Option.map_eq_some_iff.1 h
    rw [Cut.whole_cons, ih found]

end CPreprocessor.Lexeme

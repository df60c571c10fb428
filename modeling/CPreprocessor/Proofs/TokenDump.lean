import CPreprocessor.CommandLine.Execute
import CPreprocessor.Proofs.PlainText

/-!
# The token dump

A token is printed as a row: its place, its class, and its spelling as it is. The fields of a row
can be told from each other, but a spelling that has newlines in it is printed on several lines. An
assembly block may have newlines, and so may a literal that quotes one.

* `Token.dumpLine_inj`: a row determines the place, the class and the spelling.
* `linesOfText_joinLines`: the printed lines are those of the rows, one row after the other.
* `exists_body_of_preprocess`: what comes out of a run that succeeds.
* `token_dump_lines`: how many lines are printed, and when each of them is a row.
-/

namespace CPreprocessor

open CommandLine Expansion Interleaving

/-! ## Rows -/

/-- Where a field ends, the next separator decides. -/
theorem field_inj {separator : Char} {left right leftRest rightRest : List Char}
    (hl : separator ∉ left) (hr : separator ∉ right)
    (h : left ++ separator :: leftRest = right ++ separator :: rightRest) :
    left = right ∧ leftRest = rightRest := by
  rcases List.append_eq_append_iff.1 h with ⟨more, rfl, hrest⟩ | ⟨more, rfl, hrest⟩
  all_goals
    cases more with
    | nil => exact ⟨by simp, by simp_all⟩
    | cons c more =>
      obtain ⟨rfl, -⟩ := List.cons_eq_cons.1 hrest
      simp at hl hr

theorem toString_inj {m n : Nat} (h : (toString m).toList = (toString n).toList) : m = n := by
  rw [Nat.toString_eq_repr, Nat.toString_eq_repr, Nat.toList_repr, Nat.toList_repr] at h
  have hread := congrArg (Nat.ofDigitChars 10 · 0) h
  simpa only [Nat.ofDigitChars_toDigits (b := 10) (by decide) (by decide)] using hread

namespace Token

/-- The spelling in a row; the end of a file has none. -/
def lexeme? (token : Token) : Option String :=
  if token.kind = .endOfFile then none else some token.text

/-- The fields behind the place in a row. -/
def dumpFields (token : Token) : List Char :=
  token.kind.label.toList ++ (token.lexeme?.map fun text => '\t' :: text.toList).getD []

theorem toList_dumpLine (token : Token) :
    token.dumpLine.toList = (toString token.position.line).toList ++
      ':' :: ((toString token.position.column).toList ++ '\t' :: token.dumpFields) := by
  unfold dumpLine dumpFields lexeme?
  by_cases hk : token.kind = .endOfFile
  · simp [hk]
  · simp [hk]

theorem Kind.not_mem_label (kind : Kind) : '\t' ∉ kind.label.toList ∧ '\n' ∉ kind.label.toList := by
  cases kind <;> decide

theorem Kind.label_inj {left right : Kind} (h : left.label = right.label) : left = right := by
  revert h
  cases left <;> cases right <;> decide

theorem takeWhile_dumpFields (token : Token) :
    token.dumpFields.takeWhile (· ≠ '\t') = token.kind.label.toList := by
  unfold dumpFields
  rw [List.takeWhile_append_of_pos]
  · cases token.lexeme? <;> simp
  · intro c hc
    exact decide_eq_true fun ht => token.kind.not_mem_label.1 (ht ▸ hc)

theorem dumpFields_inj {left right : Token} (h : left.dumpFields = right.dumpFields) :
    left.kind = right.kind ∧ left.lexeme? = right.lexeme? := by
  have hlabel := congrArg (List.takeWhile (· ≠ '\t')) h
  rw [takeWhile_dumpFields, takeWhile_dumpFields] at hlabel
  have hk := Kind.label_inj (String.toList_inj.1 hlabel)
  refine ⟨hk, ?_⟩
  rw [dumpFields, dumpFields, hk] at h
  have htail := List.append_cancel_left h
  cases hl : left.lexeme? <;> cases hr : right.lexeme? <;>
    simp_all [String.toList_inj]

/-- A row determines where the token stands, its class and its spelling. -/
theorem dumpLine_inj {left right : Token} (h : left.dumpLine = right.dumpLine) :
    left.position.line = right.position.line ∧ left.position.column = right.position.column ∧
      left.kind = right.kind ∧ left.lexeme? = right.lexeme? := by
  have hrow := congrArg String.toList h
  rw [toList_dumpLine, toList_dumpLine] at hrow
  have hcolon (n : Nat) : ':' ∉ (toString n).toList := not_mem_toString (by decide) n
  have htab (n : Nat) : '\t' ∉ (toString n).toList := not_mem_toString (by decide) n
  obtain ⟨hline, hrow⟩ := field_inj (hcolon _) (hcolon _) hrow
  obtain ⟨hcolumn, hrow⟩ := field_inj (htab _) (htab _) hrow
  obtain ⟨hkind, hlexeme⟩ := dumpFields_inj hrow
  exact ⟨toString_inj hline, toString_inj hcolumn, hkind, hlexeme⟩

/-- The newlines of a row are those of the spelling. -/
theorem count_dumpLine {token : Token} (h : token.kind = .endOfFile → token.text = "") :
    token.dumpLine.toList.count '\n' = token.text.toList.count '\n' := by
  have hline (n : Nat) : (toString n).toList.count '\n' = 0 :=
    List.count_eq_zero.2 (not_mem_toString (by decide) n)
  have hlabel : token.kind.label.toList.count '\n' = 0 :=
    List.count_eq_zero.2 token.kind.not_mem_label.2
  rw [toList_dumpLine, List.count_append, hline, List.count_cons, List.count_append, hline,
    List.count_cons, dumpFields, List.count_append, hlabel]
  unfold lexeme?
  by_cases hk : token.kind = .endOfFile
  · simp [hk, h hk]
  · simp [hk]

end Token

/-! ## Lines -/

/-- The lines of a text in which a newline ends each of them. -/
def linesOfText (text : String) : List (List Char) := (text.toList.splitOn '\n').dropLast

/-- The printed lines are those of the rows, one row after the other. -/
theorem linesOfText_joinLines (rows : List String) :
    linesOfText (joinLines rows) = rows.flatMap fun row => row.toList.splitOn '\n' := by
  have hsplit : (joinLines rows).toList.splitOn '\n' =
      (rows.flatMap fun row => row.toList.splitOn '\n') ++ [[]] := by
    unfold joinLines
    induction rows with
    | nil => rfl
    | cons row rest ih =>
      rw [List.map_cons, String.toList_join, List.flatMap_cons, ← String.toList_join,
        List.flatMap_cons, String.toList_append, List.append_assoc, List.append_assoc, ← ih]
      exact List.splitOnP_append_cons row.toList _ (beq_self_eq_true '\n')
  rw [linesOfText, hsplit, List.dropLast_concat]

theorem length_splitOn (text : List Char) :
    (text.splitOn '\n').length = text.count '\n' + 1 := by
  unfold List.splitOn
  induction text with
  | nil => rfl
  | cons c rest ih =>
    rw [List.splitOnP_cons_eq_if_modifyHead, List.count_cons]
    split
    · rw [List.length_cons, ih]
    · rw [List.length_modifyHead, ih]

/-- There is one line for each row, and one more for each newline in it. -/
theorem length_linesOfText (rows : List String) :
    (linesOfText (joinLines rows)).length =
      rows.length + (rows.map fun row => row.toList.count '\n').sum := by
  rw [linesOfText_joinLines]
  induction rows with
  | nil => rfl
  | cons row rest ih =>
    rw [List.flatMap_cons, List.length_append, ih, length_splitOn, List.map_cons, List.sum_cons,
      List.length_cons]
    omega

/-- The lines are the rows where no newline stands in one of them. -/
theorem linesOfText_eq_iff (rows : List String) :
    linesOfText (joinLines rows) = rows.map String.toList ↔ ∀ row ∈ rows, '\n' ∉ row.toList := by
  constructor
  · intro h row hm hn
    have hlength := congrArg List.length h
    rw [length_linesOfText, List.length_map] at hlength
    have hsum : (rows.map fun row => row.toList.count '\n').sum = 0 := by omega
    have hcount := List.sum_eq_zero_iff_forall_eq_nat.1 hsum _ (List.mem_map_of_mem hm)
    exact List.count_eq_zero.1 hcount hn
  · intro h
    rw [linesOfText_joinLines]
    induction rows with
    | nil => rfl
    | cons row rest ih =>
      obtain ⟨hrow, hrest⟩ := List.forall_mem_cons.1 h
      rw [List.flatMap_cons, List.splitOn_eq_singleton hrow, ih hrest]
      rfl

/-! ## Runs -/

/-- The token dump, as it is printed. -/
def Preprocessed.tokenDump (result : Preprocessed) : String :=
  joinLines (result.tokens.map Token.dumpLine)

section Runs

variable {files : Files.Tree} {options : Options} {filename source : String} {result : Preprocessed}

theorem Run.tokens_of_result {run : Run} (h : run.result options filename source = .ok result) :
    result.tokens = run.tokens := by
  unfold Run.result at h
  dsimp only at h
  split at h
  · contradiction
  · contradiction
  · obtain rfl := Except.ok.inj h
    rfl

/-- A run that succeeds is not broken off. -/
theorem Run.halt_of_result {run : Run} (h : run.result options filename source = .ok result) :
    run.halt = none := by
  unfold Run.result at h
  dsimp only at h
  split at h
  · contradiction
  · contradiction
  · assumption

/-- A run to the end that raises no issue succeeds. -/
theorem Run.exists_result {run : Run} (hh : run.halt = none) (h : run.issues = [])
    (options : Options) (filename source : String) :
    ∃ result, run.result options filename source = .ok result := by
  unfold Run.result Run.report
  rw [hh, h]
  exact ⟨_, rfl⟩

/-- A run that succeeds gives ordinary tokens and an end of file. -/
theorem exists_body_of_preprocess (h : preprocess files options filename source = .ok result) :
    ∃ body stop, result.tokens = body ++ [.endOfFile stop] ∧ ∀ token ∈ body, token.Ordinary := by
  unfold preprocess at h
  split at h
  · contradiction
  · next session hs =>
    obtain ⟨hmacros, hsession⟩ := ready_of_initial hs
    split at h
    · contradiction
    · next run hrun =>
      unfold Run.ofSource at hrun
      cases hf : SourceFile.mainFrame files filename with
      | error fault =>
        rw [hf] at hrun
        contradiction
      | ok frame =>
        rw [hf] at hrun
        obtain rfl := Except.ok.inj hrun
        rw [Run.tokens_of_result h]
        exact exists_body_of_endsMain
          (reads_read files options hmacros (by rw [hsession]) frame source).1
          (Run.halt_of_result h)

/-- The printed lines of a token dump are as many as the tokens and the newlines in them together.
Only assembly blocks and string literals have newlines, and if there are none, the lines are the
rows of the tokens. A row determines line, column, class and spelling of its token. -/
theorem token_dump_lines (h : preprocess files options filename source = .ok result) :
    let lines := linesOfText result.tokenDump
    lines.length = result.tokens.length +
        (result.tokens.map fun token => token.text.toList.count '\n').sum ∧
      (∀ token ∈ result.tokens, '\n' ∈ token.text.toList →
        token.kind = .asmBlock ∨ token.kind = .string) ∧
      (lines = result.tokens.map (fun token => token.dumpLine.toList) ↔
        ∀ token ∈ result.tokens, '\n' ∉ token.text.toList) ∧
      ∀ token ∈ result.tokens, ∀ other : Token, token.dumpLine = other.dumpLine →
        token.position.line = other.position.line ∧
          token.position.column = other.position.column ∧ token.kind = other.kind ∧
          token.lexeme? = other.lexeme? := by
  intro lines
  obtain ⟨body, stop, htokens, hbody⟩ := exists_body_of_preprocess h
  have hend : ∀ token ∈ result.tokens, token.Ordinary ∨ token.text = "" := by
    rw [htokens]
    intro token hm
    rcases List.mem_append.1 hm with hm | hm
    · exact .inl (hbody token hm)
    · exact .inr (List.mem_singleton.1 hm ▸ rfl)
  have hcount : ∀ token ∈ result.tokens,
      token.dumpLine.toList.count '\n' = token.text.toList.count '\n' := by
    intro token hm
    refine Token.count_dumpLine fun hk => (hend token hm).resolve_left fun ho => ?_
    exact (Token.Kind.isOrdinary_iff.1 ho.kind).1 hk
  refine ⟨?_, fun token hm hn => ?_, ?_, fun token _ other => Token.dumpLine_inj⟩
  · rw [show lines = linesOfText (joinLines _) from rfl, length_linesOfText, List.length_map,
      List.map_map]
    exact congrArg (_ + ·) (congrArg List.sum (List.map_congr_left hcount))
  · rcases hend token hm with ho | he
    · exact ho.unbroken hn
    · rw [he] at hn
      contradiction
  · have hiff := linesOfText_eq_iff (result.tokens.map Token.dumpLine)
    rw [List.map_map, List.forall_mem_map] at hiff
    refine hiff.trans (forall₂_congr fun token hm => not_congr ?_)
    rw [← List.count_pos_iff, hcount token hm, List.count_pos_iff]

end Runs

/-- An assembly block on three lines. -/
def asmSource : String := "asm \x7b\n nop\n\x7d\n"

/-- Its three tokens are printed on five lines, of which two belong to no token. -/
theorem token_dump_lines_asm_block :
    ∃ result, preprocess ⟨.directory [], []⟩ {} "<stdin>" asmSource = .ok result ∧
      result.tokens.map Token.dumpLine =
        ["1:1\tIDENT\tasm", "1:5\tASM_BLOCK\t\x7b\n nop\n\x7d", "4:1\tEOF"] ∧
      (linesOfText result.tokenDump).length = 5 := by
  let frame : Include.Frame := ⟨"<stdin>", "<stdin>", none, .start "<stdin>"⟩
  let lexed := lex true ({} : Options).trigraphs frame.filename asmSource
  have hs : Session.initial {} = .ok standardSession := initial_standardSession
  have hl : lexed.issue = none := by decide +kernel
  have hpasses : ∀ word ∈ lexed.words, Passes standardSession.macros word := by
    intro word hw
    by_cases hk : word.kind = .identifier
    · have hnames : ∀ word ∈ lexed.words, word.kind = .identifier →
          word.text ∉ Macro.builtinNames ∧ word.text ∉ standardSession.macros.names := by
        decide +kernel
      obtain ⟨hb, hn⟩ := hnames word hw hk
      exact passes_of_name hb hn
    · exact passes_of_kind hk
  have hlines : ∀ line ∈ (linesOf {} frame asmSource).lines, ¬line.isDirective :=
    not_isDirective_of_mark hl (by decide +kernel)
  obtain ⟨stop, hlast, -, htokens, hissues, -, hhalt⟩ :=
    ofFrame_plain ⟨.directory [], []⟩ standardSession hl hlines hpasses
  generalize hr : Run.ofFrame ⟨.directory [], []⟩ {} standardSession frame asmSource = run at *
  have hrun : Run.ofSource ⟨.directory [], []⟩ {} standardSession "<stdin>" asmSource =
      .ok run := by
    rw [← hr]
    rfl
  obtain ⟨result, hresult⟩ := Run.exists_result hhalt hissues {} "<stdin>" asmSource
  have h : preprocess ⟨.directory [], []⟩ {} "<stdin>" asmSource = .ok result := by
    unfold preprocess
    rw [hs]
    dsimp only
    rw [hrun]
    exact hresult
  have hall : Literal.merge lexed.words ++ [.endOfFile stop.position] = result.tokens :=
    (Run.tokens_of_result hresult ▸ htokens).symm
  have hstop : lexed.tokens.getLast?.map Token.position = some ⟨"<stdin>", 4, 1⟩ := by
    decide +kernel
  have hplace : stop.position = ⟨"<stdin>", 4, 1⟩ := by
    rw [hlast] at hstop
    exact Option.some.inj hstop
  have hrows : result.tokens.map Token.dumpLine =
      ["1:1\tIDENT\tasm", "1:5\tASM_BLOCK\t\x7b\n nop\n\x7d", "4:1\tEOF"] := by
    rw [← hall, hplace]
    decide +kernel
  have hcounts : (result.tokens.map fun token => token.text.toList.count '\n') = [0, 2, 0] := by
    rw [← hall, hplace]
    decide +kernel
  refine ⟨result, h, hrows, ?_⟩
  have hlength := congrArg List.length hrows
  rw [List.length_map] at hlength
  rw [(token_dump_lines h).1, hcounts, hlength]
  rfl

end CPreprocessor

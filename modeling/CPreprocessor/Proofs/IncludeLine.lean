import CPreprocessor.Proofs.Lexeme.DirectiveLine
import CPreprocessor.Proofs.Unplaced.Lines

/-!
# The line of an include

The line that includes a header by its name in quotes is one line, and not an empty one, whatever
the name (`rows_includeLine`), provided that the name does not end it (`IsLine`). No name does that
holds no quote and no line terminator (`isLine_includeLine`).
-/

namespace CPreprocessor

open Source Lexeme

namespace Lexeme.Context

/-- A directive goes on up to the newline, and braces are ordinary in it. -/
theorem behind_directive {context : Context} {lexemes : List Lexeme}
    (hc : context = .keyword ∨ context = .header ∨ context = .operands)
    (hn : ∀ lexeme ∈ lexemes, lexeme.kind ≠ .newline) :
    context.behind lexemes = .keyword ∨ context.behind lexemes = .header ∨
      context.behind lexemes = .operands := by
  induction lexemes generalizing context with
  | nil => exact hc
  | cons lexeme rest ih =>
    refine ih ?_ fun other hm => hn other (List.mem_cons_of_mem _ hm)
    have hk := hn lexeme List.mem_cons_self
    obtain ⟨gap, kind, text⟩ := lexeme
    cases kind with
    | newline => contradiction
    | directiveHash => exact .inl rfl
    | _ =>
      obtain rfl | rfl | rfl := hc
      · dsimp only [next]
        split
        · exact .inr (.inl rfl)
        · exact .inr (.inr rfl)
      · exact .inr (.inr rfl)
      · exact .inr (.inr rfl)

end Lexeme.Context

namespace Lines

/-- Tokens other than newlines belong to the line that has begun. -/
theorem divideFrom_inner (current : List Token) {tokens : List Token}
    (hn : ∀ token ∈ tokens, token.kind ≠ .newline ∧ token.kind ≠ .endOfFile)
    (behind : List Token) :
    divideFrom current (tokens ++ behind) = divideFrom (current ++ tokens) behind := by
  induction tokens generalizing current with
  | nil => rw [List.nil_append, List.append_nil]
  | cons token rest ih =>
    obtain ⟨hnewline, hend⟩ := hn token List.mem_cons_self
    have hrest := ih (current ++ [token]) fun t ht => hn t (List.mem_cons_of_mem _ ht)
    rw [List.append_assoc] at hrest
    rw [List.cons_append, divideFrom]
    split
    · contradiction
    · contradiction
    · exact hrest

/-- Rows with a newline behind each are the lines of the whole. -/
theorem ofTokens_rows {rows : List (List Token)} {newline stop : Token}
    (hr : ∀ row ∈ rows, ∀ token ∈ row, token.kind ≠ .newline ∧ token.kind ≠ .endOfFile)
    (hn : newline.kind = .newline) (hs : stop.kind = .endOfFile) :
    (ofTokens (rows.flatMap (· ++ [newline]) ++ [stop])).lines.map Line.tokens = rows := by
  induction rows with
  | nil =>
    rw [ofTokens, List.flatMap_nil, List.nil_append, divideFrom, hs]
    rfl
  | cons row rows ih =>
    obtain ⟨hrow, hrows⟩ := List.forall_mem_cons.1 hr
    rw [ofTokens, List.flatMap_cons, List.append_assoc, List.append_assoc,
      divideFrom_inner [] hrow, List.nil_append, List.singleton_append, divideFrom, hn]
    exact congrArg (row :: ·) (ih hrows)

end Lines

namespace Inclusion

/-- The line that includes a header by its name in quotes. -/
def includeLine (name : String) : String := "#include \"" ++ name ++ "\"\n"

/-- A source that is one line: it leaves nothing open, and there is one newline in it. -/
structure IsLine (trigraphs : Bool) (file source : String) : Prop where
  complete : (lex true trigraphs file source).issue = none
  single : (lex true trigraphs file source).tokens.countP (·.kind = .newline) = 1

/-- What stands before the name. -/
def opening : List Char := ['#', 'i', 'n', 'c', 'l', 'u', 'd', 'e', ' ', '"']

theorem plain_opening : ∀ c ∈ opening, Inner c ∧ c ≠ '?' ∧ c ≠ '\\' := by
  simp [opening, Source.Inner]

theorem toList_includeLine (name : String) :
    (includeLine name).toList = opening ++ (name.toList ++ ['"', '\n']) := by
  simp [includeLine, opening, String.toList_append]

/-- There are as many newlines among the tokens of a source as in its logical text. -/
theorem countP_newline (trigraphs : Bool) (file source : String) :
    (lex true trigraphs file source).tokens.countP (·.kind = .newline) =
      (scan true trigraphs source).tokens.countP (·.kind = .newline) := by
  rw [← unplaced_lex true trigraphs file source, List.countP_map]
  rfl

/-- The lexemes of the line of an include: the mark of a directive, others, and a newline. -/
theorem lexemes_includeLine {trigraphs : Bool} {file name : String}
    (h : IsLine trigraphs file (includeLine name))
    (hclosed : Closed (phases trigraphs (includeLine name).toList)) :
    ∃ inner last, (scan true trigraphs (includeLine name)).lexemes = mark :: inner ++ [last] ∧
      last.kind = .newline ∧
      ∀ lexeme ∈ inner, lexeme.kind ≠ .newline ∧ lexeme.kind ≠ .endOfFile := by
  have hcomplete := (issue_lex true trigraphs file (includeLine name)).1 h.complete
  have hlast : ∀ last ∈ (scan true trigraphs (includeLine name)).lexemes.getLast?,
      last.kind = .newline := newline_of_mem_getLast? hclosed hcomplete
  have hend : ∀ lexeme ∈ (scan true trigraphs (includeLine name)).lexemes,
      lexeme.kind ≠ .endOfFile := kind_ne_of_mem_divide
  have hcount := h.single
  rw [countP_newline] at hcount
  obtain ⟨more, hmore⟩ : ∃ more, (scan true trigraphs (includeLine name)).lexemes =
      mark :: more := by
    rw [scan, toList_includeLine, phases_plain_append trigraphs plain_opening]
    exact ⟨_, congrArg Division.lexemes (divide_mark _)⟩
  rw [hmore] at hlast hend
  rcases List.eq_nil_or_concat more with rfl | ⟨inner, last, rfl⟩
  · cases hlast mark rfl
  · rw [List.concat_eq_append] at hmore hlast hend
    have hnewline : last.kind = .newline :=
      hlast last (by rw [← List.cons_append, List.getLast?_concat]; rfl)
    have hinner : inner.countP (·.kind = .newline) = 0 := by
      have hkind : (fun lexeme : Lexeme => decide (lexeme.token.kind = .newline)) =
          fun lexeme => decide (lexeme.kind = .newline) := rfl
      have hlast : last.token.kind = .newline := hnewline
      simp only [Division.tokens, hmore, List.countP_append, List.countP_map,
        List.countP_cons, List.map_cons, List.map_append, Function.comp_def, hkind, hlast,
        decide_true, if_true] at hcount
      omega
    refine ⟨inner, last, hmore, hnewline, fun lexeme hm => ⟨fun hk => ?_, ?_⟩⟩
    · exact List.countP_eq_zero.1 hinner lexeme hm (decide_eq_true hk)
    · exact hend lexeme (List.mem_cons_of_mem _ (List.mem_append_left _ hm))

/-- A newline that nothing splices away ends the line of an include. -/
theorem closed_includeLine (trigraphs : Bool) (name : String) :
    Terminated (includeLine name).toList ∧ Closed (phases trigraphs (includeLine name).toList) := by
  have htext : (includeLine name).toList = opening ++ name.toList ++ ['"', '\n'] := by
    rw [toList_includeLine, List.append_assoc]
  rw [htext]
  refine ⟨fun c hm => ?_, ?_⟩
  · rw [List.getLast?_append] at hm
    exact .inr (Option.some.inj hm).symm
  · exact closed_phases_concat trigraphs _ (by decide) (by decide) (by decide) rfl

/-- The line of an include stands alone, and it is not empty. -/
theorem rows_includeLine {trigraphs : Bool} {file name : String}
    (h : IsLine trigraphs file (includeLine name)) :
    StandsAlone trigraphs (includeLine name) ∧
      ∃ hash rest, rows trigraphs (includeLine name) = [hash :: rest] := by
  obtain ⟨hterminated, hclosed⟩ := closed_includeLine trigraphs name
  obtain ⟨inner, last, hlexemes, hlast, hinner⟩ := lexemes_includeLine h hclosed
  have hstart : (Context.lineStart false).behind
      (scan true trigraphs (includeLine name)).lexemes = .lineStart false := by
    rw [hlexemes, Context.behind_concat, hlast]
    have hdirective := Context.behind_directive (.inl rfl) fun lexeme hm => (hinner lexeme hm).1
    change Context.lineStart (Context.keyword.behind inner).afterAsm = _
    obtain hb | hb | hb := hdirective <;> rw [hb] <;> rfl
  have halone : StandsAlone trigraphs (includeLine name) :=
    ⟨hterminated, hclosed, (issue_lex true trigraphs file (includeLine name)).1 h.complete, hstart⟩
  obtain ⟨space, htokens⟩ := halone.tokens
  refine ⟨halone, mark.token, inner.map Lexeme.token, ?_⟩
  have hline : ∀ row ∈ [mark.token :: inner.map Lexeme.token],
      ∀ token ∈ row, token.kind ≠ .newline ∧ token.kind ≠ .endOfFile := by
    refine List.forall_mem_singleton.2 (List.forall_mem_cons.2 ⟨⟨by decide, by decide⟩, ?_⟩)
    intro token hm
    obtain ⟨lexeme, hl, rfl⟩ := List.mem_map.1 hm
    exact hinner lexeme hl
  have hkind : last.token.kind = .newline := hlast
  rw [rows, htokens, hlexemes, List.map_append, List.map_cons]
  have hstop : (Token.endOfFile nowhere space).kind = .endOfFile := rfl
  have hrows := Lines.ofTokens_rows hline hkind hstop
  rwa [List.flatMap_singleton] at hrows

/-! ## Names that do not end the line -/

theorem phases_includeLine (trigraphs : Bool) {name : String}
    (h : ∀ c ∈ name.toList, Inner c ∧ c ≠ '"') :
    ∃ inner : List Char, (∀ c ∈ inner, c ≠ '\n' ∧ c ≠ '"') ∧
      phases trigraphs (includeLine name).toList = opening ++ (inner ++ ['"', '\n']) := by
  refine ⟨phases trigraphs name.toList, fun c hm => ?_, ?_⟩
  · obtain hc | ⟨mark, hc⟩ := mem_phases (fun d hd => (h d hd).1) hm
    · exact ⟨(h c hc).1.2, (h c hc).2⟩
    · refine ⟨(inner_of_trigraph? hc).2.2, ?_⟩
      rintro rfl
      unfold trigraph? at hc
      split at hc
      all_goals contradiction
  · rw [toList_includeLine, phases_plain_append trigraphs plain_opening,
      phases_concat trigraphs name.toList (by decide) (by decide) (by decide) rfl]

/-- The line of an include whose name does not end it is a directive with one operand. -/
theorem scan_includeLine (trigraphs : Bool) {name : String}
    (h : ∀ c ∈ name.toList, Inner c ∧ c ≠ '"') :
    ∃ inner : List Char, scan true trigraphs (includeLine name) =
      ⟨directive includeWord (behindBlank [⟨[], .headerName, enclose false inner⟩]) ++ [lineEnd],
        .complete [] false⟩ := by
  obtain ⟨inner, hinner, hphases⟩ := phases_includeLine trigraphs h
  have htext : opening ++ (inner ++ ['"', '\n']) =
      '#' :: (includeWord ++ ' ' :: (enclose false inner ++ '\n' :: [])) := by
    simp [opening, includeWord, enclose]
  refine ⟨inner, ?_⟩
  rw [scan, hphases, htext,
    divide_directive_operand isWord_includeWord (operand_headerName hinner), divide_nil]
  rfl

/-- A name without quotes and line terminators makes a line. -/
theorem isLine_includeLine (trigraphs : Bool) (file : String) {name : String}
    (h : ∀ c ∈ name.toList, Inner c ∧ c ≠ '"') : IsLine trigraphs file (includeLine name) := by
  obtain ⟨inner, hscan⟩ := scan_includeLine trigraphs h
  refine ⟨(issue_lex true trigraphs file _).2 ?_, ?_⟩
  · rw [hscan]
    trivial
  · rw [countP_newline, hscan]
    rfl

end Inclusion

end CPreprocessor

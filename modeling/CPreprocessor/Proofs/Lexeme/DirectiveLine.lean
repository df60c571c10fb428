import CPreprocessor.Proofs.Lexeme.Solid

/-!
# Lines of directives

A directive is its mark, its name and what stands behind that, up to the newline. How its operands
are divided depends on nothing behind the line, so that the lines of a source are divided one by
one.

* `Operand`: a text between a blank and the end of a line, and its lexemes. It can be a word, a name
  in quotes or brackets, a string literal, or any solid text (`operand_word`, `operand_headerName`,
  `operand_string`, `operand_solid`).
* `divide_directive_operand`: the line of a directive with one operand.
* `divide_define`: the line that defines a macro.
-/

namespace CPreprocessor

namespace Inclusion

open Lexeme

/-- The mark that the line of an include begins with. -/
def mark : Lexeme := ⟨[], .directiveHash, ['#']⟩

theorem divide_mark (rest : List Char) :
    divide true (.lineStart false) ('#' :: rest) = (divide true .keyword rest).cons mark := by
  have hread : read true (.lineStart false) '#' rest = .lexeme mark.kind ⟨mark.text, rest⟩ := rfl
  exact divide_cons (skip_of_cons (by decide) (by decide)) hread

end Inclusion

namespace Lexeme

variable {name text : List Char} {lexemes : List Lexeme} {context : Context}

theorem endsWord_blank : EndsWord ' ' := ⟨by decide +kernel, by decide⟩

theorem endsWord_newline : EndsWord '\n' := ⟨by decide +kernel, by decide⟩

/-- A directive begins with its mark and its name. -/
theorem divide_directive (hw : IsWord name) (rest : List Char) :
    divide true (.lineStart false) ('#' :: (name ++ ' ' :: rest)) =
      (divide true (Context.keyword.next .identifier name) (' ' :: rest)).prepend
        [Inclusion.mark, ⟨[], .identifier, name⟩] := by
  have hends : ∀ d ∈ (' ' :: rest).head?, EndsWord d :=
    fun d hd => Option.some.inj hd ▸ endsWord_blank
  rw [Inclusion.divide_mark, divide_word hw hends]
  rfl

/-- A word behind a blank. -/
def blankWord (text : List Char) : Lexeme := ⟨[' '], .identifier, text⟩

/-- Behind a blank a word is read as in front of it. -/
theorem divide_blank_word (hw : IsWord name) {other : List Char}
    (hd : ∀ d ∈ other.head?, EndsWord d) :
    divide true context (' ' :: (name ++ other)) =
      (divide true (context.next .identifier name) other).cons (blankWord name) :=
  divide_blank_cons (skip_word hw other) (divide_word hw hd)

/-- Neither a newline nor the end of a file is among the lexemes. -/
def OneLine (lexemes : List Lexeme) : Prop :=
  ∀ lexeme ∈ lexemes, lexeme.kind ≠ .newline ∧ lexeme.kind ≠ .endOfFile

theorem OneLine.cons {first : Lexeme} (h : OneLine lexemes)
    (hf : first.kind ≠ .newline ∧ first.kind ≠ .endOfFile) : OneLine (first :: lexemes) :=
  List.forall_mem_cons.2 ⟨hf, h⟩

theorem OneLine.behindBlank (h : OneLine lexemes) : OneLine (behindBlank lexemes) := by
  cases lexemes with
  | nil => exact h
  | cons first rest =>
    obtain ⟨hfirst, hrest⟩ := List.forall_mem_cons.1 h
    exact OneLine.cons hrest hfirst

/-- The text stands between a blank and the end of a line, and is divided into these lexemes
there. -/
structure Operand (context : Context) (text : List Char) (lexemes : List Lexeme) : Prop where
  ne : lexemes ≠ []
  oneLine : OneLine lexemes
  skip_eq : ∀ behind, skip (text ++ '\n' :: behind) = .skipped [] (text ++ '\n' :: behind)
  divide_eq : ∀ behind, divide true context (text ++ '\n' :: behind) =
    (divide true (.lineStart false) behind).prepend (lexemes ++ [lineEnd])

theorem Operand.divide_blank (h : Operand context text lexemes) (behind : List Char) :
    divide true context (' ' :: (text ++ '\n' :: behind)) =
      (divide true (.lineStart false) behind).prepend (behindBlank lexemes ++ [lineEnd]) := by
  obtain ⟨first, more, rfl⟩ := List.exists_cons_of_ne_nil h.ne
  have hdivide : divide true context (text ++ '\n' :: behind) =
      ((divide true (.lineStart false) behind).prepend (more ++ [lineEnd])).cons first :=
    h.divide_eq behind
  exact divide_blank_cons (h.skip_eq behind) hdivide

theorem operand_word (hw : IsWord name) (hn : context.next .identifier name = .operands) :
    Operand context name [⟨[], .identifier, name⟩] where
  ne := List.cons_ne_nil _ _
  oneLine := by simp [OneLine]
  skip_eq behind := skip_word hw _
  divide_eq behind := by
    have hends : ∀ d ∈ ('\n' :: behind).head?, EndsWord d :=
      fun d hd => Option.some.inj hd ▸ endsWord_newline
    rw [divide_word hw hends, hn, divide_lineEnd]
    rfl

theorem operand_solid {c : Char} {rest : List Char} (h : Solid (c :: rest)) :
    Operand .operands (c :: rest) (divide true .operands (c :: rest)).lexemes where
  ne := by
    rw [h.divide_cons]
    exact List.cons_ne_nil _ _
  oneLine lexeme hm := by
    obtain ⟨lexemes, hd, -, hl⟩ := h.division
    rw [hd] at hm
    obtain ⟨-, hk, -⟩ := hl lexeme hm
    constructor
    all_goals
      intro he
      rw [he] at hk
      contradiction
  skip_eq behind :=
    skip_before (alike_cons (by decide) (by decide) behind) h.skip_eq
  divide_eq behind := h.divide_newline behind

/-- A name in quotes or angle brackets. -/
def enclose (angled : Bool) (name : List Char) : List Char :=
  if angled then '<' :: (name ++ ['>']) else '"' :: (name ++ ['"'])

/-- The character that begins such a name. -/
def opener (angled : Bool) : Char := if angled then '<' else '"'

/-- The character that ends it. -/
def closer (angled : Bool) : Char := if angled then '>' else '"'

theorem enclose_append (angled : Bool) (name rest : List Char) :
    enclose angled name ++ rest = opener angled :: (name ++ closer angled :: rest) := by
  cases angled <;> simp [enclose, opener, closer]

theorem closeOnLine?_plain {mark : Char} {inner : List Char} (hm : mark ≠ '\n')
    (h : ∀ c ∈ inner, c ≠ '\n' ∧ c ≠ mark) (rest : List Char) :
    closeOnLine? mark (inner ++ mark :: rest) = some ⟨inner ++ [mark], rest⟩ := by
  induction inner with
  | nil => rw [List.nil_append, closeOnLine?, if_neg hm, if_pos rfl]; rfl
  | cons c inner ih =>
    obtain ⟨⟨hn, hc⟩, hrest⟩ := List.forall_mem_cons.1 h
    rw [List.cons_append, closeOnLine?, if_neg hn, if_neg hc, ih hrest]
    rfl

theorem operand_headerName {angled : Bool} (hn : ∀ c ∈ name, c ≠ '\n' ∧ c ≠ closer angled) :
    Operand .header (enclose angled name) [⟨[], .headerName, enclose angled name⟩] := by
  refine ⟨List.cons_ne_nil _ _, by simp [OneLine], fun behind => ?_, fun behind => ?_⟩
  · rw [enclose_append]
    cases angled <;> exact skip_of_cons (by decide) (by decide)
  · have hclose : closeOnLine? (closer angled) (name ++ closer angled :: '\n' :: behind) =
        some ⟨name ++ [closer angled], '\n' :: behind⟩ :=
      closeOnLine?_plain (by cases angled <;> decide) hn _
    have hname : headerName? (opener angled :: (name ++ closer angled :: '\n' :: behind)) =
        some ⟨enclose angled name, '\n' :: behind⟩ := by
      cases angled <;> exact congrArg (Option.map _) hclose
    have hread : read true .header (opener angled) (name ++ closer angled :: '\n' :: behind) =
        .lexeme .headerName ⟨enclose angled name, '\n' :: behind⟩ := by
      have hline : opener angled ≠ '\n' := by cases angled <;> decide
      have hhash : directiveHash? .header
          (opener angled :: (name ++ closer angled :: '\n' :: behind)) = none :=
        directiveHash?_of_midLine (by decide)
      simp only [read, if_neg hline, if_true, hhash, hname]
    have hskip : skip (opener angled :: (name ++ closer angled :: '\n' :: behind)) =
        .skipped [] (opener angled :: (name ++ closer angled :: '\n' :: behind)) := by
      cases angled <;> exact skip_of_cons (by decide) (by decide)
    rw [enclose_append, divide_cons hskip hread]
    exact congrArg (Division.cons _) (divide_lineEnd true .operands behind)

theorem operand_string (hn : ∀ c ∈ name, c ≠ '"' ∧ c ≠ '\\' ∧ c ≠ '\n') :
    Operand .operands (enclose false name) [⟨[], .string, enclose false name⟩] := by
  refine ⟨List.cons_ne_nil _ _, by simp [OneLine], fun behind => ?_, fun behind => ?_⟩
  · exact skip_of_cons (by decide) (by decide)
  · have hquotes : InQuotes '"' name := by
      induction name with
      | nil => exact .nil
      | cons c rest ih =>
        obtain ⟨⟨hq, hb, hl⟩, hrest⟩ := List.forall_mem_cons.1 hn
        exact .plain hq hb hl (ih hrest)
    have hclose := hquotes.close rfl ('\n' :: behind)
    have hopen : opening? ('"' :: (name ++ '"' :: '\n' :: behind)) =
        some ⟨[], '"', name ++ '"' :: '\n' :: behind⟩ := rfl
    have hread : read true .operands '"' (name ++ '"' :: '\n' :: behind) =
        .lexeme .string ⟨enclose false name, '\n' :: behind⟩ := by
      have hplain : Context.Plain false (.text false) := trivial
      rw [read_operands hplain (by decide) fun ha => absurd ha (by decide),
        read_fragment hplain (by decide), readText_of_not_block fun ha => absurd ha (by decide),
        readLiteral, hopen]
      simp only [hclose]
      rfl
    rw [enclose_append]
    exact (divide_cons (skip_of_cons (by decide) (by decide)) hread).trans
      (congrArg (Division.cons _) (divide_lineEnd true .operands behind))

/-! ## Whole lines -/

/-- The name of the directive that includes a file. -/
def includeWord : List Char := ['i', 'n', 'c', 'l', 'u', 'd', 'e']

/-- The name of the directive that defines a macro. -/
def defineWord : List Char := ['d', 'e', 'f', 'i', 'n', 'e']

theorem isWord_includeWord : IsWord includeWord :=
  ⟨'i', _, rfl, by decide +kernel, by decide +kernel, forall_of_all (by decide +kernel)⟩

theorem isWord_defineWord : IsWord defineWord :=
  ⟨'d', _, rfl, by decide +kernel, by decide +kernel, forall_of_all (by decide +kernel)⟩

/-- The lexemes of a directive. -/
def directive (word : List Char) (operands : List Lexeme) : List Lexeme :=
  [Inclusion.mark, ⟨[], .identifier, word⟩] ++ operands

theorem oneLine_directive (word : List Char) {operands : List Lexeme} (h : OneLine operands) :
    OneLine (directive word operands) :=
  OneLine.cons (OneLine.cons h ⟨nofun, nofun⟩) ⟨nofun, nofun⟩

/-- The line of a directive with one operand. -/
theorem divide_directive_operand {word text : List Char} (hw : IsWord word)
    (h : Operand (Context.keyword.next .identifier word) text lexemes) (behind : List Char) :
    divide true (.lineStart false) ('#' :: (word ++ ' ' :: (text ++ '\n' :: behind))) =
      (divide true (.lineStart false) behind).prepend
        (directive word (behindBlank lexemes) ++ [lineEnd]) := by
  rw [divide_directive hw, h.divide_blank]
  rfl

/-- The line that defines a macro. -/
theorem divide_define {text : List Char} (hw : IsWord name)
    (h : Operand .operands text lexemes) (behind : List Char) :
    divide true (.lineStart false)
        ('#' :: (defineWord ++ ' ' :: (name ++ ' ' :: (text ++ '\n' :: behind)))) =
      (divide true (.lineStart false) behind).prepend
        (directive defineWord (blankWord name :: behindBlank lexemes) ++ [lineEnd]) := by
  have hends : ∀ d ∈ (' ' :: (text ++ '\n' :: behind)).head?, EndsWord d :=
    fun d hd => Option.some.inj hd ▸ endsWord_blank
  rw [divide_directive isWord_defineWord, divide_blank_word hw hends]
  have hnext : (Context.keyword.next .identifier defineWord).next .identifier name =
      .operands := rfl
  rw [hnext, h.divide_blank]
  rfl

end Lexeme

end CPreprocessor

import CPreprocessor.Proofs.Lexeme.Alike
import CPreprocessor.Proofs.Unplaced.Lines
import Mathlib.Data.List.Chain

/-!
# The operands of a directive

Behind the keyword of a directive a text is divided as it is on its own, with one exception: there a
brace behind an asm keyword is a punctuator, and on its own it opens a block.

* `read_operands`: one lexeme is read alike unless a brace opens a block.
* `divide_operands`: so is the whole text if no asm keyword stands in front of a brace.
* `divide_blank`, `divide_blank_cons`: a blank in front of a text belongs to its first lexeme and
  changes nothing else.
-/

namespace CPreprocessor.Lexeme

variable {directives : Bool} {context : Context} {c : Char} {rest chars gap : List Char}
  {kind : Token.Kind}

/-! ## The equations of a division -/

theorem divide_of_unclosed {before : List Char} (hs : skip chars = .unclosed before rest) :
    divide directives context chars = ⟨[], .unclosed .comment before rest⟩ := by
  rw [divide]
  split
  · next h =>
    obtain ⟨rfl, rfl⟩ := Gap.unclosed.inj (hs.symm.trans h)
    rfl
  · next h => cases hs.symm.trans h
  · next h => cases hs.symm.trans h

theorem divide_of_end (hs : skip chars = .skipped gap []) :
    divide directives context chars = ⟨[], .complete gap context.midLine⟩ := by
  rw [divide]
  split
  · next h => cases hs.symm.trans h
  · next h =>
    obtain ⟨rfl, -⟩ := Gap.skipped.inj (hs.symm.trans h)
    rfl
  · next h => cases (Gap.skipped.inj (hs.symm.trans h)).2

theorem divide_of_open {opener : Opener} {before behind : List Char}
    (hs : skip chars = .skipped gap (c :: rest))
    (hr : read directives context c rest = .unclosed opener before behind) :
    divide directives context chars = ⟨[], .unclosed opener (gap ++ before) behind⟩ := by
  rw [divide]
  split
  · next h => cases hs.symm.trans h
  · next h => cases (Gap.skipped.inj (hs.symm.trans h)).2
  · next h =>
    obtain ⟨rfl, he⟩ := Gap.skipped.inj (hs.symm.trans h)
    obtain ⟨rfl, rfl⟩ := List.cons.inj he
    split
    · next h =>
      obtain ⟨rfl, rfl, rfl⟩ := Reading.unclosed.inj (hr.symm.trans h)
      rfl
    · next h => cases hr.symm.trans h

/-! ## One lexeme -/

theorem directiveHash?_of_midLine (h : context.midLine) : directiveHash? context chars = none := by
  cases hd : directiveHash? context chars with
  | none => rfl
  | some cut =>
    rw [midLine_of_directiveHash? hd] at h
    contradiction

theorem readText_of_not_block (h : context.afterAsm → c ≠ '\x7b') :
    readText context c rest = readLiteral c rest := by
  rw [readText, if_neg]
  intro hb
  rw [Bool.and_eq_true, decide_eq_true_eq] at hb
  exact h hb.1 hb.2

/-- A lexeme is read among the operands of a directive as it is on its own, unless it is a brace
that opens a block. -/
theorem read_operands (hp : Context.Plain false context) (hc : c ≠ '\n')
    (hb : context.afterAsm → c ≠ '\x7b') :
    read true .operands c rest = read false context c rest := by
  have hoperands : read true .operands c rest = readText .operands c rest := by
    rw [read, if_neg hc, if_pos rfl, directiveHash?_of_midLine rfl]
    rfl
  rw [hoperands, read_fragment hp hc, readText_of_not_block hb]
  refine readText_of_not_block fun h => ?_
  contradiction

theorem isAsm_of_afterAsm_next {text : List Char} (hk : kind ≠ .newline)
    (hd : kind ≠ .directiveHash) (h : (context.next kind text).afterAsm) :
    (⟨gap, kind, text⟩ : Lexeme).token.IsAsm := by
  unfold Context.next at h
  split at h
  · contradiction
  · contradiction
  · split at h
    · simp only [Context.afterAsm, Bool.and_eq_true, decide_eq_true_eq] at h
      exact ⟨h.1, List.contains_iff_mem.1 h.2⟩
    · simp only [Context.afterAsm, Bool.and_eq_true, decide_eq_true_eq] at h
      exact ⟨h.1, List.contains_iff_mem.1 h.2⟩
    · split at h <;> contradiction
    · contradiction
    · contradiction

/-! ## The whole text -/

/-- No brace stands directly behind an asm keyword. -/
def NoBlock (left right : Lexeme) : Prop := left.token.IsAsm → right.text ≠ ['\x7b']

theorem next_operands {text : List Char} (hk : kind ≠ .newline) (hd : kind ≠ .directiveHash) :
    Context.operands.next kind text = .operands := by
  cases kind <;> first | rfl | contradiction

/-- The first lexeme of the operands is no brace. -/
def NotBrace (lexemes : List Lexeme) : Prop := ∀ first ∈ lexemes.head?, first.text ≠ ['\x7b']

theorem ne_brace_of_skip (hs : skip chars = .skipped gap (c :: rest))
    (h : NotBrace (divide true .operands chars).lexemes) : c ≠ '\x7b' := by
  rintro rfl
  have hread : read true .operands '\x7b' rest = .lexeme .punctuator ⟨['\x7b'], rest⟩ := rfl
  refine h ⟨gap, .punctuator, ['\x7b']⟩ ?_ rfl
  rw [divide_cons hs hread]
  rfl

/-- The operands of a directive are divided as a text on its own is, if no brace in it would open a
block there. -/
theorem divide_operands (hn : '\n' ∉ chars) (hp : Context.Plain false context)
    (hfirst : context.afterAsm → NotBrace (divide true .operands chars).lexemes)
    (hchain : (divide true .operands chars).lexemes.IsChain NoBlock) :
    (divide true .operands chars).lexemes = (divide false context chars).lexemes ∧
      ((divide true .operands chars).ending.IsComplete ↔
        (divide false context chars).ending.IsComplete) := by
  fun_induction divide false context chars with
  | case1 context chars before rest hs =>
    rw [divide_of_unclosed hs]
    exact ⟨rfl, Iff.rfl⟩
  | case2 context chars gap hs =>
    rw [divide_of_end hs]
    exact ⟨rfl, iff_of_true trivial trivial⟩
  | case3 context chars gap c rest hs opener before behind hr =>
    have hc : c ≠ '\n' := fun he => inner_of_skip hn hs (he ▸ List.mem_cons_self)
    rw [← read_operands hp hc fun ha => ne_brace_of_skip hs (hfirst ha)] at hr
    rw [divide_of_open hs hr]
    exact ⟨rfl, Iff.rfl⟩
  | case4 context chars gap c rest hs kind cut hr ih =>
    have hin := inner_of_skip hn hs
    have hc : c ≠ '\n' := fun he => hin (he ▸ List.mem_cons_self)
    obtain ⟨hk, hrest⟩ := inner_of_read hin hr
    have hd : kind ≠ .directiveHash := fun he => absurd ((admits_read hr).hash he).1 (by decide)
    have hread := hr
    rw [← read_operands hp hc fun ha => ne_brace_of_skip hs (hfirst ha)] at hread
    have hdivide := divide_cons hs hread
    rw [next_operands hk hd] at hdivide
    rw [hdivide, Division.cons] at hchain ⊢
    obtain ⟨hhead, htail⟩ := List.isChain_cons.1 hchain
    -- Behind an asm keyword the next lexeme is no brace, since the chain goes on there.
    have hnext : (context.next kind cut.text).afterAsm →
        NotBrace (divide true .operands cut.rest).lexemes :=
      fun ha first hm => hhead first hm (isAsm_of_afterAsm_next hk hd ha)
    obtain ⟨hl, he⟩ := ih hrest (plain_next (admits_read hr) hp) hnext htail
    exact ⟨congrArg (⟨gap, kind, cut.text⟩ :: ·) hl, he⟩

/-- The lexemes of a text behind a blank. -/
def behindBlank : List Lexeme → List Lexeme
  | [] => []
  | first :: rest => { first with gap := [' '] } :: rest

theorem skip_blank (hs : skip chars = .skipped [] chars) :
    skip (' ' :: chars) = .skipped [' '] chars := by
  have hskipped : Skipped [' '] chars := .blank rfl (.nil _)
  have h := skip_of_skipped hskipped
  rw [hs] at h
  exact h

/-- A blank in front of a text only belongs to its first lexeme. -/
theorem divide_blank (directives : Bool) (context : Context)
    (hs : skip (c :: rest) = .skipped [] (c :: rest)) :
    (divide directives context (' ' :: c :: rest)).lexemes =
        behindBlank (divide directives context (c :: rest)).lexemes ∧
      ((divide directives context (' ' :: c :: rest)).ending.IsComplete ↔
        (divide directives context (c :: rest)).ending.IsComplete) := by
  have hblank := skip_blank hs
  cases hr : read directives context c rest with
  | unclosed opener before behind =>
    rw [divide_of_open hblank hr, divide_of_open hs hr]
    exact ⟨rfl, Iff.rfl⟩
  | lexeme kind cut =>
    rw [divide_cons hblank hr, divide_cons hs hr]
    exact ⟨rfl, Iff.rfl⟩

/-- The same, where the first lexeme is known. -/
theorem divide_blank_cons {lexeme : Lexeme} {division : Division}
    (hs : skip chars = .skipped [] chars)
    (hd : divide directives context chars = division.cons lexeme) :
    divide directives context (' ' :: chars) = division.cons { lexeme with gap := [' '] } := by
  obtain ⟨c, rest, cut, hskip, hread, ht, hmore⟩ := divide_eq_cons hd
  obtain ⟨-, rfl⟩ := Gap.skipped.inj (hs.symm.trans hskip)
  rw [divide_cons (skip_blank hs) hread, ht, hmore]

end CPreprocessor.Lexeme

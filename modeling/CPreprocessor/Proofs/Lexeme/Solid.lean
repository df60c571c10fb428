import CPreprocessor.Proofs.Lexeme.Class
import CPreprocessor.Proofs.Lexeme.Seam

/-!
# Texts of plain lexemes

A text without blanks, comments, literals and newlines is nothing but numbers, identifiers,
punctuators and stray characters, one directly behind the other. Among the operands of a directive
and on its own it may be divided in two ways, since braces behind an asm keyword are a block on its
own only. Both ways meet again behind the block, as a closing brace is a lexeme by itself.

* `Solid`: such a text. `Solid.induction`: lexeme by lexeme.
* `Solid.division`: the lexemes are the text, and leave nothing of it.
* `Solid.divide_newline`: what follows behind a newline changes none of them.
* `Solid.suffix_operands`: the last lexeme is the same in both ways, unless it is a block.
-/

namespace CPreprocessor.Lexeme

variable {context : Context} {c : Char} {rest chars front : List Char} {kind : Token.Kind}
  {cut : Cut}

/-- No blank, quote or newline is in the text, and no comment begins in it. -/
inductive Solid : List Char → Prop where
  | nil : Solid []
  | cons {c : Char} {rest : List Char} (hb : isBlank c = false) (hq : isQuote c = false)
      (hn : c ≠ '\n') (hs : c = '/' → ∀ d ∈ rest.head?, d ≠ '/' ∧ d ≠ '*') (h : Solid rest) :
      Solid (c :: rest)

/-- What is neither the start of a comment nor any of these characters makes a solid text. -/
theorem solid_of_not_infix (hc : ∀ d ∈ chars, isBlank d = false ∧ isQuote d = false ∧ d ≠ '\n')
    (hline : ¬['/', '/'] <:+: chars) (hblock : ¬['/', '*'] <:+: chars) : Solid chars := by
  induction chars with
  | nil => exact .nil
  | cons c rest ih =>
    obtain ⟨⟨hb, hq, hn⟩, hrest⟩ := List.forall_mem_cons.1 hc
    refine .cons hb hq hn ?_ (ih hrest (mt List.infix_cons hline) (mt List.infix_cons hblock))
    rintro rfl d hd
    obtain ⟨more, rfl⟩ := List.head?_eq_some_iff.1 hd
    constructor
    · rintro rfl
      exact hline (List.prefix_append ['/', '/'] more).isInfix
    · rintro rfl
      exact hblock (List.prefix_append ['/', '*'] more).isInfix

/-- The newline at the end of a line, with nothing in front of it. -/
def lineEnd : Lexeme := ⟨[], .newline, ['\n']⟩

theorem divide_lineEnd (directives : Bool) (context : Context) (behind : List Char) :
    divide directives context ('\n' :: behind) =
      (divide directives (.lineStart context.afterAsm) behind).cons lineEnd := by
  have hskip : skip ('\n' :: behind) = .skipped [] ('\n' :: behind) :=
    skip_lineEnd fun _ hd => (Option.some.inj hd).symm
  have hread : read directives context '\n' behind = .lexeme .newline ⟨['\n'], behind⟩ := rfl
  exact divide_cons hskip hread

theorem next_readPlain (c : Char) (rest : List Char) :
    Context.operands.next (readPlain c rest).1 (readPlain c rest).2.text = .operands := by
  obtain ⟨hk, -⟩ := isOrdinary_readPlain c rest
  refine next_operands ?_ ?_
  all_goals
    intro he
    rw [he] at hk
    contradiction

namespace Solid

theorem of_append (h : Solid (front ++ rest)) : Solid rest := by
  induction front with
  | nil => exact h
  | cons c front ih =>
    cases h with
    | cons _ _ _ _ h => exact ih h

theorem skip_eq (h : Solid chars) : skip chars = .skipped [] chars := by
  cases h with
  | nil => rw [skip]
  | cons hb _ _ hs _ => exact skip_eq_self_iff.2 ⟨hb, hs⟩

theorem not_isQuote (h : Solid chars) : ∀ d ∈ chars, isQuote d = false := by
  induction h with
  | nil => exact List.forall_mem_nil _
  | cons _ hq _ _ _ ih => exact List.forall_mem_cons.2 ⟨hq, ih⟩

/-- No literal begins in the text. -/
theorem opening?_eq (h : Solid chars) : opening? chars = none := by
  refine Option.eq_none_iff_forall_ne_some.2 fun opening ho => ?_
  obtain ⟨he, hq⟩ := eq_of_opening? ho
  have hquote : opening.quote ∈ chars := by
    rw [he]
    exact List.mem_append_right _ List.mem_cons_self
  rw [h.not_isQuote _ hquote] at hq
  contradiction

/-- The first lexeme is a plain one, whether the text stands on its own or not. -/
theorem read_eq (h : Solid (c :: rest)) :
    read true .operands c rest = .lexeme (readPlain c rest).1 (readPlain c rest).2 := by
  have hc : c ≠ '\n' := by
    cases h with
    | cons _ _ hn => exact hn
  have hplain : Context.Plain false (.text false) := trivial
  rw [read_operands hplain hc fun ha => absurd ha (by decide), read_fragment hplain hc,
    readText_of_not_block fun ha => absurd ha (by decide), readLiteral, h.opening?_eq]

theorem rest_readPlain (h : Solid (c :: rest)) : Solid (readPlain c rest).2.rest := by
  rw [← (whole_readPlain c rest).1, Cut.whole] at h
  exact h.of_append

theorem divide_cons (h : Solid (c :: rest)) : divide true .operands (c :: rest) =
    (divide true .operands (readPlain c rest).2.rest).cons
      ⟨[], (readPlain c rest).1, (readPlain c rest).2.text⟩ := by
  rw [Lexeme.divide_cons h.skip_eq h.read_eq, next_readPlain]

/-- Induction over the lexemes of the text. -/
theorem induction {motive : (chars : List Char) → Solid chars → Prop} (nil : motive [] .nil)
    (cons : ∀ c rest (h : Solid (c :: rest)), motive _ h.rest_readPlain → motive (c :: rest) h)
    {chars : List Char} (h : Solid chars) : motive chars h := by
  induction hn : chars.length using Nat.strong_induction_on generalizing chars with
  | _ n ih =>
    cases chars with
    | nil => exact nil
    | cons c rest =>
      obtain ⟨hwhole, hne⟩ := whole_readPlain c rest
      exact cons c rest h (ih _ (hn ▸ Cut.length_rest_lt hwhole hne) h.rest_readPlain rfl)

/-- The lexemes are the text. Nothing stands between them, and nothing is left open. -/
theorem division (h : Solid chars) :
    ∃ lexemes, divide true .operands chars = ⟨lexemes, .complete [] true⟩ ∧
      lexemes.flatMap Lexeme.text = chars ∧
      ∀ lexeme ∈ lexemes, lexeme.gap = [] ∧ lexeme.kind.isOrdinary ∧ lexeme.kind ≠ .string := by
  induction h using Solid.induction with
  | nil => exact ⟨[], divide_nil true .operands, rfl, List.forall_mem_nil _⟩
  | cons c rest h ih =>
    obtain ⟨lexemes, hd, ht, hl⟩ := ih
    refine ⟨_, (h.divide_cons).trans (congrArg (Division.cons _) hd), ?_,
      List.forall_mem_cons.2 ⟨⟨rfl, isOrdinary_readPlain c rest⟩, hl⟩⟩
    rw [List.flatMap_cons, ht]
    exact (whole_readPlain c rest).1

/-- A newline behind the text ends its last lexeme. -/
theorem divide_newline (h : Solid chars) (behind : List Char) :
    divide true .operands (chars ++ '\n' :: behind) =
      (divide true (.lineStart false) behind).prepend
        ((divide true .operands chars).lexemes ++ [lineEnd]) := by
  have hb : Alike [] ('\n' :: behind) := alike_cons (by decide) (by decide) behind
  induction h using Solid.induction with
  | nil =>
    rw [divide_nil]
    exact divide_lineEnd true .operands behind
  | cons c rest h ih =>
    have hplain : Context.Plain false (.text false) := trivial
    have hc : c ≠ '\n' := by
      cases h with
      | cons _ _ hn => exact hn
    have hends (more : List Char) : read true .operands c more = read false (.text false) c more :=
      read_operands hplain hc fun ha => absurd ha (by decide)
    have hread := h.read_eq
    rw [hends] at hread
    have hmore := read_before hplain hb hread
    rw [← hends] at hmore
    have hdivide := Lexeme.divide_cons (skip_before hb h.skip_eq) hmore
    rw [next_readPlain, ih] at hdivide
    rw [h.divide_cons]
    exact hdivide

end Solid

/-! ## Braces -/

theorem not_mem_tail_readPlain (c : Char) (rest : List Char) :
    '\x7d' ∉ (readPlain c rest).2.text.tail := by
  have hbrace : ∀ exponent, ¬(Unicode.isWord '\x7d' || '\x7d' = '.' ||
      (exponent && ('\x7d' = '+' || '\x7d' = '-'))) := by decide +kernel
  have htail (exponent : Bool) (chars : List Char) :
      '\x7d' ∉ (numberTail exponent chars).text := by
    fun_induction numberTail exponent chars with
    | case1 | case3 => exact List.not_mem_nil
    | case2 exponent c rest hc ih =>
      refine List.not_mem_cons_of_ne_of_not_mem ?_ ih
      rintro rfl
      exact hbrace exponent hc
  unfold readPlain
  split
  · exact htail false rest
  · split
    · intro hm
      have hword : Unicode.isWord '\x7d' = false := by decide +kernel
      exact absurd (List.mem_takeWhile_imp hm) (by simp [hword])
    · split
      · next found =>
        have hall : ∀ text ∈ punctuatorTexts, '\x7d' ∉ text.tail := by decide +kernel
        exact hall _ (whole_punctuator? found).2
      · exact List.not_mem_nil

/-- Behind a closing brace the division begins anew. -/
theorem Solid.divide_brace (h : Solid (front ++ '\x7d' :: rest)) :
    ∃ lexemes, divide true .operands (front ++ '\x7d' :: rest) =
      (divide true .operands rest).prepend lexemes := by
  generalize hc : front ++ '\x7d' :: rest = chars at h
  induction h using Solid.induction generalizing front with
  | nil => exact absurd hc (by simp)
  | cons c more h ih =>
    rw [h.divide_cons]
    cases front with
    | nil =>
      obtain ⟨rfl, rfl⟩ := List.cons.inj hc
      exact ⟨[⟨[], .punctuator, ['\x7d']⟩], rfl⟩
    | cons d front =>
      obtain ⟨rfl, hmore⟩ := List.cons.inj hc
      -- The lexeme ends in front of the brace.
      obtain ⟨behind, hbehind⟩ :
          ∃ behind, behind ++ '\x7d' :: rest = (readPlain d more).2.rest := by
        obtain ⟨hwhole, hne⟩ := whole_readPlain d more
        have htail := not_mem_tail_readPlain d more
        obtain ⟨e, tail, ht⟩ := List.exists_cons_of_ne_nil hne
        rw [Cut.whole, ht] at hwhole
        rw [ht] at htail
        have hsplit := (List.cons.inj hwhole).2.trans hmore.symm
        rcases List.append_eq_append_iff.1 hsplit with ⟨inner, rfl, hrest⟩ | ⟨inner, rfl, hrest⟩
        · exact ⟨inner, hrest.symm⟩
        · cases inner with
          | nil => exact ⟨[], hrest⟩
          | cons e inner =>
            obtain ⟨rfl, -⟩ := List.cons.inj hrest
            exact absurd (List.mem_append_right _ List.mem_cons_self) htail
      obtain ⟨lexemes, hd⟩ := ih hbehind
      exact ⟨_ :: lexemes, congrArg (Division.cons _) hd⟩

/-- The last lexeme of a text on its own is the last one among the operands of a directive as well,
unless it is a block. -/
theorem Solid.suffix_operands (h : Solid chars) (hp : Context.Plain false context) {last : Lexeme}
    (hc : (divide false context chars).ending.IsComplete)
    (hl : [last] <:+ (divide false context chars).lexemes) (hk : last.kind ≠ .asmBlock) :
    [last] <:+ (divide true .operands chars).lexemes := by
  fun_induction divide false context chars with
  | case1 | case2 | case3 => exact absurd hl (by simp)
  | case4 context chars gap c rest hs kind cut hr ih =>
    obtain ⟨rfl, rfl⟩ := Gap.skipped.inj (h.skip_eq.symm.trans hs)
    have hplain := plain_next (admits_read hr) hp
    have hline : c ≠ '\n' := by
      cases h with
      | cons _ _ hn => exact hn
    by_cases hblock : context.afterAsm ∧ c = '\x7b'
    · -- The block ends with a brace, behind which both ways go on alike.
      obtain ⟨ha, rfl⟩ := hblock
      rw [read_fragment hp hline, readText, if_pos (by simp [ha])] at hr
      split at hr
      · next block hclose =>
        obtain ⟨rfl, rfl⟩ := Reading.lexeme.inj hr
        obtain ⟨inner, ht⟩ := text_closeBrace? hclose
        have hwhole := whole_closeBrace? hclose
        rw [Cut.whole, ht, List.append_assoc, List.singleton_append] at hwhole
        obtain rfl := hwhole
        have hbrace : Solid ('\x7b' :: inner ++ '\x7d' :: block.rest) := h
        obtain ⟨lexemes, hd⟩ := hbrace.divide_brace
        have hrest : Solid block.rest := by
          rw [List.append_cons] at hbrace
          exact hbrace.of_append
        rcases List.suffix_cons_iff.1 hl with he | hl
        · obtain ⟨rfl, -⟩ := List.cons.inj he
          contradiction
        · have hlast := ih hrest hplain hc hl
          rw [show '\x7b' :: (inner ++ '\x7d' :: block.rest) =
            '\x7b' :: inner ++ '\x7d' :: block.rest from rfl, hd]
          exact hlast.trans (List.suffix_append _ _)
      · contradiction
    · have hread := h.read_eq
      rw [read_operands hp hline fun ha he => hblock ⟨ha, he⟩, hr] at hread
      obtain ⟨rfl, rfl⟩ := Reading.lexeme.inj hread
      rw [h.divide_cons]
      rcases List.suffix_cons_iff.1 hl with he | hl
      · -- Nothing is left behind the last lexeme.
        obtain ⟨rfl, hnone⟩ := List.cons.inj he
        obtain ⟨gap, hs, -⟩ := eq_of_divide_nil (congrArg (Division.mk · _) hnone.symm) hc
        have hnil := (Gap.skipped.inj (h.rest_readPlain.skip_eq.symm.trans hs)).2
        rw [hnil, divide_nil]
        exact List.suffix_refl _
      · exact (ih h.rest_readPlain hplain hc hl).trans (List.suffix_cons _ _)

end CPreprocessor.Lexeme

import CPreprocessor.Proofs.Expansion.SideBySide
import CPreprocessor.Proofs.Lexeme.Seam
import CPreprocessor.Proofs.Macro.Equivalent
import CPreprocessor.Proofs.Unfinished

/-!
# Line breaks in a text

A line terminator in a text only separates tokens. A blank in its place leaves the spelling of all
tokens, but those behind it stand elsewhere then. That does not count in an expansion, except where
a name stands for its line. An argument that is taken as text is the same as long as its tokens have
their blanks recorded alike in both texts.

* `LineBreak`: a line terminator that is not spliced away and stands outside comments.
* `LineBreak.scan_eq`, `lexFragment_lineBreak`: the lexemes and the tokens of a text with a line
  break in it, and with a blank in its place.
* `expand_lineBreak`: what both texts are expanded to. `lineBreak_shows`: a name that stands for its
  line tells them apart.
-/

namespace CPreprocessor

open Source Lexeme Expansion

variable {file before mark behind whole : String} {tokens : List Token}

/-- A line terminator between two texts that is not spliced away and stands outside comments. -/
structure LineBreak (before mark behind : String) : Prop where
  terminates : Terminates mark.toList behind.toList
  apart : Apart before.toList (mark.toList ++ behind.toList)
  kept : before.toList.getLast? ≠ some '\\'
  outside : (scan false false before).ending.Outside

/-! ## Tokens in front of a cut -/

theorem lex_eq_locate (file source : String) : lex false false file source =
    Lexed.locate file (finish (splice false source.toList)) (scan false false source).ending
      (splice false source.toList) (scan false false source).lexemes := by
  refine lex_eq rfl ?_
  rw [scan, ← map_char_splice]
  rfl

variable (file) in
/-- The tokens in front of a cut keep their places. -/
theorem words_prefix {right : List Char} {more : List Lexeme}
    (hw : whole.toList = before.toList ++ right) (ha : Apart before.toList right)
    (hb : before.toList.getLast? ≠ some '\\')
    (hc : (scan false false before).ending.IsComplete)
    (hl : (scan false false whole).lexemes = (scan false false before).lexemes ++ more) :
    (lex false false file before).words <+: (lex false false file whole).words := by
  obtain ⟨rest, hsplice⟩ := exists_spliceFrom_append 1 1 ha fun h => absurd h hb
  obtain ⟨tail, hsplit, -⟩ := divide_before (plain_lineStart false) (phases false before.toList)
  have hchars : Lexed.spelling (splice false before.toList) =
      (scan false false before).lexemes.flatMap Lexeme.whole ++ tail :=
    (map_char_splice false before.toList).trans hsplit
  obtain ⟨chars, gap, hcut, hspelling, -⟩ := Lexed.exists_of_spelling_append hchars
  obtain ⟨front, hlocate⟩ := Lexed.exists_locate_append file hspelling text_ne_nil_of_mem_divide
  have hsame : splice false whole.toList = chars ++ (gap ++ rest) := by
    rw [hw, ← List.append_assoc, ← hcut]
    exact hsplice
  have hbefore := lex_eq_locate file before
  have hwhole := lex_eq_locate file whole
  rw [hcut, ← List.append_nil (scan false false before).lexemes, hlocate] at hbefore
  rw [hsame, hl, hlocate] at hwhole
  -- Behind its last lexeme a text has no tokens that count.
  obtain ⟨skipped, hending⟩ : ∃ skipped, (scan false false before).ending = .complete skipped _ :=
    ending_eq hc
  rw [hbefore, hwhole, Lexed.words, Lexed.words, List.filter_append, List.filter_append, hending]
  have hnone (midLine : Bool) : (Lexed.locate file (finish (chars ++ gap))
      (.complete skipped midLine) gap []).tokens.filter (fun token =>
        token.kind ≠ .newline && token.kind ≠ .endOfFile) = [] := by
    cases midLine <;> rfl
  rw [hnone, List.append_nil]
  exact List.prefix_append _ _

/-! ## Lexemes around a line break -/

namespace LineBreak

/-- The logical texts with the line break and with a blank in its place. -/
theorem phases_eq (hb : LineBreak before mark behind) :
    phases false (before ++ mark ++ behind).toList =
        phases false before.toList ++ '\n' :: phases false behind.toList ∧
      phases false (before ++ " " ++ behind).toList =
        phases false before.toList ++ ' ' :: phases false behind.toList := by
  have hinner : Inner ' ' := by decide
  have happart : Apart before.toList (' ' :: behind.toList) :=
    fun _ hd => hinner.2 (Option.some.inj hd)
  constructor
  · rw [String.toList_append, String.toList_append, List.append_assoc, phases_cut hb.apart hb.kept,
      phases_terminator hb.terminates]
  · rw [String.toList_append, String.toList_append, List.append_assoc]
    exact (phases_cut happart hb.kept).trans
      (congrArg _ (phases_cons false hinner (by decide) (by decide) _))

/-- Behind a text without asm keywords braces are ordinary. -/
theorem not_afterAsm (hb : LineBreak before mark behind)
    (h : ∀ lexeme ∈ (scan false false (before ++ mark ++ behind)).lexemes, ¬lexeme.token.IsAsm) :
    ¬((Context.lineStart false).behind (scan false false before).lexemes).afterAsm := by
  intro ha
  obtain ⟨last, hl, hasm⟩ := Context.isAsm_of_afterAsm ha
  obtain ⟨tail, -, -, -, hmore⟩ :=
    divide_before (plain_lineStart false) (phases false before.toList)
  refine h last ?_ hasm
  have hin := (List.mem_filter.1 (List.mem_of_getLast? hl)).1
  rw [scan, hb.phases_eq.1, hmore _ (alike_cons (d := '\n') (by decide) (by decide) _)]
  exact List.mem_append_left _ hin

/-- A line break is a lexeme of its own, and a blank in its place only belongs to the lexeme behind
it. -/
theorem scan_eq (hb : LineBreak before mark behind)
    (h : (scan false false (before ++ mark ++ behind)).ending.IsComplete)
    (ha : ∀ lexeme ∈ (scan false false (before ++ mark ++ behind)).lexemes, ¬lexeme.token.IsAsm) :
    (scan false false before).ending.IsComplete ∧
      (scan false false (before ++ " " ++ behind)).ending.IsComplete ∧
      ∃ gap,
        (scan false false (before ++ mark ++ behind)).lexemes =
          (scan false false before).lexemes ++
            ⟨gap, .newline, ['\n']⟩ :: (scan false false behind).lexemes ∧
        (scan false false (before ++ " " ++ behind)).lexemes =
          (scan false false before).lexemes ++
            behindGap (gap ++ [' ']) (scan false false behind).lexemes := by
  have hnot := hb.not_afterAsm ha
  obtain ⟨hbreak, hblank⟩ := hb.phases_eq
  unfold scan at h hnot ⊢
  rw [hbreak] at h ⊢
  rw [hblank]
  exact divide_newline (plain_lineStart false) h hnot hb.outside

end LineBreak

/-! ## Tokens around a line break -/

/-- The class and the spelling of a token. -/
def Token.spelled (token : Token) : Token.Kind × String := (token.kind, token.text)

namespace Lexeme

/-- The tokens of lexemes, newlines aside. -/
def wordsOf (lexemes : List Lexeme) : List Token :=
  (lexemes.filter (·.kind ≠ .newline)).map token

theorem wordsOf_append (front rest : List Lexeme) :
    wordsOf (front ++ rest) = wordsOf front ++ wordsOf rest := by
  rw [wordsOf, List.filter_append, List.map_append]
  rfl

theorem spelled_behindGap (gap : List Char) (lexemes : List Lexeme) :
    (wordsOf (behindGap gap lexemes)).map Token.spelled =
      (wordsOf lexemes).map Token.spelled := by
  cases lexemes with
  | nil => rfl
  | cons first rest =>
    by_cases hk : first.kind = .newline <;> simp [behindGap, wordsOf, hk, token, Token.spelled]

/-- More blanks do not count before a token that has some. -/
theorem wordsOf_behindGap {lexemes : List Lexeme} (gap : List Char)
    (h : ∀ first ∈ lexemes.head?, first.gap ≠ []) :
    wordsOf (behindGap gap lexemes) = wordsOf lexemes := by
  cases lexemes with
  | nil => rfl
  | cons first rest =>
    have hgap : (gap ++ first.gap).isEmpty = first.gap.isEmpty := by
      have hne := h first rfl
      rw [List.isEmpty_eq_false_iff.2 hne, List.isEmpty_eq_false_iff.2 (by simp [hne])]
    by_cases hk : first.kind = .newline <;> simp [behindGap, wordsOf, hk, token, hgap]

/-- The first lexeme of a text that begins with a blank has blanks before it. -/
theorem gap_ne_nil_of_blank {text : String} (h : ∃ c ∈ text.toList.head?, isBlank c) :
    ∀ first ∈ (scan false false text).lexemes.head?, first.gap ≠ [] := by
  obtain ⟨c, hc, hblank⟩ := h
  obtain ⟨rest, ht⟩ := List.head?_eq_some_iff.1 hc
  have hplain : Inner c ∧ c ≠ '?' ∧ c ≠ '\\' := by
    simp only [isBlank, Bool.or_eq_true, decide_eq_true_eq] at hblank
    rcases hblank with ((rfl | rfl) | rfl) | rfl <;> decide
  have hskipped : Skipped [c] (phases false rest) := .blank hblank (.nil _)
  rw [scan, ht, phases_cons false hplain.1 hplain.2.1 hplain.2.2]
  have hdivide := (divide_skipped false (.lineStart false) hskipped).1
  rw [List.singleton_append] at hdivide
  rw [hdivide]
  intro first hm
  cases hl : (divide false (.lineStart false) (phases false rest)).lexemes with
  | nil =>
    rw [hl] at hm
    contradiction
  | cons lexeme lexemes =>
    rw [hl] at hm
    obtain rfl := Option.some.inj hm
    exact List.cons_ne_nil _ _

end Lexeme

theorem unplaced_words_eq (file source : String) :
    (lex false false file source).words.map Token.unplaced =
      wordsOf (scan false false source).lexemes := unplaced_words false false file source

/-- The tokens of a text with a line break in it, and with a blank in its place: those in front are
the same, and those behind are spelled alike. -/
theorem lexFragment_lineBreak (hb : LineBreak before mark behind)
    (h : lexFragment file (before ++ mark ++ behind) = .ok tokens)
    (ha : ∀ token ∈ tokens, ¬token.IsAsm) :
    ∃ front rest others, lexFragment file before = .ok front ∧ tokens = front ++ rest ∧
      lexFragment file (before ++ " " ++ behind) = .ok (front ++ others) ∧
      others.map Token.spelled = rest.map Token.spelled ∧
      ((∃ c ∈ behind.toList.head?, isBlank c) →
        others.map Token.space = rest.map Token.space) := by
  obtain ⟨hissue, rfl⟩ := lexFragment_eq_ok_iff.1 h
  have hlexemes : ∀ lexeme ∈ (scan false false (before ++ mark ++ behind)).lexemes,
      ¬lexeme.token.IsAsm := by
    intro lexeme hl hasm
    have hk : lexeme.kind ≠ .newline := fun hk => absurd (hasm.1.symm.trans hk) (by decide)
    have hm : lexeme.token ∈ wordsOf (scan false false (before ++ mark ++ behind)).lexemes :=
      List.mem_map_of_mem (List.mem_filter.2 ⟨hl, decide_eq_true hk⟩)
    rw [← unplaced_words_eq file] at hm
    obtain ⟨word, hw, he⟩ := List.mem_map.1 hm
    rw [← he] at hasm
    exact ha word hw hasm
  obtain ⟨hbefore, hblank, gap, hbreak, hjoined⟩ :=
    hb.scan_eq ((issue_lex false false file _).1 hissue) hlexemes
  have hfront := lexFragment_eq_ok_iff.2 ⟨(issue_lex false false file before).2 hbefore, rfl⟩
  have hothers := lexFragment_eq_ok_iff.2 ⟨(issue_lex false false file _).2 hblank, rfl⟩
  have hassoc (middle : String) : (before ++ middle ++ behind).toList =
      before.toList ++ (middle.toList ++ behind.toList) := by
    rw [String.toList_append, String.toList_append, List.append_assoc]
  have hapart : Apart before.toList (" ".toList ++ behind.toList) :=
    fun _ hd => absurd (Option.some.inj hd) (by decide)
  obtain ⟨rest, hrest⟩ := words_prefix file (hassoc mark) hb.apart hb.kept hbefore hbreak
  obtain ⟨others, hsplit⟩ := words_prefix file (hassoc " ") hapart hb.kept hbefore hjoined
  have hrestWords : rest.map Token.unplaced = wordsOf (scan false false behind).lexemes := by
    have hwords := unplaced_words_eq file (before ++ mark ++ behind)
    rw [← hrest, hbreak, List.map_append, unplaced_words_eq, wordsOf_append] at hwords
    exact List.append_cancel_left hwords
  have hotherWords : others.map Token.unplaced =
      wordsOf (behindGap (gap ++ [' ']) (scan false false behind).lexemes) := by
    have hwords := unplaced_words_eq file (before ++ " " ++ behind)
    rw [← hsplit, hjoined, List.map_append, unplaced_words_eq, wordsOf_append] at hwords
    exact List.append_cancel_left hwords
  have hspelled (tokens : List Token) :
      tokens.map Token.spelled = (tokens.map Token.unplaced).map Token.spelled := by
    rw [List.map_map]
    rfl
  have hspace (tokens : List Token) :
      tokens.map Token.space = (tokens.map Token.unplaced).map Token.space := by
    rw [List.map_map]
    rfl
  refine ⟨_, rest, others, hfront, hrest.symm, hsplit ▸ hothers, ?_, fun hc => ?_⟩
  · rw [hspelled, hspelled rest, hrestWords, hotherWords, spelled_behindGap]
  · rw [hspace, hspace rest, hrestWords, hotherWords,
      wordsOf_behindGap _ (gap_ne_nil_of_blank hc)]

/-! ## The expansions of both texts -/

/-- The tokens of a fragment stand in its file, and no two at the same place. -/
theorem positions_lexFragment (h : lexFragment file whole = .ok tokens) :
    (∀ token ∈ tokens, token.position.file = file) ∧
      (tokens.map Token.position).Pairwise Position.Before := by
  obtain ⟨hissue, rfl⟩ := lexFragment_eq_ok_iff.1 h
  obtain ⟨account, hincreasing⟩ := Lexed.account_lex hissue
  have hfile : ∀ token ∈ account.real, token.position.file = file := by
    have hcovers := account.covers
    generalize account.pieces = pieces, account.real = real at hcovers
    induction hcovers with
    | nil => exact List.forall_mem_nil _
    | cons hc _ ih =>
      obtain ⟨first, -, he⟩ := hc.position
      exact List.forall_mem_cons.2 ⟨congrArg Position.file he, ih⟩
  have hwords : (lex false false file whole).words.Sublist account.real := by
    let isWord (token : Token) : Bool := token.kind ≠ .newline && token.kind ≠ .endOfFile
    have hclosing (midLine : Bool) : (Lexed.closing account.stop midLine).filter isWord = [] := by
      cases midLine <;> rfl
    have hfilter := congrArg (List.filter isWord) account.tokens_eq
    rw [List.filter_append, List.filter_append, hclosing, List.append_nil] at hfilter
    have hwords : (lex false false file whole).words = account.real.filter isWord :=
      hfilter.trans (List.append_nil _)
    exact hwords ▸ List.filter_sublist
  exact ⟨fun token hm => hfile token (hwords.mem hm),
    hincreasing.sublist (hwords.map Token.position)⟩

/-- Tokens that are spelled alike and stand in one file agree, if none of them is kept in its
place. -/
theorem resemblesAll_of_spelled {kept : Position → Prop} {spaced : Prop}
    {lefts rights : List Token} (hs : rights.map Token.spelled = lefts.map Token.spelled)
    (hb : spaced → rights.map Token.space = lefts.map Token.space)
    (hl : ∀ token ∈ lefts, token.hide = ∅ ∧ token.position.file = file ∧ ¬kept token.position)
    (hr : ∀ token ∈ rights, token.hide = ∅ ∧ token.position.file = file) :
    ResemblesAll kept spaced lefts rights := by
  induction lefts generalizing rights with
  | nil =>
    obtain rfl := List.map_eq_nil_iff.1 hs
    exact .nil
  | cons left lefts ih =>
    obtain ⟨right, rights, rfl, hspelled, hrest⟩ := List.map_eq_cons_iff.1 hs
    obtain ⟨⟨hhide, hfile, hkept⟩, hlefts⟩ := List.forall_mem_cons.1 hl
    obtain ⟨⟨hhide', hfile'⟩, hrights⟩ := List.forall_mem_cons.1 hr
    obtain ⟨hkind, htext⟩ := Prod.mk.inj hspelled
    exact .cons ⟨hkind, htext, hhide'.trans hhide.symm, hfile'.trans hfile.symm,
      fun h => absurd h hkept, fun h => (List.cons.inj (hb h)).1⟩
      (ih hrest (fun h => (List.cons.inj (hb h)).2) hlefts hrights)

/-- The tokens of two texts agree that are the same in front and spelled alike behind. -/
theorem resemblesAll_of_lexFragment {text other : String} {front rest others : List Token}
    (h : lexFragment file text = .ok (front ++ rest))
    (ho : lexFragment file other = .ok (front ++ others))
    (hs : others.map Token.spelled = rest.map Token.spelled) :
    ResemblesAll (· ∈ front.map Token.position)
      ((front ++ others).map Token.space = (front ++ rest).map Token.space)
      (front ++ rest) (front ++ others) := by
  obtain ⟨hfile, hincreasing⟩ := positions_lexFragment h
  obtain ⟨hfile', -⟩ := positions_lexFragment ho
  have hhide := hide_of_mem_lexFragment h
  have hhide' := hide_of_mem_lexFragment ho
  have hmoved : ∀ token ∈ rest, token.position ∉ front.map Token.position := by
    intro token hm hin
    rw [List.map_append, List.pairwise_append] at hincreasing
    have hbefore := hincreasing.2.2 _ hin _ (List.mem_map_of_mem hm)
    unfold Position.Before at hbefore
    omega
  have hrest : ∀ token ∈ rest, token.hide = ∅ ∧ token.position.file = file ∧
      token.position ∉ front.map Token.position := fun token hm =>
    have hin := List.mem_append_right front hm
    ⟨hhide token hin, hfile token hin, hmoved token hm⟩
  have hothers : ∀ token ∈ others, token.hide = ∅ ∧ token.position.file = file := fun token hm =>
    have hin := List.mem_append_right front hm
    ⟨hhide' token hin, hfile' token hin⟩
  refine List.rel_append (List.forall₂_same.2 fun token _ => .refl token) ?_
  refine resemblesAll_of_spelled hs (fun hspace => ?_) hrest hothers
  rw [List.map_append, List.map_append] at hspace
  exact List.append_cancel_left hspace

/-- What is told of an event: the class and the spelling of a token, or the family and the wording
of an issue. -/
def Expansion.Event.told : Event → (Token.Kind × String) ⊕ (Category × String)
  | token produced => .inl produced.spelled
  | issue raised => .inr (raised.fault.category, raised.fault.message)

theorem Expansion.told_eq {kept : Position → Prop} {spaced : Prop} {events events' : List Event}
    (h : List.Forall₂ (Event.Resembles kept spaced) events events') :
    events'.map Event.told = events.map Event.told := by
  induction h with
  | nil => rfl
  | cons he _ ih =>
    rw [List.map_cons, List.map_cons, ih]
    cases he with
    | token h => rw [Event.told, Event.told, Token.spelled, Token.spelled, h.kind, h.text]
    | issue h => rw [Event.told, Event.told, h]

/-- A line terminator that stands outside comments and is not spliced away can be replaced by a
blank. The tokens are spelled as before, and those in front of it stand where they stood. They are
expanded to tokens that are spelled as before, with the same issues, as long as no name that stands
for its line is behind the terminator, and arguments that are taken as text have blanks at the same
places. They have if the next line begins with a blank. -/
theorem expand_lineBreak (table : Macro.Table) (hb : LineBreak before mark behind)
    (h : lexFragment file (before ++ mark ++ behind) = .ok tokens)
    (ha : ∀ token ∈ tokens, ¬token.IsAsm) :
    ∃ front joined, lexFragment file before = .ok front ∧ front <+: tokens ∧
      lexFragment file (before ++ " " ++ behind) = .ok joined ∧ front <+: joined ∧
      joined.map Token.spelled = tokens.map Token.spelled ∧
      ((∃ c ∈ behind.toList.head?, isBlank c) →
        joined.map Token.space = tokens.map Token.space) ∧
      (Unaffected (· ∈ front.map Token.position)
          (joined.map Token.space = tokens.map Token.space) table tokens joined →
        (expand table joined).map Event.told = (expand table tokens).map Event.told) := by
  obtain ⟨front, rest, others, hfront, rfl, hothers, hspelled, hblank⟩ :=
    lexFragment_lineBreak hb h ha
  refine ⟨front, front ++ others, hfront, List.prefix_append _ _, hothers,
    List.prefix_append _ _, ?_, fun hc => ?_, fun hu => ?_⟩
  · rw [List.map_append, List.map_append, hspelled]
  · rw [List.map_append, List.map_append, hblank hc]
  · have hall := resemblesAll_of_lexFragment h hothers hspelled
    exact told_eq (resembles_drain hu .start hall).events

/-- A call over two lines, the second one indented, with a stringized argument, a pasted one and a
name in front that stands for its line. -/
theorem expand_lineBreak_call :
    let table := (∅ : Macro.Table).install (fragmentMacro "a.h" "F(x) #x x##1")
    let tokens := fragment "main.c" "__LINE__ F(a\r\n  b)"
    LineBreak "__LINE__ F(a" "\r\n" "  b)" ∧
      lexFragment "main.c" ("__LINE__ F(a" ++ "\r\n" ++ "  b)") = .ok tokens ∧
      (∀ token ∈ tokens, ¬token.IsAsm) ∧
      ∃ front joined, lexFragment "main.c" "__LINE__ F(a" = .ok front ∧
        lexFragment "main.c" ("__LINE__ F(a" ++ " " ++ "  b)") = .ok joined ∧
        Unaffected (· ∈ front.map Token.position)
          (joined.map Token.space = tokens.map Token.space) table tokens joined ∧
        (expand table joined).map Event.told = (expand table tokens).map Event.told := by
  intro table tokens
  have hending : (scan false false "__LINE__ F(a").ending = .complete [] true := by decide +kernel
  have hb : LineBreak "__LINE__ F(a" "\r\n" "  b)" := by
    refine ⟨.crlf _, fun hl => absurd hl (by decide), by decide, ?_⟩
    rw [hending]
    exact Spaced.nil
  have h : lexFragment "main.c" ("__LINE__ F(a" ++ "\r\n" ++ "  b)") = .ok tokens := by
    decide +kernel
  have ha : ∀ token ∈ tokens, ¬token.IsAsm := by decide +kernel
  obtain ⟨front, joined, hfront, -, hjoined, -, -, hblank, hexpand⟩ :=
    expand_lineBreak table hb h ha
  have hfirst : lexFragment "main.c" "__LINE__ F(a" = .ok (fragment "main.c" "__LINE__ F(a") := by
    decide +kernel
  obtain rfl := Except.ok.inj (hfirst.symm.trans hfront)
  have hspace := hblank ⟨' ', by decide, rfl⟩
  have htrail : ∀ lefts ∈ trail table 5 tokens, ∀ more ∈ following table lefts,
      more ∈ trail table 5 tokens := by
    decide +kernel
  have hlines : ∀ lefts ∈ trail table 5 tokens, ∀ left ∈ lefts.head?, NeedsPlace table left →
      left.text = "__LINE__" →
      left.position ∈ (fragment "main.c" "__LINE__ F(a").map Token.position := by
    decide +kernel
  have hu : Unaffected (· ∈ (fragment "main.c" "__LINE__ F(a").map Token.position)
      (joined.map Token.space = tokens.map Token.space) table tokens joined :=
    ⟨fun ht => hlines _ (ht.mem_trail htrail) _ rfl, .inl hspace⟩
  exact ⟨hb, h, ha, _, joined, hfirst, hjoined, hu, hexpand hu⟩

/-- A name that stands for its line gives another number where a blank is in the place of a line
terminator: lines are counted as they stand in the file. -/
theorem lineBreak_shows :
    LineBreak "" "\n" "__LINE__" ∧
      ∃ tokens joined, lexFragment "main.c" ("" ++ "\n" ++ "__LINE__") = .ok tokens ∧
        lexFragment "main.c" ("" ++ " " ++ "__LINE__") = .ok joined ∧
        (∀ token ∈ tokens, ¬token.IsAsm) ∧
        (expand ∅ tokens).map Event.told = [.inl (.number, "2")] ∧
        (expand ∅ joined).map Event.told = [.inl (.number, "1")] := by
  have hending : (scan false false "").ending = .complete [] false := by decide +kernel
  have houtside : (scan false false "").ending.Outside := hending ▸ Spaced.nil
  have hexpand {token : Token} (produced : Token)
      (hs : step ∅ false token [] = .emit produced) :
      (expand ∅ [token]).map Event.told = [.inl produced.spelled] := by
    rw [expand_cons, hs]
    change List.map Event.told (.token produced :: expand ∅ []) = _
    rw [expand_nil]
    rfl
  refine ⟨⟨.lf _, nofun, nofun, houtside⟩, [⟨.identifier, "__LINE__", ⟨"main.c", 2, 1⟩, ∅, false⟩],
    [⟨.identifier, "__LINE__", ⟨"main.c", 1, 2⟩, ∅, true⟩], by decide +kernel, by decide +kernel,
    by decide, ?_, ?_⟩
  · exact hexpand ⟨.number, "2", ⟨"main.c", 2, 1⟩, ∅, false⟩ (by decide +kernel)
  · exact hexpand ⟨.number, "1", ⟨"main.c", 1, 2⟩, ∅, true⟩ (by decide +kernel)

end CPreprocessor

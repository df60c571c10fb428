import CPreprocessor.Proofs.Lexeme.Alike
import CPreprocessor.Proofs.Unplaced.Substitution

/-!
# Rendered text

Tokens are rendered with one blank where blanks or comments stood between two of them. Read again,
that text gives the same tokens: two of them that touch are read alike in front of what follows, and
nothing that was apart comes together.

* `Lexeme.respaced`, `respace`: lexemes with a blank for what was skipped in front of them, and with
  nothing in front of the first.
* `divide_respaced`: the text of such lexemes is divided into them.
* `lexFragment_render`: all of it, for the tokens of a fragment.
-/

namespace CPreprocessor

open Source Lexeme

namespace Lexeme

variable {context : Context} {chars other : List Char}

/-- A blank for what was skipped. -/
def respaced (lexeme : Lexeme) : Lexeme :=
  { lexeme with gap := if lexeme.gap = [] then [] else [' '] }

/-- Lexemes on a line of their own, with a blank for what was skipped between them. -/
def respace : List Lexeme → List Lexeme
  | [] => []
  | first :: rest => { first with gap := [] } :: rest.map respaced

/-- Where blanks or a comment may stand, a break does. -/
theorem Skipped.atBreak {gap rest : List Char} (h : Skipped gap rest) (hg : gap ≠ []) :
    AtBreak (gap ++ rest) := by
  cases h with
  | nil => contradiction
  | blank hc _ =>
    refine atBreak_of_blank fun d hd => ?_
    obtain rfl := Option.some.inj hd
    exact hc
  | line | block =>
    intro d hd
    obtain rfl := Option.some.inj hd
    decide

/-- The first lexeme of a text on one line: what is behind it, and that it is read in front of any
text like that, behind blanks or nothing. -/
structure First (context : Context) (chars : List Char) (lexeme : Lexeme) (behind : List Char) :
    Prop where
  chars_eq : chars = lexeme.gap ++ (lexeme.text ++ behind)
  skipped : Skipped lexeme.gap (lexeme.text ++ behind)
  inner : '\n' ∉ behind
  plain : Context.Plain false (context.next lexeme.kind lexeme.text)
  again : ∀ {other space : List Char}, Alike behind other → (∀ d ∈ space, isBlank d) →
    divide false context (space ++ (lexeme.text ++ other)) =
      (divide false (context.next lexeme.kind lexeme.text) other).cons
        ⟨space, lexeme.kind, lexeme.text⟩

theorem skipped_of_blanks {space : List Char} (h : ∀ d ∈ space, isBlank d) (rest : List Char) :
    Skipped space rest := by
  induction space with
  | nil => exact .nil rest
  | cons d space ih =>
    obtain ⟨hd, hrest⟩ := List.forall_mem_cons.1 h
    exact .blank hd (ih hrest)

theorem first_of_divide {lexeme : Lexeme} {lexemes : List Lexeme} {ending : Ending}
    (hp : Context.Plain false context) (hn : '\n' ∉ chars)
    (h : divide false context chars = ⟨lexeme :: lexemes, ending⟩) :
    ∃ behind, First context chars lexeme behind ∧
      divide false (context.next lexeme.kind lexeme.text) behind = ⟨lexemes, ending⟩ := by
  obtain ⟨c, rest, ⟨text, behind⟩, hs, hr, rfl, hd⟩ := divide_eq_cons h
  have hwhole := whole_skip chars
  rw [hs, Gap.whole] at hwhole
  have hcover := covers_read false context c rest
  rw [hr] at hcover
  obtain ⟨hcut, hne⟩ := hcover
  have hin := inner_of_skip hn hs
  have hc : c ≠ '\n' := fun he => hin (he ▸ List.mem_cons_self)
  have hsame : lexeme.text ++ behind = c :: rest := hcut
  refine ⟨behind, ⟨?_, ?_, (inner_of_read hin hr).2, plain_next (admits_read hr) hp, ?_⟩, hd⟩
  · rw [hsame, hwhole]
  · rw [hsame]
    exact skipped_of_skip hs
  · intro other space ha hspace
    obtain ⟨d, text, ht⟩ : ∃ d text, lexeme.text = d :: text := List.exists_cons_of_ne_nil hne
    rw [ht, List.cons_append] at hsame
    obtain ⟨rfl, rfl⟩ := List.cons.inj hsame
    have hread : read false context d (text ++ other) = .lexeme lexeme.kind ⟨d :: text, other⟩ := by
      rw [read_fragment hp hc] at hr ⊢
      exact readText_alike ha (ht ▸ hr)
    have hskip : skip (space ++ d :: (text ++ other)) = .skipped space (d :: (text ++ other)) := by
      rw [skip_of_skipped (skipped_of_blanks hspace _),
        skip_alike (ha.append text) (skip_behind hs), Gap.prepend, List.append_nil]
    rw [ht, List.cons_append, divide_cons hskip hread]

theorem isBlank_of_mem_respaced {lexeme : Lexeme} : ∀ d ∈ lexeme.respaced.gap, isBlank d := by
  intro d hm
  unfold respaced at hm
  dsimp only at hm
  split at hm
  · contradiction
  · rw [List.mem_singleton.1 hm]
    rfl

/-- Lexemes with a blank for what was skipped are read as they were, and their text is like the one
that they come from. -/
theorem divide_map_respaced {lexemes : List Lexeme} {gap : List Char} {midLine : Bool}
    (hp : Context.Plain false context) (hn : '\n' ∉ chars)
    (h : divide false context chars = ⟨lexemes, .complete gap midLine⟩) :
    Alike chars ((lexemes.map respaced).flatMap whole) ∧
      divide false context ((lexemes.map respaced).flatMap whole) =
        ⟨lexemes.map respaced, .complete [] midLine⟩ := by
  induction lexemes generalizing context chars with
  | nil =>
    obtain ⟨tail, hs, he⟩ := eq_of_divide_nil h trivial
    obtain ⟨rfl, rfl⟩ := Ending.complete.inj he
    have hwhole := whole_skip chars
    rw [hs, Gap.whole] at hwhole
    refine ⟨.of_blank ?_ fun d hd => ?_, divide_nil false context⟩
    · by_cases hg : gap = []
      · subst hg
        subst hwhole
        intro d hd
        contradiction
      · exact hwhole ▸ (skipped_of_skip hs).atBreak hg
    · contradiction
  | cons lexeme lexemes ih =>
    obtain ⟨behind, first, hd⟩ := first_of_divide hp hn h
    obtain ⟨ha, hdivide⟩ := ih first.plain first.inner hd
    have hflat : ((lexeme :: lexemes).map respaced).flatMap whole =
        lexeme.respaced.gap ++ (lexeme.text ++ (lexemes.map respaced).flatMap whole) := by
      rw [← List.append_assoc]
      rfl
    rw [hflat, first.again ha isBlank_of_mem_respaced, hdivide, first.chars_eq]
    refine ⟨?_, rfl⟩
    by_cases hg : lexeme.gap = []
    · rw [respaced, hg, if_pos rfl]
      exact ha.append lexeme.text
    · refine .of_blank (first.skipped.atBreak hg) fun d hm => ?_
      have hd : d ∈ lexeme.respaced.gap := by
        rw [respaced, if_neg hg] at hm ⊢
        exact List.mem_singleton.2 (Option.some.inj hm).symm
      exact isBlank_of_mem_respaced d hd

/-- The text of lexemes on a line of their own is divided into them. -/
theorem divide_respace {lexemes : List Lexeme} {gap : List Char} {midLine : Bool}
    (hp : Context.Plain false context) (hn : '\n' ∉ chars)
    (h : divide false context chars = ⟨lexemes, .complete gap midLine⟩) :
    divide false context ((respace lexemes).flatMap whole) =
      ⟨respace lexemes, .complete [] midLine⟩ := by
  cases lexemes with
  | nil => exact (divide_map_respaced hp hn h).2
  | cons lexeme lexemes =>
    obtain ⟨behind, first, hd⟩ := first_of_divide hp hn h
    obtain ⟨ha, hdivide⟩ := divide_map_respaced first.plain first.inner hd
    have hread := first.again ha (List.forall_mem_nil _)
    rw [hdivide] at hread
    exact hread

end Lexeme

/-! ## Logical text -/

namespace Source

theorem not_mem_unifyNewlines (text : List Char) : '\r' ∉ unifyNewlines text := by
  fun_induction unifyNewlines text with
  | case1 => exact List.not_mem_nil
  | case2 rest ih => exact fun hm => ih ((List.mem_cons.1 hm).resolve_left (by decide))
  | case3 c rest hn ih =>
    intro hm
    refine ih ((List.mem_cons.1 hm).resolve_left fun he => ?_)
    split at he
    · contradiction
    · next hc => exact hc he.symm

theorem not_mem_phases (trigraphs : Bool) (text : List Char) : '\r' ∉ phases trigraphs text := by
  intro hm
  rw [phases_eq_finished] at hm
  have hm := mem_joinLines hm
  cases trigraphs with
  | false => exact not_mem_unifyNewlines text hm
  | true =>
    rcases mem_replaceTrigraphs hm with hm | ⟨mark, hm⟩
    · exact not_mem_unifyNewlines text hm
    · unfold trigraph? at hm
      split at hm <;> simp at hm

end Source

/-! ## Fragments -/

namespace Lexeme

theorem toList_renderTail (lexemes : List Lexeme) :
    (Token.renderTail (lexemes.map token)).toList = (lexemes.map respaced).flatMap whole := by
  induction lexemes with
  | nil => rfl
  | cons lexeme lexemes ih =>
    rw [List.map_cons, Token.renderTail, List.map_cons, List.flatMap_cons, String.toList_append,
      String.toList_append, ih, whole, respaced, token]
    cases lexeme.gap <;> simp

/-- The rendered text of lexemes is theirs, with a blank for what was skipped between them. -/
theorem toList_render (lexemes : List Lexeme) :
    (Token.render (lexemes.map token)).toList = (respace lexemes).flatMap whole := by
  cases lexemes with
  | nil => rfl
  | cons lexeme lexemes =>
    rw [List.map_cons, Token.render, String.toList_append, toList_renderTail, respace,
      List.flatMap_cons, whole, token]
    simp

theorem mem_respace {lexemes : List Lexeme} {c : Char}
    (h : c ∈ (respace lexemes).flatMap whole) : c = ' ' ∨ ∃ lexeme ∈ lexemes, c ∈ lexeme.text := by
  have hrespaced {lexemes : List Lexeme} (h : c ∈ (lexemes.map respaced).flatMap whole) :
      c = ' ' ∨ ∃ lexeme ∈ lexemes, c ∈ lexeme.text := by
    obtain ⟨_, hm, hw⟩ := List.mem_flatMap.1 h
    obtain ⟨lexeme, hl, rfl⟩ := List.mem_map.1 hm
    rcases List.mem_append.1 hw with hg | ht
    · unfold respaced at hg
      dsimp only at hg
      split at hg
      · contradiction
      · exact .inl (List.mem_singleton.1 hg)
    · exact .inr ⟨lexeme, hl, ht⟩
  cases lexemes with
  | nil => contradiction
  | cons first rest =>
    rcases List.mem_append.1 h with hf | hr
    · exact .inr ⟨first, List.mem_cons_self, hf⟩
    · obtain hc | ⟨lexeme, hl, ht⟩ := hrespaced hr
      · exact .inl hc
      · exact .inr ⟨lexeme, List.mem_cons_of_mem _ hl, ht⟩

/-- Lexemes without anything between them are rendered as they are. -/
theorem respace_eq_self {lexemes : List Lexeme} (h : ∀ lexeme ∈ lexemes, lexeme.gap = []) :
    respace lexemes = lexemes := by
  have hrespaced : ∀ lexeme ∈ lexemes, respaced lexeme = lexeme := by
    rintro ⟨gap, kind, text⟩ hm
    obtain rfl : gap = [] := h _ hm
    rfl
  cases lexemes with
  | nil => rfl
  | cons first rest =>
    have hfirst : { first with gap := [] } = first := by
      rw [← h first List.mem_cons_self]
    rw [respace, hfirst, List.map_congr_left (List.forall_mem_cons.1 hrespaced).2, List.map_id']

theorem map_token_respaced (lexemes : List Lexeme) :
    (lexemes.map respaced).map token = lexemes.map token := by
  rw [List.map_map]
  refine List.map_congr_left fun lexeme _ => ?_
  simp only [Function.comp_apply, respaced, token]
  cases lexeme.gap <;> rfl

theorem tokenSpelling_respace (lexemes : List Lexeme) :
    ((respace lexemes).map token).map Macro.Definition.tokenSpelling =
      Macro.Definition.spelling (lexemes.map token) := by
  cases lexemes with
  | nil => rfl
  | cons lexeme lexemes =>
    rw [respace, List.map_cons, List.map_cons, List.map_cons, Macro.Definition.spelling,
      map_token_respaced]
    rfl

end Lexeme

/-- The text of the lexemes of a line, with blanks between them, is a line that is divided into
them. -/
theorem scan_respace {text rendered : String} (hn : '\n' ∉ phases false text.toList)
    (hc : (scan false false text).ending.IsComplete)
    (hr : rendered.toList = (respace (scan false false text).lexemes).flatMap whole) :
    '\n' ∉ phases false rendered.toList ∧
      (scan false false rendered).lexemes = respace (scan false false text).lexemes ∧
      (scan false false rendered).ending.IsComplete := by
  have hinner : ∀ c ∈ rendered.toList, Inner c := by
    intro c hm
    rw [hr] at hm
    rcases mem_respace hm with rfl | ⟨lexeme, hl, ht⟩
    · decide
    · have hin := mem_of_mem_divide lexeme hl ht
      exact ⟨fun he => not_mem_phases _ _ (he ▸ hin), fun he => hn (he ▸ hin)⟩
  have hphases := phases_of_inner hinner
  obtain ⟨gap, hending⟩ := ending_eq hc
  have hplain : Context.Plain false (.lineStart false) := rfl
  have hdivide := divide_respace hplain hn (congrArg (Division.mk _) hending)
  have hscan := congrArg (divide false (.lineStart false)) (hphases.trans hr)
  replace hscan : scan false false rendered = _ := hscan.trans hdivide
  refine ⟨fun hm => ?_, congrArg Division.lexemes hscan, hscan ▸ trivial⟩
  rw [hphases] at hm
  exact (hinner _ hm).2 rfl

/-- Rendering and reading again is stable: the tokens of a text on one line, rendered and read
again, are the same tokens with the same blanks between them. -/
theorem lexFragment_render (file other text : String) (tokens : List Token)
    (hl : ∀ c ∈ splice false text.toList, c.char ≠ '\n')
    (h : lexFragment file text = .ok tokens) :
    ∃ again, lexFragment other (Token.render tokens) = .ok again ∧
      again.map Macro.Definition.tokenSpelling = Macro.Definition.spelling tokens := by
  obtain ⟨hissue, hwords⟩ := lexFragment_eq_ok_iff.1 h
  have hn : '\n' ∉ phases false text.toList := by
    intro hm
    rw [← map_char_splice] at hm
    obtain ⟨c, hc, he⟩ := List.mem_map.1 hm
    exact hl c hc he
  have hlexemes : tokens.map Token.unplaced = (scan false false text).lexemes.map token :=
    hwords ▸ unplaced_words_of_inner hn
  have hrender : (Token.render tokens).toList =
      (respace (scan false false text).lexemes).flatMap whole := by
    rw [← Token.render_unplaced, hlexemes, toList_render]
  obtain ⟨hline, hscan, hcomplete⟩ :=
    scan_respace hn ((issue_lex false false file text).1 hissue) hrender
  refine ⟨_, lexFragment_eq_ok_iff.2 ⟨(issue_lex false false other _).2 hcomplete, rfl⟩, ?_⟩
  have hspelling (tokens : List Token) : tokens.map Macro.Definition.tokenSpelling =
      (tokens.map Token.unplaced).map Macro.Definition.tokenSpelling := by
    rw [List.map_map]
    rfl
  rw [hspelling, unplaced_words_of_inner hline, hscan, tokenSpelling_respace, ← hlexemes,
    Macro.Definition.spelling_unplaced]

/-- A line with an assembly block behind a comment, two signs kept apart by a blank, a slash in
front of a star, and a number that a comment keeps from going on. -/
def fragmentSource : String := "asm/**/\x7b a \x7d +\t+ x/ *1e+/**/5 // end"

/-- What is kept apart in it stays apart. -/
theorem lexFragment_render_comments :
    (∀ c ∈ splice false fragmentSource.toList, c.char ≠ '\n') ∧
      ∃ tokens, lexFragment "<scratch>" fragmentSource = .ok tokens ∧
        Token.render tokens = "asm \x7b a \x7d + + x/ *1e+ 5" ∧
        ∃ again, lexFragment "<scratch>" (Token.render tokens) = .ok again ∧
          again.map Macro.Definition.tokenSpelling = Macro.Definition.spelling tokens := by
  have hl : ∀ c ∈ splice false fragmentSource.toList, c.char ≠ '\n' := by decide +kernel
  have hissue : (lex false false "<scratch>" fragmentSource).issue = none := by decide +kernel
  have h := lexFragment_eq_ok_iff.2 ⟨hissue, rfl⟩
  refine ⟨hl, _, h, by decide +kernel, ?_⟩
  exact lexFragment_render "<scratch>" "<scratch>" fragmentSource _ hl h

end CPreprocessor

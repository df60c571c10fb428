import CPreprocessor.Proofs.Lexeme.Words

/-!
# The seam between two texts

A text that goes on with a blank or a newline is divided as it is without what follows, up to its
last lexeme. What is left of it there is taken up together with what follows, and a blank and a
newline are taken up alike but for the newline itself.

* `divide_before`: the lexemes of a text, and the rest of it with which the reading goes on.
* `complete_of_newline`: a text leaves nothing open in front of a newline.
* `Spaced`: blanks and block comments. `Ending.Outside`: no comment is open at the end of a text.
* `divide_newline`: a newline in a text, and a blank in its place.
-/

namespace CPreprocessor.Lexeme

variable {context other : Context} {c : Char} {rest chars gap behind : List Char}
  {kind : Token.Kind} {cut : Cut}

/-! ## The lexemes in front -/

theorem alike_append (hb : Alike [] behind) (chars : List Char) :
    Alike chars (chars ++ behind) := by
  have h := hb.append chars
  rwa [List.append_nil] at h

theorem alike_cons {d : Char} (hd : d ∈ breaks) (hs : d ≠ '/') (behind : List Char) :
    Alike [] (d :: behind) :=
  .ends (fun _ hm => absurd hm (Option.not_mem_none _)) (fun _ hm => Option.some.inj hm ▸ hd)
    fun _ hm => Option.some.inj hm ▸ hs

/-- What is skipped in front of a lexeme is skipped in the longer text. -/
theorem skip_before (hb : Alike [] behind) (hs : skip chars = .skipped gap (c :: rest)) :
    skip (chars ++ behind) = .skipped gap (c :: (rest ++ behind)) := by
  have hskipped : Skipped gap (c :: (rest ++ behind)) := (skipped_of_skip hs).congr rfl
  have hwhole := whole_skip chars
  rw [hs, Gap.whole] at hwhole
  rw [← hwhole, List.append_assoc, List.cons_append, skip_of_skipped hskipped,
    skip_alike (alike_append hb rest) (skip_behind hs), Gap.prepend, List.append_nil]

/-- A lexeme is read in the longer text. -/
theorem read_before (hp : Context.Plain false context) (hb : Alike [] behind)
    (hr : read false context c rest = .lexeme kind cut) :
    read false context c (rest ++ behind) = .lexeme kind ⟨cut.text, cut.rest ++ behind⟩ := by
  by_cases hc : c = '\n'
  · rw [read, if_pos hc] at hr ⊢
    obtain ⟨rfl, rfl⟩ := Reading.lexeme.inj hr
    rfl
  · have hcover := covers_read false context c rest
    rw [hr] at hcover
    obtain ⟨hwhole, hne⟩ := hcover
    obtain ⟨text, left⟩ := cut
    obtain ⟨d, text, rfl⟩ : ∃ d more, text = d :: more := List.exists_cons_of_ne_nil hne
    have hsame : d :: (text ++ left) = c :: rest := hwhole
    obtain ⟨rfl, rfl⟩ := List.cons.inj hsame
    rw [read_fragment hp hc] at hr ⊢
    rw [List.append_assoc]
    exact readText_alike (alike_append hb left) hr

/-- The lexemes of a text are the first ones of a text that goes on with a blank or a newline. The
reading goes on with what is left of the text behind them. -/
theorem divide_before (hp : Context.Plain false context) (chars : List Char) :
    ∃ tail, chars = (divide false context chars).lexemes.flatMap whole ++ tail ∧
      Context.Plain false (context.behind (divide false context chars).lexemes) ∧
      divide false (context.behind (divide false context chars).lexemes) tail =
        ⟨[], (divide false context chars).ending⟩ ∧
      ∀ behind, Alike [] behind →
        divide false context (chars ++ behind) =
          (divide false (context.behind (divide false context chars).lexemes)
            (tail ++ behind)).prepend (divide false context chars).lexemes := by
  fun_induction divide false context chars with
  | case1 context chars before rest hs =>
    exact ⟨chars, rfl, hp, divide_of_unclosed hs, fun _ _ => rfl⟩
  | case2 context chars gap hs => exact ⟨chars, rfl, hp, divide_of_end hs, fun _ _ => rfl⟩
  | case3 context chars gap c rest hs opener before behind hr =>
    exact ⟨chars, rfl, hp, divide_of_open hs hr, fun _ _ => rfl⟩
  | case4 context chars gap c rest hs kind cut hr ih =>
    obtain ⟨tail, hsplit, hplain, htail, hmore⟩ := ih (plain_next (admits_read hr) hp)
    refine ⟨tail, ?_, hplain, htail, fun behind hb => ?_⟩
    · have hwhole := whole_skip chars
      have hcover := covers_read false context c rest
      rw [hr] at hcover
      rw [hs, Gap.whole, ← hcover.1, Cut.whole] at hwhole
      rw [← hwhole, Division.cons, List.flatMap_cons, List.append_assoc, ← hsplit, whole,
        List.append_assoc]
    · rw [divide_cons (skip_before hb hs) (read_before hp hb hr), hmore behind hb]
      rfl

/-! ## What is left behind them -/

theorem closeQuote?_newline {quote : Char} {escaped : Bool}
    (h : closeQuote? quote escaped chars = none) (behind : List Char) :
    closeQuote? quote escaped (chars ++ '\n' :: behind) = none := by
  fun_induction closeQuote? quote escaped chars with
  | case1 => rfl
  | case2 => rfl
  | case3 => contradiction
  | case4 escaped c rest hn hc ih =>
    rw [List.cons_append, closeQuote?, if_neg hn, if_neg hc, ih (Option.map_eq_none_iff.1 h)]
    rfl

/-- A literal that is left open does not go on behind a newline. -/
theorem readLiteral_newline {opener : Opener} {before opened : List Char}
    (hr : readLiteral c rest = .unclosed opener before opened) (behind : List Char) :
    ∃ opener before opened,
      readLiteral c (rest ++ '\n' :: behind) = .unclosed opener before opened := by
  have hb : Alike [] ('\n' :: behind) := alike_cons (by decide) (by decide) behind
  have hopen := start_opening?_alike ((alike_append hb rest).cons c)
  unfold readLiteral at hr ⊢
  split at hr
  · next opening ho =>
    rw [ho] at hopen
    obtain ⟨same, hy, hstart⟩ := Option.map_eq_some_iff.1 hopen.symm
    obtain ⟨hencoding, hquote⟩ := Prod.mk.inj hstart
    have hrest : same.rest = opening.rest ++ '\n' :: behind := by
      have hsplit := (eq_of_opening? ho).1
      have hsame := (eq_of_opening? hy).1
      rw [hencoding, hquote, ← List.cons_append, hsplit, List.append_assoc, List.cons_append]
        at hsame
      exact (List.cons.inj (List.append_cancel_left hsame)).2.symm
    split at hr
    · contradiction
    · next hclose =>
      rw [hy]
      dsimp only
      rw [hrest, hquote, closeQuote?_newline hclose behind]
      exact ⟨_, _, _, rfl⟩
  · contradiction

/-- In front of a newline a text leaves nothing open, if the longer text does not: no comment is
open there, and no block can be. -/
theorem complete_of_newline (hp : Context.Plain false context) {chars behind : List Char}
    (h : (divide false context (chars ++ '\n' :: behind)).ending.IsComplete)
    (ha : ¬(context.behind (divide false context chars).lexemes).afterAsm)
    (hc : ∀ before opened, (divide false context chars).ending ≠ .unclosed .comment before opened) :
    (divide false context chars).ending.IsComplete := by
  obtain ⟨tail, -, hplain, htail, hmore⟩ := divide_before hp chars
  have hb : Alike [] ('\n' :: behind) := alike_cons (by decide) (by decide) behind
  cases he : (divide false context chars).ending with
  | complete gap midLine => trivial
  | unclosed opener before opened =>
    exfalso
    have hopener : opener ≠ .comment := by
      rintro rfl
      exact hc before opened he
    rw [he] at htail
    obtain ⟨gap, c, rest, encoding, hs, hr⟩ := exists_open_of_divide_nil htail hopener
    have hline : c ≠ '\n' := by
      rintro rfl
      contradiction
    rw [read_fragment hplain hline, readText, if_neg (by simp [ha])] at hr
    obtain ⟨opener, before, opened, hr⟩ := readLiteral_newline hr behind
    have hread : read false (context.behind (divide false context chars).lexemes) c
        (rest ++ '\n' :: behind) = .unclosed opener before opened := by
      rw [read_fragment hplain hline, readText, if_neg (by simp [ha]), hr]
    rw [hmore _ hb, divide_of_open (skip_before hb hs) hread] at h
    exact h

/-! ## Blanks in front -/

/-- Blanks and block comments. -/
inductive Spaced : List Char → Prop where
  | nil : Spaced []
  | blank {c : Char} {gap : List Char} (hc : isBlank c) (h : Spaced gap) : Spaced (c :: gap)
  | block {text gap : List Char} (ht : ¬['*', '/'] <:+: text ++ ['*']) (h : Spaced gap) :
      Spaced ('/' :: '*' :: (text ++ '*' :: '/' :: gap))

/-- They are skipped in front of anything. -/
theorem Spaced.skipped (h : Spaced gap) (rest : List Char) : Skipped gap rest := by
  induction h with
  | nil => exact .nil rest
  | blank hc _ ih => exact .blank hc ih
  | block ht _ ih => exact .block ht ih

theorem Spaced.append {more : List Char} (h : Spaced gap) (hm : Spaced more) :
    Spaced (gap ++ more) := by
  induction h with
  | nil => exact hm
  | blank hc _ ih => exact .blank hc ih
  | @block text gap ht _ ih =>
    have hsplit : '/' :: '*' :: (text ++ '*' :: '/' :: gap) ++ more =
        '/' :: '*' :: (text ++ '*' :: '/' :: (gap ++ more)) := by simp
    rw [hsplit]
    exact .block ht ih

/-- No comment is open at the end of a text. -/
def Ending.Outside : Ending → Prop
  | complete gap _ => Spaced gap
  | unclosed opener _ _ => opener ≠ .comment

/-- Lexemes with more to skip in front of them. -/
def behindGap (gap : List Char) : List Lexeme → List Lexeme
  | [] => []
  | first :: rest => { first with gap := gap ++ first.gap } :: rest

/-- What is skipped in front of a text only belongs to its first lexeme. -/
theorem divide_skipped (directives : Bool) (context : Context) (h : Skipped gap rest) :
    (divide directives context (gap ++ rest)).lexemes =
        behindGap gap (divide directives context rest).lexemes ∧
      ((divide directives context (gap ++ rest)).ending.IsComplete ↔
        (divide directives context rest).ending.IsComplete) := by
  have hskip := skip_of_skipped h
  cases hs : skip rest with
  | unclosed before opened =>
    rw [hs] at hskip
    rw [divide_of_unclosed hskip, divide_of_unclosed hs]
    exact ⟨rfl, Iff.rfl⟩
  | skipped inner more =>
    rw [hs] at hskip
    cases more with
    | nil =>
      rw [divide_of_end hskip, divide_of_end hs]
      exact ⟨rfl, Iff.rfl⟩
    | cons c more =>
      cases hr : read directives context c more with
      | unclosed opener before behind =>
        rw [divide_of_open hskip hr, divide_of_open hs hr]
        exact ⟨rfl, Iff.rfl⟩
      | lexeme kind cut =>
        rw [divide_cons hskip hr, divide_cons hs hr]
        exact ⟨rfl, Iff.rfl⟩

theorem next_congr (hp : Context.Plain false context) (ho : Context.Plain false other)
    (h : context.afterAsm = other.afterAsm) {text : List Char}
    (hk : kind ≠ .directiveHash) : context.next kind text = other.next kind text := by
  cases kind with
  | newline => exact congrArg Context.lineStart h
  | directiveHash => contradiction
  | _ => cases context <;> cases other <;> first | rfl | contradiction

/-- Of the place that a text is taken up at only counts whether braces enclose a block there. -/
theorem divide_congr (hp : Context.Plain false context) (ho : Context.Plain false other)
    (h : context.afterAsm = other.afterAsm) (chars : List Char) :
    (divide false context chars).lexemes = (divide false other chars).lexemes ∧
      ((divide false context chars).ending.IsComplete ↔
        (divide false other chars).ending.IsComplete) := by
  have hread (c : Char) (rest : List Char) :
      read false context c rest = read false other c rest := by
    by_cases hc : c = '\n'
    · rw [read, read, if_pos hc, if_pos hc]
    · rw [read_fragment hp hc, read_fragment ho hc, readText, readText, h]
  cases hs : skip chars with
  | unclosed before opened =>
    rw [divide_of_unclosed hs, divide_of_unclosed hs]
    exact ⟨rfl, Iff.rfl⟩
  | skipped gap more =>
    cases more with
    | nil =>
      rw [divide_of_end hs, divide_of_end hs]
      exact ⟨rfl, Iff.rfl⟩
    | cons c more =>
      cases hr : read false context c more with
      | unclosed opener before behind =>
        rw [divide_of_open hs hr, divide_of_open hs (hread c more ▸ hr)]
        exact ⟨rfl, Iff.rfl⟩
      | lexeme kind cut =>
        have hk : kind ≠ .directiveHash := fun he => absurd ((admits_read hr).hash he).1 (by decide)
        rw [divide_cons hs hr, divide_cons hs (hread c more ▸ hr), next_congr hp ho h hk]
        exact ⟨rfl, Iff.rfl⟩

/-- A newline outside comments is a lexeme of its own, and the text behind it is divided as it is
behind a blank in its place. The blank only belongs to the first lexeme there. -/
theorem divide_newline (hp : Context.Plain false context) {chars behind : List Char}
    (h : (divide false context (chars ++ '\n' :: behind)).ending.IsComplete)
    (ha : ¬(context.behind (divide false context chars).lexemes).afterAsm)
    (ho : (divide false context chars).ending.Outside) :
    (divide false context chars).ending.IsComplete ∧
      (divide false context (chars ++ ' ' :: behind)).ending.IsComplete ∧
      ∃ gap,
        (divide false context (chars ++ '\n' :: behind)).lexemes =
          (divide false context chars).lexemes ++
            ⟨gap, .newline, ['\n']⟩ :: (divide false (.lineStart false) behind).lexemes ∧
        (divide false context (chars ++ ' ' :: behind)).lexemes =
          (divide false context chars).lexemes ++
            behindGap (gap ++ [' ']) (divide false (.lineStart false) behind).lexemes := by
  have hc := complete_of_newline hp h ha fun before opened he => by
    rw [he] at ho
    exact ho rfl
  obtain ⟨tail, -, hplain, htail, hmore⟩ := divide_before hp chars
  obtain ⟨gap, hs, he⟩ := eq_of_divide_nil htail hc
  have hgap : Spaced gap := by
    rw [he] at ho
    exact ho
  obtain rfl : gap = tail := by
    have hwhole := whole_skip tail
    rwa [hs, Gap.whole, List.append_nil] at hwhole
  have hnone : (context.behind (divide false context chars).lexemes).afterAsm = false :=
    eq_false_of_ne_true ha
  have hskip : skip (gap ++ '\n' :: behind) = .skipped gap ('\n' :: behind) := by
    have hend : skip ('\n' :: behind) = .skipped [] ('\n' :: behind) :=
      skip_lineEnd fun _ hd => (Option.some.inj hd).symm
    rw [skip_of_skipped (hgap.skipped _), hend, Gap.prepend, List.append_nil]
  have hread : read false (context.behind (divide false context chars).lexemes) '\n' behind =
      .lexeme .newline ⟨['\n'], behind⟩ := rfl
  have hblank : Skipped (gap ++ [' ']) behind := (hgap.append (.blank rfl .nil)).skipped behind
  have hnewline := hmore ('\n' :: behind) (alike_cons (by decide) (by decide) behind)
  have hspace := hmore (' ' :: behind) (alike_cons (by decide) (by decide) behind)
  rw [divide_cons hskip hread, Context.next, hnone] at hnewline
  rw [List.append_cons gap] at hspace
  obtain ⟨hlexemes, hending⟩ := divide_skipped false
    (context.behind (divide false context chars).lexemes) hblank
  obtain ⟨hsame, hsameEnding⟩ := divide_congr hplain (plain_lineStart false) hnone behind
  rw [hnewline] at h
  rw [hspace, hnewline]
  exact ⟨hc, hending.2 (hsameEnding.2 h), gap, rfl, by rw [Division.prepend, hlexemes, hsame]⟩

end CPreprocessor.Lexeme

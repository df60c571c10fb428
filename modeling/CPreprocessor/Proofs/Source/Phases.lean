import CPreprocessor.Source.Newline

/-!
# Logical characters in three phases

Line terminators, trigraphs and spliced lines are taken care of in one pass. Here they are rewritten
one kind after the other, each from left to right over the whole text, and every character keeps
the place in the physical text where its spelling begins.

* `replaceTrigraphs`, `joinLines`: the second and the third phase, the first one being
  `unifyNewlines`. `Located.unifyNewlines`, `Located.replaceTrigraphs`, `Located.joinLines`: the
  same for characters with their places.
* `locateFrom`: the places of physical characters, counted from the text before them.
* `spliceFrom_eq_phases`: the single pass does what the phases do, wherever it begins.
* `splice_eq_phases`: the same for a whole text, and that the kind of line terminator is lost.
-/

namespace CPreprocessor.Source

/-! ## The phases -/

/-- The text with the character that each trigraph stands for in its place. -/
def replaceTrigraphs : List Char → List Char
  | [] => []
  | '?' :: '?' :: mark :: rest =>
    match trigraph? mark with
    | some char => char :: replaceTrigraphs rest
    | none => '?' :: replaceTrigraphs ('?' :: mark :: rest)
  | c :: rest => c :: replaceTrigraphs rest

/-- The text without each backslash that stands before a newline, and without that newline. -/
def joinLines : List Char → List Char
  | [] => []
  | '\\' :: '\n' :: rest => joinLines rest
  | c :: rest => c :: joinLines rest

/-- The logical characters of a text, phase by phase. -/
def phases (trigraphs : Bool) (text : List Char) : List Char :=
  joinLines (if trigraphs then replaceTrigraphs (unifyNewlines text) else unifyNewlines text)

namespace Located

/-- The first phase. A newline stands where its terminator begins. -/
def unifyNewlines : List Located → List Located
  | [] => []
  | ⟨'\r', line, column⟩ :: ⟨'\n', _, _⟩ :: rest => ⟨'\n', line, column⟩ :: unifyNewlines rest
  | ⟨c, line, column⟩ :: rest => ⟨if c = '\r' then '\n' else c, line, column⟩ :: unifyNewlines rest

/-- The second phase. A character stands where its trigraph begins. -/
def replaceTrigraphs : List Located → List Located
  | [] => []
  | ⟨'?', line, column⟩ :: ⟨'?', line', column'⟩ :: mark :: rest =>
    match trigraph? mark.char with
    | some char => ⟨char, line, column⟩ :: replaceTrigraphs rest
    | none => ⟨'?', line, column⟩ :: replaceTrigraphs (⟨'?', line', column'⟩ :: mark :: rest)
  | c :: rest => c :: replaceTrigraphs rest

/-- The third phase. -/
def joinLines : List Located → List Located
  | [] => []
  | ⟨'\\', _, _⟩ :: ⟨'\n', _, _⟩ :: rest => joinLines rest
  | c :: rest => c :: joinLines rest

/-- The first two phases. -/
def symbols (trigraphs : Bool) (chars : List Located) : List Located :=
  if trigraphs then replaceTrigraphs (unifyNewlines chars) else unifyNewlines chars

/-- All phases. -/
def phases (trigraphs : Bool) (chars : List Located) : List Located :=
  joinLines (symbols trigraphs chars)

end Located

/-! ## Physical places -/

/-- The line that a text leads to: one more than the line terminators in it. -/
def lineBehind (before : List Char) : Nat := (unifyNewlines before).count '\n' + 1

/-- The column that a text leads to: one more than the characters behind its last terminator. -/
def columnBehind (before : List Char) : Nat :=
  (before.reverse.takeWhile fun c => c ≠ '\r' ∧ c ≠ '\n').length + 1

/-- The characters of a text that stands behind another one, with their places. -/
def locateFrom (before : List Char) : List Char → List Located
  | [] => []
  | c :: rest => ⟨c, lineBehind before, columnBehind before⟩ :: locateFrom (before ++ [c]) rest

/-- The characters of a whole text with their places. -/
def locate (text : List Char) : List Located := locateFrom [] text

theorem map_char_locateFrom (before text : List Char) :
    (locateFrom before text).map Located.char = text := by
  induction text generalizing before with
  | nil => rfl
  | cons c rest ih => rw [locateFrom, List.map_cons, ih]

/-! ## Line terminators -/

/-- The first text is a line terminator, and the second one behind it does not prolong it. -/
inductive Terminates : List Char → List Char → Prop where
  | crlf (rest : List Char) : Terminates ['\r', '\n'] rest
  | cr {rest : List Char} (h : rest.head? ≠ some '\n') : Terminates ['\r'] rest
  | lf (rest : List Char) : Terminates ['\n'] rest

/-- Neither character of a line terminator. -/
def Inner (c : Char) : Prop := c ≠ '\r' ∧ c ≠ '\n'

instance (c : Char) : Decidable (Inner c) := inferInstanceAs (Decidable (_ ∧ _))

theorem terminates_of_afterTerminator? {text rest : List Char}
    (h : afterTerminator? text = some rest) :
    ∃ mark, text = mark ++ rest ∧ Terminates mark rest := by
  unfold afterTerminator? at h
  split at h
  · obtain rfl := Option.some.inj h
    exact ⟨_, rfl, .crlf _⟩
  · next behind hn =>
    obtain rfl := Option.some.inj h
    refine ⟨['\r'], rfl, .cr fun hh => ?_⟩
    obtain ⟨more, rfl⟩ := List.head?_eq_some_iff.1 hh
    exact hn more rfl
  · obtain rfl := Option.some.inj h
    exact ⟨_, rfl, .lf _⟩
  · contradiction

theorem afterTerminator?_append {mark rest : List Char} (h : Terminates mark rest) :
    afterTerminator? (mark ++ rest) = some rest := by
  cases h with
  | crlf => rfl
  | lf => rfl
  | cr h =>
    cases rest with
    | nil => rfl
    | cons c rest =>
      have hc : c ≠ '\n' := fun hc => h (by rw [hc]; rfl)
      simp [afterTerminator?, hc]

theorem inner_of_afterTerminator? {c : Char} {rest : List Char}
    (h : afterTerminator? (c :: rest) = none) : Inner c := by
  refine ⟨?_, ?_⟩
  · rintro rfl
    cases rest with
    | nil => contradiction
    | cons d rest => by_cases hd : d = '\n' <;> simp [afterTerminator?, hd] at h
  · rintro rfl
    contradiction

theorem afterTerminator?_inner {c : Char} (h : Inner c) (rest : List Char) :
    afterTerminator? (c :: rest) = none := by
  unfold afterTerminator?
  split
  · next he => exact absurd (List.cons.inj he).1 h.1
  · next he => exact absurd (List.cons.inj he).1 h.1
  · next he => exact absurd (List.cons.inj he).1 h.2
  · rfl

/-- The second text does not complete a line terminator that the first one begins. -/
def Apart (before behind : List Char) : Prop :=
  before.getLast? = some '\r' → behind.head? ≠ some '\n'

theorem apart_nil (behind : List Char) : Apart [] behind := nofun

theorem apart_append_of_terminates {mark rest : List Char} (h : Terminates mark rest)
    (before : List Char) : Apart (before ++ mark) rest := by
  intro hl
  cases h with
  | crlf => simp at hl
  | lf => simp at hl
  | cr h => exact h

theorem apart_append_of_inner {piece : List Char} (hp : piece ≠ []) (h : ∀ c ∈ piece, Inner c)
    (before rest : List Char) : Apart (before ++ piece) rest := by
  intro hl
  rw [List.getLast?_append, Option.or_eq_some_iff] at hl
  rcases hl with hl | ⟨hn, -⟩
  · exact absurd rfl (h _ (List.mem_of_getLast? hl)).1
  · exact absurd (List.getLast?_eq_none_iff.1 hn) hp

theorem unifyNewlines_cons {c : Char} {rest : List Char} (h : Apart [c] rest) :
    unifyNewlines (c :: rest) = (if c = '\r' then '\n' else c) :: unifyNewlines rest := by
  rw [unifyNewlines]
  rintro more rfl rfl
  exact h rfl rfl

theorem unifyNewlines_terminator {mark rest : List Char} (h : Terminates mark rest) :
    unifyNewlines (mark ++ rest) = '\n' :: unifyNewlines rest := by
  cases h with
  | crlf => rfl
  | cr h => exact unifyNewlines_cons fun _ => h
  | lf => exact unifyNewlines_cons nofun

theorem unifyNewlines_inner {c : Char} (h : Inner c) (rest : List Char) :
    unifyNewlines (c :: rest) = c :: unifyNewlines rest := by
  rw [unifyNewlines_cons fun hl => absurd (Option.some.inj hl) h.1, if_neg h.1]

/-- Newlines are unified part by part where no terminator is cut. -/
theorem unifyNewlines_append {before behind : List Char} (h : Apart before behind) :
    unifyNewlines (before ++ behind) = unifyNewlines before ++ unifyNewlines behind := by
  fun_induction unifyNewlines before with
  | case1 => rfl
  | case2 rest ih =>
    have hr : Apart rest behind := fun hl => h (by
      rw [List.getLast?_cons_cons, List.getLast?_cons, hl]; rfl)
    rw [List.cons_append, List.cons_append, unifyNewlines, ih hr, List.cons_append]
  | case3 c rest hn ih =>
    have hr : Apart rest behind := fun hl => h (by rw [List.getLast?_cons, hl]; rfl)
    have hc : Apart [c] (rest ++ behind) := by
      intro hl
      obtain rfl := Option.some.inj hl
      cases rest with
      | nil => exact h rfl
      | cons d rest =>
        intro hd
        obtain rfl := Option.some.inj hd
        exact hn rest rfl rfl
    rw [List.cons_append, unifyNewlines_cons hc, ih hr, List.cons_append]

/-! ## Places behind a piece of text -/

theorem unifyNewlines_of_inner {piece : List Char} (h : ∀ c ∈ piece, Inner c) :
    unifyNewlines piece = piece := by
  induction piece with
  | nil => rfl
  | cons c rest ih =>
    obtain ⟨hc, hr⟩ := List.forall_mem_cons.1 h
    rw [unifyNewlines_inner hc, ih hr]

theorem lineBehind_append_inner {before piece : List Char} (h : ∀ c ∈ piece, Inner c) :
    lineBehind (before ++ piece) = lineBehind before := by
  have ha : Apart before piece := by
    intro _ hh
    obtain ⟨more, rfl⟩ := List.head?_eq_some_iff.1 hh
    exact (h _ List.mem_cons_self).2 rfl
  have hz : piece.count '\n' = 0 := List.count_eq_zero.2 fun hm => (h _ hm).2 rfl
  rw [lineBehind, unifyNewlines_append ha, unifyNewlines_of_inner h, List.count_append, hz]
  rfl

theorem columnBehind_append_inner {before piece : List Char} (h : ∀ c ∈ piece, Inner c) :
    columnBehind (before ++ piece) = columnBehind before + piece.length := by
  have hall : ∀ c ∈ piece.reverse, decide (c ≠ '\r' ∧ c ≠ '\n') = true := fun c hm =>
    decide_eq_true (h c (List.mem_reverse.1 hm))
  rw [columnBehind, columnBehind, List.reverse_append, List.takeWhile_append_of_pos hall,
    List.length_append, List.length_reverse]
  omega

theorem lineBehind_append_terminator {before mark rest : List Char} (h : Terminates mark rest)
    (ha : Apart before (mark ++ rest)) : lineBehind (before ++ mark) = lineBehind before + 1 := by
  have hm : Apart before mark := by
    intro hl hh
    refine ha hl ?_
    rw [List.head?_append, hh]
    rfl
  have hu : unifyNewlines mark = ['\n'] := by cases h <;> rfl
  rw [lineBehind, lineBehind, unifyNewlines_append hm, hu, List.count_append]
  rfl

theorem columnBehind_append_terminator {before mark rest : List Char} (h : Terminates mark rest) :
    columnBehind (before ++ mark) = 1 := by
  cases h <;> simp [columnBehind]

/-! ## One symbol after the other -/

/-- What a trigraph ends in and what it stands for are no line terminators. -/
theorem inner_of_trigraph? {mark char : Char} (h : trigraph? mark = some char) :
    Inner mark ∧ Inner char := by
  unfold trigraph? at h
  split at h
  all_goals first | contradiction | (obtain rfl := Option.some.inj h; decide)

/-- A symbol is a trigraph, or the next character where no trigraph begins. -/
theorem symbol_cases (trigraphs : Bool) (c : Char) (rest : List Char) :
    (∃ mark behind char, trigraphs ∧ c = '?' ∧ rest = '?' :: mark :: behind ∧
      trigraph? mark = some char ∧ symbol trigraphs c rest = ⟨char, 3, behind⟩) ∨
    (symbol trigraphs c rest = ⟨c, 1, rest⟩ ∧ ∀ mark behind, trigraphs → c = '?' →
      rest = '?' :: mark :: behind → trigraph? mark = none) := by
  unfold symbol
  split
  · next mark behind =>
    cases trigraphs with
    | false => exact .inr ⟨rfl, nofun⟩
    | true =>
      cases hm : trigraph? mark with
      | none =>
        refine .inr ⟨by simp, fun mark' behind' _ _ he => ?_⟩
        obtain ⟨-, he⟩ := List.cons.inj he
        rw [← (List.cons.inj he).1, hm]
      | some char => exact .inl ⟨mark, behind, char, rfl, rfl, rfl, hm, by simp⟩
  · next hn =>
    refine .inr ⟨rfl, fun mark behind _ hc hr => ?_⟩
    exact absurd hr (hn mark behind hc)

theorem unifyNewlines_locateFrom_terminator {before mark rest : List Char}
    (h : Terminates mark rest) :
    Located.unifyNewlines (locateFrom before (mark ++ rest)) =
      ⟨'\n', lineBehind before, columnBehind before⟩ ::
        Located.unifyNewlines (locateFrom (before ++ mark) rest) := by
  cases h with
  | crlf => simp [locateFrom, Located.unifyNewlines]
  | lf => simp [locateFrom, Located.unifyNewlines]
  | cr h =>
    rw [List.singleton_append, locateFrom, Located.unifyNewlines, if_pos rfl]
    intro line column more he _
    cases rest with
    | nil => contradiction
    | cons d rest =>
      obtain ⟨hd, -⟩ := Located.mk.inj (List.cons.inj he).1
      exact h (by rw [hd]; rfl)

theorem unifyNewlines_locateFrom_inner {c : Char} (h : Inner c) (before rest : List Char) :
    Located.unifyNewlines (locateFrom before (c :: rest)) =
      ⟨c, lineBehind before, columnBehind before⟩ ::
        Located.unifyNewlines (locateFrom (before ++ [c]) rest) := by
  rw [locateFrom, Located.unifyNewlines, if_neg h.1]
  intro line column more _ hc
  exact absurd hc h.1

theorem map_char_unifyNewlines (chars : List Located) :
    (Located.unifyNewlines chars).map Located.char = unifyNewlines (chars.map Located.char) := by
  fun_induction Located.unifyNewlines chars with
  | case1 => rfl
  | case2 line column _ _ rest ih => rw [List.map_cons, ih]; rfl
  | case3 c line column rest hn ih =>
    rw [List.map_cons, List.map_cons, unifyNewlines, ih]
    intro more hc hr
    obtain ⟨⟨d, line', column'⟩, rest, rfl, rfl, rfl⟩ := List.map_eq_cons_iff.1 hr
    exact hn line' column' rest rfl hc

/-- Newlines aside, unified text begins as the text does. -/
theorem eq_cons_of_unifyNewlines {text more : List Char} {d : Char}
    (h : unifyNewlines text = d :: more) (hd : d ≠ '\n') :
    ∃ rest, text = d :: rest ∧ unifyNewlines rest = more := by
  unfold unifyNewlines at h
  split at h
  · contradiction
  · exact absurd (List.cons.inj h).1.symm hd
  · next c rest _ =>
    obtain ⟨hc, rfl⟩ := List.cons.inj h
    split at hc
    · exact absurd hc.symm hd
    · exact ⟨rest, by rw [hc], rfl⟩

theorem replaceTrigraphs_cons {first : Located} {rest : List Located}
    (h : ∀ mark more, first.char = '?' → rest.map Located.char = '?' :: mark :: more →
      trigraph? mark = none) :
    Located.replaceTrigraphs (first :: rest) = first :: Located.replaceTrigraphs rest := by
  rw [Located.replaceTrigraphs.eq_def]
  split
  · contradiction
  · next line column line' column' mark more he =>
    obtain ⟨rfl, rfl⟩ := List.cons.inj he
    rw [h mark.char (more.map Located.char) rfl rfl]
  · next he =>
    obtain ⟨rfl, rfl⟩ := List.cons.inj he
    rfl

/-- The first two phases make the next symbol of what is spelled next. -/
theorem symbols_terminator (trigraphs : Bool) {before mark rest : List Char}
    (h : Terminates mark rest) :
    Located.symbols trigraphs (locateFrom before (mark ++ rest)) =
      ⟨'\n', lineBehind before, columnBehind before⟩ ::
        Located.symbols trigraphs (locateFrom (before ++ mark) rest) := by
  unfold Located.symbols
  rw [unifyNewlines_locateFrom_terminator h]
  split
  · exact replaceTrigraphs_cons fun mark more hc => absurd hc (by decide : '\n' ≠ '?')
  · rfl

theorem symbols_inner (trigraphs : Bool) {c : Char} (hc : Inner c) (before rest : List Char) :
    ∃ piece, c :: rest = piece ++ (symbol trigraphs c rest).rest ∧ piece ≠ [] ∧
      piece.length = (symbol trigraphs c rest).width ∧ (∀ d ∈ piece, Inner d) ∧
      Inner (symbol trigraphs c rest).char ∧
      Located.symbols trigraphs (locateFrom before (c :: rest)) =
        ⟨(symbol trigraphs c rest).char, lineBehind before, columnBehind before⟩ ::
          Located.symbols trigraphs
            (locateFrom (before ++ piece) (symbol trigraphs c rest).rest) := by
  obtain ⟨mark, behind, char, ht, rfl, rfl, hm, hs⟩ | ⟨hs, hn⟩ := symbol_cases trigraphs c rest
  · obtain ⟨hmark, hchar⟩ := inner_of_trigraph? hm
    refine ⟨['?', '?', mark], ?_⟩
    rw [hs]
    refine ⟨rfl, List.cons_ne_nil _ _, rfl, by simp [hc, hmark], hchar, ?_⟩
    simp only [Located.symbols, if_pos ht, unifyNewlines_locateFrom_inner hc,
      unifyNewlines_locateFrom_inner hmark, Located.replaceTrigraphs, hm, List.append_assoc]
    rfl
  · refine ⟨[c], ?_⟩
    rw [hs]
    refine ⟨rfl, List.cons_ne_nil _ _, rfl, List.forall_mem_singleton.2 hc, hc, ?_⟩
    unfold Located.symbols
    rw [unifyNewlines_locateFrom_inner hc]
    split
    · next ht =>
      refine replaceTrigraphs_cons fun mark more hq hr => ?_
      rw [map_char_unifyNewlines, map_char_locateFrom] at hr
      obtain ⟨behind, rfl, hb⟩ := eq_cons_of_unifyNewlines hr (by decide)
      by_cases hnl : mark = '\n'
      · rw [hnl]
        rfl
      · obtain ⟨last, rfl, -⟩ := eq_cons_of_unifyNewlines hb hnl
        exact hn mark last ht hq rfl
    · rfl

theorem joinLines_cons {first : Located} {rest : List Located}
    (h : first.char = '\\' → ∀ second ∈ rest.head?, second.char ≠ '\n') :
    Located.joinLines (first :: rest) = first :: Located.joinLines rest := by
  rw [Located.joinLines]
  rintro line column line' column' more rfl rfl
  exact h rfl _ rfl rfl

/-! ## The single pass -/

theorem spliceFrom_terminator (trigraphs : Bool) (line column : Nat) {mark rest : List Char}
    (h : Terminates mark rest) :
    spliceFrom trigraphs line column (mark ++ rest) =
      ⟨'\n', line, column⟩ :: spliceFrom trigraphs (line + 1) 1 rest := by
  have ha := afterTerminator?_append h
  have hne : mark ≠ [] := by cases h <;> exact List.cons_ne_nil _ _
  obtain ⟨c, cs, rfl⟩ := List.exists_cons_of_ne_nil hne
  rw [List.cons_append] at ha ⊢
  rw [spliceFrom]
  split
  · next hr =>
    obtain rfl := Option.some.inj (ha.symm.trans hr)
    rfl
  · next hn => cases ha.symm.trans hn

theorem spliceFrom_joined (trigraphs : Bool) (line column : Nat) {c : Char} {cs rest : List Char}
    (hc : Inner c) (hb : (symbol trigraphs c cs).char = '\\')
    (hr : afterTerminator? (symbol trigraphs c cs).rest = some rest) :
    spliceFrom trigraphs line column (c :: cs) = spliceFrom trigraphs (line + 1) 1 rest := by
  rw [spliceFrom]
  split
  · next hn => cases (afterTerminator?_inner hc cs).symm.trans hn
  · dsimp only
    split
    · next hs =>
      rw [if_pos hb] at hs
      obtain rfl := Option.some.inj (hr.symm.trans hs)
      rfl
    · next hn =>
      rw [if_pos hb] at hn
      cases hr.symm.trans hn

theorem spliceFrom_inner (trigraphs : Bool) (line column : Nat) {c : Char} {cs : List Char}
    (hc : Inner c) (hn : (symbol trigraphs c cs).char = '\\' →
      afterTerminator? (symbol trigraphs c cs).rest = none) :
    spliceFrom trigraphs line column (c :: cs) =
      ⟨(symbol trigraphs c cs).char, line, column⟩ ::
        spliceFrom trigraphs line (column + (symbol trigraphs c cs).width)
          (symbol trigraphs c cs).rest := by
  rw [spliceFrom]
  split
  · next hs => cases (afterTerminator?_inner hc cs).symm.trans hs
  · dsimp only
    split
    · next hj =>
      split at hj
      · next hb => cases (hn hb).symm.trans hj
      · contradiction
    · rfl

theorem spliceFrom_nil (trigraphs : Bool) (line column : Nat) :
    spliceFrom trigraphs line column [] = [] := by
  rw [spliceFrom]

/-- Induction along the single pass: over a line terminator, a spliced line, and any other
symbol. -/
theorem splice_induction (trigraphs : Bool) {motive : List Char → Prop} (nil : motive [])
    (terminator : ∀ mark rest, Terminates mark rest → motive rest → motive (mark ++ rest))
    (joined : ∀ c cs rest, Inner c → (symbol trigraphs c cs).char = '\\' →
      afterTerminator? (symbol trigraphs c cs).rest = some rest → motive rest → motive (c :: cs))
    (inner : ∀ c cs, Inner c → ((symbol trigraphs c cs).char = '\\' →
      afterTerminator? (symbol trigraphs c cs).rest = none) →
      motive (symbol trigraphs c cs).rest → motive (c :: cs)) (text : List Char) :
    motive text := by
  induction hn : text.length using Nat.strongRecOn generalizing text with
  | ind n ih =>
    subst hn
    cases ha : afterTerminator? text with
    | some rest =>
      obtain ⟨mark, rfl, ht⟩ := terminates_of_afterTerminator? ha
      exact terminator mark rest ht (ih rest.length (length_afterTerminator? ha) rest rfl)
    | none =>
      cases text with
      | nil => exact nil
      | cons c cs =>
        have hc := inner_of_afterTerminator? ha
        have hlen := Nat.lt_succ_of_le (length_symbol_rest trigraphs c cs)
        by_cases hj : (symbol trigraphs c cs).char = '\\' ∧
            (afterTerminator? (symbol trigraphs c cs).rest).isSome
        · obtain ⟨hb, hsome⟩ := hj
          obtain ⟨rest, hr⟩ := Option.isSome_iff_exists.1 hsome
          have hlt := Nat.lt_trans (length_afterTerminator? hr) hlen
          exact joined c cs rest hc hb hr (ih rest.length hlt rest rfl)
        · refine inner c cs hc (fun hb => ?_) (ih _ hlen _ rfl)
          exact Option.not_isSome_iff_eq_none.1 fun hs => hj ⟨hb, hs⟩

/-- What is made of a text begins with a newline only where the text begins with a terminator. -/
theorem head?_symbols (trigraphs : Bool) {text : List Char} (h : afterTerminator? text = none)
    (before : List Char) :
    ∀ first ∈ (Located.symbols trigraphs (locateFrom before text)).head?, first.char ≠ '\n' := by
  cases text with
  | nil => cases trigraphs <;> nofun
  | cons c rest =>
    obtain ⟨piece, -, -, -, -, hchar, he⟩ :=
      symbols_inner trigraphs (inner_of_afterTerminator? h) before rest
    rw [he]
    rintro first ⟨⟩
    exact hchar.2

/-- Wherever it begins, the single pass gives the characters and the places that the phases
give. -/
theorem spliceFrom_eq_phases (trigraphs : Bool) {before text : List Char} (h : Apart before text) :
    spliceFrom trigraphs (lineBehind before) (columnBehind before) text =
      Located.phases trigraphs (locateFrom before text) := by
  unfold Located.phases
  induction text using splice_induction trigraphs generalizing before with
  | nil => rw [spliceFrom_nil]; cases trigraphs <;> rfl
  | terminator mark rest ht ih =>
    have hr := ih (apart_append_of_terminates ht before)
    rw [lineBehind_append_terminator ht h, columnBehind_append_terminator ht] at hr
    rw [spliceFrom_terminator trigraphs _ _ ht, symbols_terminator trigraphs ht,
      joinLines_cons fun hb => absurd hb (by decide : '\n' ≠ '\\'), hr]
  | joined c cs rest hc hb hr ih =>
    obtain ⟨piece, hp, hne, hw, hin, -, he⟩ := symbols_inner trigraphs hc before cs
    obtain ⟨mark, hm, ht⟩ := terminates_of_afterTerminator? hr
    have hi := ih (apart_append_of_terminates ht (before ++ piece))
    rw [lineBehind_append_terminator ht (apart_append_of_inner hne hin before _),
      columnBehind_append_terminator ht, lineBehind_append_inner hin] at hi
    rw [spliceFrom_joined trigraphs _ _ hc hb hr, hi, he, hb, hm, symbols_terminator trigraphs ht]
    rfl
  | inner c cs hc hn ih =>
    obtain ⟨piece, hp, hne, hw, hin, -, he⟩ := symbols_inner trigraphs hc before cs
    have hi := ih (apart_append_of_inner hne hin before _)
    rw [lineBehind_append_inner hin, columnBehind_append_inner hin, hw] at hi
    rw [spliceFrom_inner trigraphs _ _ hc hn, hi, he,
      joinLines_cons fun hb => head?_symbols trigraphs (hn hb) _]

/-! ## Characters without their places -/

theorem map_char_replaceTrigraphs (chars : List Located) :
    (Located.replaceTrigraphs chars).map Located.char =
      replaceTrigraphs (chars.map Located.char) := by
  fun_induction Located.replaceTrigraphs chars with
  | case1 => rfl
  | case2 line column line' column' mark rest char hm ih =>
    simp only [List.map_cons, replaceTrigraphs, hm, ih]
  | case3 line column line' column' mark rest hm ih =>
    rw [List.map_cons, ih]
    simp only [List.map_cons, replaceTrigraphs, hm]
  | case4 c rest hn ih =>
    rw [List.map_cons, List.map_cons, replaceTrigraphs, ih]
    intro mark more hc hr
    obtain ⟨second, behind, rfl, hs, hb⟩ := List.map_eq_cons_iff.1 hr
    obtain ⟨third, behind, rfl, -, -⟩ := List.map_eq_cons_iff.1 hb
    obtain ⟨char, line, column⟩ := c
    obtain ⟨char', line', column'⟩ := second
    exact hn line column line' column' third behind (by rw [← hc]) (by rw [← hs])

theorem map_char_joinLines (chars : List Located) :
    (Located.joinLines chars).map Located.char = joinLines (chars.map Located.char) := by
  fun_induction Located.joinLines chars with
  | case1 => rfl
  | case2 _ _ _ _ rest ih => rw [ih]; rfl
  | case3 c rest hn ih =>
    rw [List.map_cons, List.map_cons, joinLines, ih]
    intro more hc hr
    obtain ⟨second, behind, rfl, hs, -⟩ := List.map_eq_cons_iff.1 hr
    obtain ⟨char, line, column⟩ := c
    obtain ⟨char', line', column'⟩ := second
    exact hn line column line' column' behind (by rw [← hc]) (by rw [← hs])

theorem map_char_phases (trigraphs : Bool) (chars : List Located) :
    (Located.phases trigraphs chars).map Located.char =
      phases trigraphs (chars.map Located.char) := by
  rw [Located.phases, map_char_joinLines, phases, Located.symbols]
  split
  · rw [map_char_replaceTrigraphs, map_char_unifyNewlines]
  · rw [map_char_unifyNewlines]

/-- The logical characters are what the phases make of the text. -/
theorem map_char_splice (trigraphs : Bool) (text : List Char) :
    (splice trigraphs text).map Located.char = phases trigraphs text := by
  have h := spliceFrom_eq_phases trigraphs (apart_nil text)
  rw [splice, ← map_char_locateFrom [] text, ← map_char_phases, ← h, map_char_locateFrom]
  rfl

/-! ## Unified newlines -/

theorem afterTerminator?_unifyNewlines (text : List Char) :
    afterTerminator? (unifyNewlines text) = (afterTerminator? text).map unifyNewlines := by
  cases ha : afterTerminator? text with
  | some rest =>
    obtain ⟨mark, rfl, ht⟩ := terminates_of_afterTerminator? ha
    rw [unifyNewlines_terminator ht]
    rfl
  | none =>
    cases text with
    | nil => rfl
    | cons c rest =>
      have hc := inner_of_afterTerminator? ha
      rw [unifyNewlines_inner hc, afterTerminator?_inner hc]
      rfl

theorem symbol_unifyNewlines (trigraphs : Bool) (c : Char) (rest : List Char) :
    symbol trigraphs c (unifyNewlines rest) =
      { symbol trigraphs c rest with rest := unifyNewlines (symbol trigraphs c rest).rest } := by
  obtain ⟨mark, behind, char, ht, rfl, rfl, hm, hs⟩ | ⟨hs, hn⟩ := symbol_cases trigraphs c rest
  · obtain ⟨hmark, -⟩ := inner_of_trigraph? hm
    rw [hs, unifyNewlines_inner (by decide), unifyNewlines_inner hmark]
    simp [symbol, ht, hm]
  · rw [hs]
    obtain ⟨mark, behind, char, ht, rfl, hr, hm, -⟩ | ⟨hs, -⟩ :=
      symbol_cases trigraphs c (unifyNewlines rest)
    · obtain ⟨hmark, -⟩ := inner_of_trigraph? hm
      obtain ⟨tail, rfl, htail⟩ := eq_cons_of_unifyNewlines hr (by decide)
      obtain ⟨last, rfl, -⟩ := eq_cons_of_unifyNewlines htail hmark.2
      exact absurd (hm.symm.trans (hn mark last ht rfl rfl)) nofun
    · exact hs

/-- The kind of line terminator makes no difference. -/
theorem spliceFrom_unifyNewlines (trigraphs : Bool) (line column : Nat) (text : List Char) :
    spliceFrom trigraphs line column (unifyNewlines text) =
      spliceFrom trigraphs line column text := by
  induction text using splice_induction trigraphs generalizing line column with
  | nil => rfl
  | terminator mark rest ht ih =>
    have hl := spliceFrom_terminator trigraphs line column (.lf (unifyNewlines rest))
    rw [List.singleton_append] at hl
    rw [unifyNewlines_terminator ht, spliceFrom_terminator trigraphs _ _ ht, hl, ih]
  | joined c cs rest hc hb hr ih =>
    have hs := symbol_unifyNewlines trigraphs c cs
    have hl : spliceFrom trigraphs line column (c :: unifyNewlines cs) =
        spliceFrom trigraphs (line + 1) 1 (unifyNewlines rest) :=
      spliceFrom_joined trigraphs _ _ hc (by rw [hs]; exact hb)
        (by rw [hs, afterTerminator?_unifyNewlines, hr]; rfl)
    rw [unifyNewlines_inner hc, hl, spliceFrom_joined trigraphs _ _ hc hb hr, ih]
  | inner c cs hc hn ih =>
    have hs := symbol_unifyNewlines trigraphs c cs
    have hu : (symbol trigraphs c (unifyNewlines cs)).char = '\\' →
        afterTerminator? (symbol trigraphs c (unifyNewlines cs)).rest = none := by
      rw [hs, afterTerminator?_unifyNewlines]
      exact fun hb => by rw [hn hb]; rfl
    rw [unifyNewlines_inner hc, spliceFrom_inner trigraphs _ _ hc hu,
      spliceFrom_inner trigraphs _ _ hc hn, hs, ih]

/-- The single pass gives the characters that the three phases give one after the other, each with
the physical place where its spelling begins, and it does not matter which line terminators the
text has. -/
theorem splice_eq_phases (trigraphs : Bool) (text : List Char) :
    (splice trigraphs text).map Located.char = phases trigraphs text ∧
      splice trigraphs text = Located.phases trigraphs (locate text) ∧
      splice trigraphs (unifyNewlines text) = splice trigraphs text :=
  ⟨map_char_splice trigraphs text, spliceFrom_eq_phases trigraphs (apart_nil text),
    spliceFrom_unifyNewlines trigraphs 1 1 text⟩

example : phases true "a\\\r\nb??/\n???=".toList = "ab?#".toList := by decide

end CPreprocessor.Source

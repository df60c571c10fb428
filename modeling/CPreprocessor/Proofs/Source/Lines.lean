import CPreprocessor.Proofs.Source.Phases

/-!
# Physical lines

The first physical lines of a text, with their terminators, give the first part of its logical text,
cut where the last of these terminators stands.

* `takeLines`: the first lines. `takeLines_prefix`: they are the front of the text.
* `splice_takeLines`: the logical text of the lines up to one whose terminator is not spliced away.
-/

namespace CPreprocessor.Source

/-- The first physical lines of a text with their terminators. -/
def takeLines : Nat → List Char → List Char
  | 0, _ => []
  | _ + 1, [] => []
  | n + 1, '\r' :: '\n' :: rest => '\r' :: '\n' :: takeLines n rest
  | n + 1, c :: rest => c :: takeLines (if c = '\r' ∨ c = '\n' then n else n + 1) rest

variable {n : Nat} {trigraphs : Bool}

theorem takeLines_zero (text : List Char) : takeLines 0 text = [] := by
  rw [takeLines]

theorem takeLines_nil (n : Nat) : takeLines n [] = [] := by
  cases n <;> rw [takeLines]

theorem takeLines_inner {c : Char} (h : Inner c) (n : Nat) (rest : List Char) :
    takeLines (n + 1) (c :: rest) = c :: takeLines (n + 1) rest := by
  rw [takeLines, if_neg (not_or.2 h)]
  rintro more rfl
  exact absurd rfl h.1

theorem takeLines_terminator {mark rest : List Char} (h : Terminates mark rest) (n : Nat) :
    takeLines (n + 1) (mark ++ rest) = mark ++ takeLines n rest := by
  cases h with
  | crlf => exact takeLines.eq_3 n rest
  | lf => exact takeLines.eq_4 n '\n' rest nofun
  | cr h =>
    refine takeLines.eq_4 n '\r' rest fun more _ he => h ?_
    rw [he]
    rfl

theorem takeLines_prefix (n : Nat) (text : List Char) : takeLines n text <+: text := by
  fun_induction takeLines n text with
  | case1 | case2 => exact List.nil_prefix
  | case3 n rest ih => exact (List.prefix_append_right_inj ['\r', '\n']).2 ih
  | case4 n c rest _ ih => exact (List.prefix_append_right_inj [c]).2 ih

theorem head?_takeLines (n : Nat) (text : List Char) :
    (takeLines (n + 1) text).head? = text.head? := by
  unfold takeLines
  split <;> first | rfl | contradiction

/-- The terminator of a line is one in front of fewer lines, too. -/
theorem Terminates.takeLines {mark rest : List Char} (h : Terminates mark rest) (n : Nat) :
    Terminates mark (takeLines n rest) := by
  cases h with
  | crlf => exact .crlf _
  | lf => exact .lf _
  | cr h =>
    refine .cr ?_
    cases n with
    | zero => rw [takeLines_zero]; exact nofun
    | succ n => rwa [head?_takeLines]

theorem afterTerminator?_takeLines (n : Nat) (text : List Char) :
    afterTerminator? (takeLines (n + 1) text) = (afterTerminator? text).map (takeLines n) := by
  cases ha : afterTerminator? text with
  | some rest =>
    obtain ⟨mark, rfl, ht⟩ := terminates_of_afterTerminator? ha
    rw [takeLines_terminator ht, afterTerminator?_append (ht.takeLines n)]
    rfl
  | none =>
    cases text with
    | nil => rw [takeLines_nil]; rfl
    | cons c rest =>
      have hc := inner_of_afterTerminator? ha
      rw [takeLines_inner hc, afterTerminator?_inner hc]
      rfl

/-- What is no terminator stands in front of the lines where it stands in front of the text. -/
theorem eq_cons_of_takeLines {text more : List Char} {d : Char} (hd : Inner d)
    (h : takeLines (n + 1) text = d :: more) :
    ∃ rest, text = d :: rest ∧ takeLines (n + 1) rest = more := by
  have hh := head?_takeLines n text
  rw [h] at hh
  obtain ⟨rest, rfl⟩ := List.head?_eq_some_iff.1 hh.symm
  rw [takeLines_inner hd] at h
  exact ⟨rest, rfl, (List.cons.inj h).2⟩

theorem symbol_takeLines (trigraphs : Bool) (c : Char) (n : Nat) (rest : List Char) :
    symbol trigraphs c (takeLines (n + 1) rest) =
      { symbol trigraphs c rest with
        rest := takeLines (n + 1) (symbol trigraphs c rest).rest } := by
  obtain ⟨mark, behind, char, ht, rfl, rfl, hm, hs⟩ | ⟨hs, hn⟩ := symbol_cases trigraphs c rest
  · obtain ⟨hmark, -⟩ := inner_of_trigraph? hm
    rw [hs, takeLines_inner (by decide), takeLines_inner hmark]
    simp [symbol, ht, hm]
  · rw [hs]
    obtain ⟨mark, behind, char, ht, rfl, hr, hm, -⟩ | ⟨hs, -⟩ :=
      symbol_cases trigraphs c (takeLines (n + 1) rest)
    · obtain ⟨hmark, -⟩ := inner_of_trigraph? hm
      obtain ⟨tail, rfl, htail⟩ := eq_cons_of_takeLines (by decide) hr
      obtain ⟨last, rfl, -⟩ := eq_cons_of_takeLines hmark htail
      exact absurd (hm.symm.trans (hn mark last ht rfl rfl)) (Option.some_ne_none char)
    · exact hs

theorem inner_symbol {c : Char} (h : Inner c) (rest : List Char) :
    Inner (symbol trigraphs c rest).char := by
  obtain ⟨_, _, _, -, -, -, hm, hs⟩ | ⟨hs, -⟩ := symbol_cases trigraphs c rest
  · rw [hs]
    exact (inner_of_trigraph? hm).2
  · rw [hs]
    exact h

/-- Where the logical text of a text goes on behind a newline, that of the lines up to there
ends. -/
theorem spliceFrom_takeLines {line column : Nat} {text : List Char} {front behind : List Located}
    {last : Located} (hl : last.char = '\n')
    (h : spliceFrom trigraphs line column text = front ++ last :: behind) :
    ∃ more, last.line = line + more ∧
      spliceFrom trigraphs line column (takeLines (more + 1) text) = front ++ [last] := by
  induction text using splice_induction trigraphs generalizing line column front with
  | nil =>
    rw [spliceFrom_nil] at h
    exact absurd h.symm (by simp)
  | terminator mark rest ht ih =>
    rw [spliceFrom_terminator trigraphs line column ht] at h
    cases front with
    | nil =>
      obtain ⟨rfl, -⟩ := List.cons.inj h
      refine ⟨0, rfl, ?_⟩
      rw [takeLines_terminator ht, spliceFrom_terminator trigraphs line column (ht.takeLines 0),
        takeLines_zero, spliceFrom_nil]
      rfl
    | cons first front =>
      obtain ⟨rfl, hrest⟩ := List.cons.inj h
      obtain ⟨more, hm, he⟩ := ih hrest
      refine ⟨more + 1, by omega, ?_⟩
      rw [takeLines_terminator ht,
        spliceFrom_terminator trigraphs line column (ht.takeLines (more + 1)), he]
      rfl
  | joined c cs rest hc hb hr ih =>
    rw [spliceFrom_joined trigraphs line column hc hb hr] at h
    obtain ⟨more, hm, he⟩ := ih h
    have hs := symbol_takeLines trigraphs c (more + 1) cs
    refine ⟨more + 1, by omega, ?_⟩
    rw [takeLines_inner hc, ← he]
    exact spliceFrom_joined trigraphs line column hc (by rw [hs]; exact hb)
      (by rw [hs, afterTerminator?_takeLines, hr]; rfl)
  | inner c cs hc hn ih =>
    rw [spliceFrom_inner trigraphs line column hc hn] at h
    cases front with
    | nil =>
      obtain ⟨rfl, -⟩ := List.cons.inj h
      exact absurd hl (inner_symbol hc cs).2
    | cons first front =>
      obtain ⟨rfl, hrest⟩ := List.cons.inj h
      obtain ⟨more, hm, he⟩ := ih hrest
      have hs := symbol_takeLines trigraphs c more cs
      have hkeep : (symbol trigraphs c (takeLines (more + 1) cs)).char = '\\' →
          afterTerminator? (symbol trigraphs c (takeLines (more + 1) cs)).rest = none := by
        rw [hs, afterTerminator?_takeLines]
        exact fun hb => by rw [hn hb]; rfl
      refine ⟨more, hm, ?_⟩
      rw [takeLines_inner hc, spliceFrom_inner trigraphs line column hc hkeep, hs, he]
      rfl

/-- The lines up to one whose terminator is not spliced away have the logical text up to there. -/
theorem splice_takeLines {text : List Char} {front behind : List Located} {last : Located}
    (hl : last.char = '\n') (h : splice trigraphs text = front ++ last :: behind) :
    splice trigraphs (takeLines last.line text) = front ++ [last] := by
  obtain ⟨more, hm, he⟩ := spliceFrom_takeLines hl h
  rw [hm, Nat.add_comm 1 more]
  exact he

end CPreprocessor.Source

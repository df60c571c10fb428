import CPreprocessor.Literal.Merge

/-!
# The values of string literals

The body of a literal stands for a list of elements: numbers, and escaped characters. Joining two
bodies must not let an escape at the end of the first one take in what the second one begins with.

* `decode`: the elements of a body, read from left to right.
* `decode_append`: a body is decoded in two parts where no escape is cut.
* `decode_respell`: joined bodies stand for what they stand for one after the other.
-/

namespace CPreprocessor.Literal

/-- What a character or an escape in a body stands for. -/
inductive Element where
  /-- The number that an escape gives, or the code point of a character. -/
  | number (value : Nat)
  /-- A character behind a backslash. -/
  | escaped (c : Char)
deriving DecidableEq, Repr

/-- The value of a digit of base sixteen. -/
def digitValue (c : Char) : Nat :=
  if c.isDigit then c.toNat - 48 else if 'a' ≤ c then c.toNat - 87 else c.toNat - 55

/-- The number that digits spell. -/
def numberOf (base : Nat) (digits : List Char) : Nat :=
  digits.foldl (fun value digit => value * base + digitValue digit) 0

/-- The digits of base eight that a text begins with, as far as there is room for them. -/
def octalDigits (room : Nat) (text : List Char) : List Char := (text.take room).takeWhile isOctal

/-- The elements of a body: `\x` with all hexadecimal digits behind it, a backslash with one to
three octal digits, a backslash with any other character, and single characters. -/
def decode : List Char → List Element
  | [] => []
  | '\\' :: 'x' :: rest =>
    .number (numberOf 16 (rest.takeWhile isHexadecimal)) :: decode (rest.dropWhile isHexadecimal)
  | '\\' :: c :: rest =>
    if isOctal c then
      let digits := octalDigits 2 rest
      .number (numberOf 8 (c :: digits)) :: decode (rest.drop digits.length)
    else .escaped c :: decode rest
  | c :: rest => .number c.toNat :: decode rest
termination_by body => body.length
decreasing_by
  · exact Nat.lt_succ_of_lt (Nat.lt_succ_of_le (List.dropWhile_suffix _).length_le)
  · exact Nat.lt_succ_of_lt (Nat.lt_succ_of_le (List.drop_suffix _ _).length_le)
  · exact Nat.lt_succ_of_lt (Nat.lt_succ_self _)
  · exact Nat.lt_succ_self _

/-! ## Reading one element -/

theorem decode_hexadecimal (rest : List Char) :
    decode ('\\' :: 'x' :: rest) =
      .number (numberOf 16 (rest.takeWhile isHexadecimal)) ::
        decode (rest.dropWhile isHexadecimal) := by
  rw [decode]

theorem decode_octal {c : Char} (h : isOctal c) (rest : List Char) :
    decode ('\\' :: c :: rest) =
      .number (numberOf 8 (c :: octalDigits 2 rest)) ::
        decode (rest.drop (octalDigits 2 rest).length) := by
  rw [decode, if_pos h]
  rintro rfl
  contradiction

theorem decode_escaped {c : Char} (hx : c ≠ 'x') (h : ¬isOctal c) (rest : List Char) :
    decode ('\\' :: c :: rest) = .escaped c :: decode rest := by
  rw [decode, if_neg h]
  exact hx

theorem decode_plain {c : Char} (h : c ≠ '\\') (rest : List Char) :
    decode (c :: rest) = .number c.toNat :: decode rest := by
  rw [decode]
  · rintro _ rfl
    contradiction
  · rintro _ _ rfl
    contradiction

/-! ## The escape at the end of a body -/

theorem isHexadecimal_of_isOctal {c : Char} (h : isOctal c) : isHexadecimal c := by
  simp only [isOctal, Bool.and_eq_true, decide_eq_true_eq] at h
  simp only [isHexadecimal, Char.isDigit, Bool.or_eq_true, Bool.and_eq_true, decide_eq_true_eq]
  exact .inl (.inl ⟨h.1, Char.le_trans h.2 (by decide)⟩)

theorem ne_backslash_of_isHexadecimal {c : Char} (h : isHexadecimal c) : c ≠ '\\' := by
  rintro rfl
  contradiction

namespace Escape

/-- The escape that a body leads to behind another one. -/
def through (escape : Escape) (body : List Char) : Escape :=
  body.foldl (fun escape c => escape.next c) escape

@[simp] theorem through_nil (escape : Escape) : escape.through [] = escape := rfl

@[simp] theorem through_cons (escape : Escape) (c : Char) (body : List Char) :
    escape.through (c :: body) = (escape.next c).through body := rfl

/-- Whether a character behind an escape is read as part of it. -/
def takes : Escape → Char → Bool
  | backslash, _ => true
  | hexadecimal, c => isHexadecimal c
  | octal (_ + 1), c => isOctal c
  | _, _ => false

/-- The escape takes no part of the text. -/
def Ends (escape : Escape) (text : List Char) : Prop := ∀ c ∈ text.head?, escape.takes c = false

theorem next_of_not_takes {escape : Escape} {c : Char} (h : escape.takes c = false) :
    escape.next c = start c := by
  cases escape with
  | absent => rfl
  | backslash => contradiction
  | hexadecimal => exact if_neg (by simpa [takes] using h)
  | octal room =>
    cases room with
    | zero => rfl
    | succ room => exact if_neg (by simpa [takes] using h)

theorem not_takes_of_not_isOpen {escape : Escape} (hb : escape ≠ backslash)
    (h : escape.isOpen = false) (c : Char) : escape.takes c = false := by
  cases escape with
  | absent => rfl
  | backslash | hexadecimal => contradiction
  | octal room => cases room <;> first | contradiction | rfl

theorem not_takes_of_not_isHexadecimal {escape : Escape} {c : Char} (hb : escape ≠ backslash)
    (h : isHexadecimal c = false) : escape.takes c = false := by
  cases escape with
  | absent => rfl
  | backslash => contradiction
  | hexadecimal => exact h
  | octal room =>
    cases room with
    | zero => rfl
    | succ room =>
      refine Bool.eq_false_iff.2 fun ho => ?_
      exact absurd (isHexadecimal_of_isOctal ho) (by simp [h])

/-- What follows the first escape leads to the escape that it leads to alone. -/
theorem ends_lastEscape {escape : Escape} {text right : List Char} (he : escape.Ends text)
    (hr : (escape.through text).Ends right) : (lastEscape text).Ends right := by
  cases text with
  | nil => exact fun _ _ => rfl
  | cons c rest =>
    rw [through_cons, next_of_not_takes (he c rfl)] at hr
    exact hr

theorem start_eq_backslash (c : Char) : start c = backslash ↔ c = '\\' := by
  unfold start
  split <;> simp_all

/-- A backslash stands for itself only behind another one that does not. -/
theorem next_eq_backslash (escape : Escape) (c : Char) :
    escape.next c = backslash ↔ escape ≠ backslash ∧ c = '\\' := by
  by_cases hb : escape = backslash
  · subst hb
    simp only [next]
    split
    · simp
    · split <;> simp
  · by_cases hc : c = '\\'
    · have ht : escape.takes c = false := not_takes_of_not_isHexadecimal hb (by subst hc; decide)
      rw [next_of_not_takes ht, start_eq_backslash]
      simp [hb]
    · simp only [hc, and_false, iff_false]
      cases escape with
      | absent => simpa [next, start_eq_backslash] using hc
      | backslash => contradiction
      | hexadecimal =>
        simp only [next]
        split
        · nofun
        · simpa [start_eq_backslash] using hc
      | octal room =>
        cases room with
        | zero => simpa [next, start_eq_backslash] using hc
        | succ room =>
          simp only [next]
          split
          · nofun
          · simpa [start_eq_backslash] using hc

/-- Whether a body ends in a backslash that stands for nothing yet depends on what is before it only
through that same fact. -/
theorem through_eq_backslash {escape other : Escape} (h : escape = backslash ↔ other = backslash)
    (body : List Char) : escape.through body = backslash ↔ other.through body = backslash := by
  induction body generalizing escape other with
  | nil => exact h
  | cons c rest ih =>
    refine ih ?_
    rw [next_eq_backslash, next_eq_backslash, ne_eq, ne_eq, h]

end Escape

/-! ## Bodies in two parts -/

open Escape

/-- A hexadecimal escape reads the same digits of a body whatever follows, if it takes nothing of
that. -/
theorem hexadecimal_append {body right : List Char}
    (h : (through .hexadecimal body).Ends right) :
    (body ++ right).takeWhile isHexadecimal = body.takeWhile isHexadecimal ∧
      (body ++ right).dropWhile isHexadecimal = body.dropWhile isHexadecimal ++ right := by
  induction body with
  | nil =>
    cases right with
    | nil => exact ⟨rfl, rfl⟩
    | cons c rest =>
      have hc : isHexadecimal c = false := h c rfl
      simp [hc]
  | cons c rest ih =>
    by_cases hc : isHexadecimal c
    · rw [through_cons, next, if_pos hc] at h
      simpa [hc] using ih h
    · simp [hc]

theorem hexadecimal_through (body : List Char) :
    through .hexadecimal (body.dropWhile isHexadecimal) = through .hexadecimal body ∧
      Ends .hexadecimal (body.dropWhile isHexadecimal) := by
  induction body with
  | nil => exact ⟨rfl, nofun⟩
  | cons c rest ih =>
    by_cases hc : isHexadecimal c
    · rw [List.dropWhile_cons_of_pos hc, through_cons, next, if_pos hc]
      exact ih
    · rw [List.dropWhile_cons_of_neg hc]
      refine ⟨rfl, fun d hd => ?_⟩
      obtain rfl := Option.some.inj hd
      simpa [takes] using hc

theorem octalDigits_cons_of_pos {c : Char} (h : isOctal c) (room : Nat) (rest : List Char) :
    octalDigits (room + 1) (c :: rest) = c :: octalDigits room rest := by
  simp [octalDigits, h]

theorem octalDigits_cons_of_neg {c : Char} (h : ¬isOctal c) (room : Nat) (rest : List Char) :
    octalDigits (room + 1) (c :: rest) = [] := by
  simp [octalDigits, h]

theorem octal_append {room : Nat} {body right : List Char}
    (h : (through (.octal room) body).Ends right) :
    octalDigits room (body ++ right) = octalDigits room body := by
  induction room generalizing body with
  | zero => simp [octalDigits]
  | succ room ih =>
    cases body with
    | nil =>
      cases right with
      | nil => rfl
      | cons c rest =>
        have hc : isOctal c = false := h c rfl
        exact octalDigits_cons_of_neg (by simp [hc]) room rest
    | cons c rest =>
      by_cases hc : isOctal c
      · rw [through_cons, next, if_pos hc] at h
        rw [List.cons_append, octalDigits_cons_of_pos hc, octalDigits_cons_of_pos hc, ih h]
      · rw [List.cons_append, octalDigits_cons_of_neg hc, octalDigits_cons_of_neg hc]

theorem octal_through (room : Nat) (body : List Char) :
    ∃ left, through (.octal left) (body.drop (octalDigits room body).length) =
        through (.octal room) body ∧
      Ends (.octal left) (body.drop (octalDigits room body).length) := by
  induction room generalizing body with
  | zero => exact ⟨0, by simp [octalDigits], fun _ _ => rfl⟩
  | succ room ih =>
    cases body with
    | nil => exact ⟨room + 1, rfl, nofun⟩
    | cons c rest =>
      by_cases hc : isOctal c
      · rw [octalDigits_cons_of_pos hc, through_cons, next, if_pos hc]
        exact ih rest
      · rw [octalDigits_cons_of_neg hc]
        refine ⟨room + 1, rfl, fun d hd => ?_⟩
        obtain rfl := Option.some.inj hd
        simpa [takes] using hc

theorem length_octalDigits_le (room : Nat) (body : List Char) :
    (octalDigits room body).length ≤ body.length :=
  Nat.le_trans (List.takeWhile_sublist _).length_le (List.take_sublist _ _).length_le

/-- A body is decoded in two parts where the first one does not end in an escape that takes in the
beginning of the second. -/
theorem decode_append {left right : List Char} (h : (lastEscape left).Ends right) :
    decode (left ++ right) = decode left ++ decode right := by
  fun_induction decode left with
  | case1 => rfl
  | case2 rest ih =>
    obtain ⟨ht, hd⟩ := hexadecimal_append h
    obtain ⟨hthrough, hends⟩ := hexadecimal_through rest
    rw [List.cons_append, List.cons_append, decode_hexadecimal, ht, hd,
      ih (ends_lastEscape hends (hthrough ▸ h))]
    rfl
  | case3 c rest hx ho digits ih =>
    have h : (through (.octal 2) rest).Ends right := by
      have hn : next c .backslash = .octal 2 := by rw [next, if_neg hx, if_pos ho]
      rw [← hn]
      exact h
    obtain ⟨room, hthrough, hends⟩ := octal_through 2 rest
    rw [List.cons_append, List.cons_append, decode_octal ho, octal_append h,
      List.drop_append_of_le_length (length_octalDigits_le 2 rest),
      ih (ends_lastEscape hends (hthrough ▸ h))]
    rfl
  | case4 c rest hx ho ih =>
    have hn : next c .backslash = .absent := by rw [next, if_neg hx, if_neg ho]
    have h : (lastEscape rest).Ends right := by
      change (through (next c .backslash) rest).Ends right at h
      rwa [hn] at h
    rw [List.cons_append, List.cons_append, decode_escaped hx ho, ih h]
    rfl
  | case5 c rest hx ho ih =>
    by_cases hc : c = '\\'
    · subst hc
      cases rest with
      | cons d rest => exact (ho d rest rfl rfl).elim
      | nil =>
        cases right with
        | nil => simp [decode]
        | cons d right => exact absurd (h d rfl) nofun
    · have h : (lastEscape rest).Ends right := by
        change (through (start c) rest).Ends right at h
        rwa [start, if_neg hc] at h
      rw [List.cons_append, decode_plain hc, ih h]
      rfl

/-! ## Respelled characters -/

theorem octalDigit_value (value : Nat) :
    isOctal (octalDigit value) ∧ digitValue (octalDigit value) = value % 8 := by
  have h (digit : Fin 8) : isOctal (Char.ofNat (48 + digit)) ∧
      digitValue (Char.ofNat (48 + digit)) = digit := by
    decide +revert
  exact h ⟨value % 8, Nat.mod_lt _ (by decide)⟩

theorem toNat_lt_of_isHexadecimal {c : Char} (h : isHexadecimal c) : c.toNat < 128 := by
  simp only [isHexadecimal, Char.isDigit, Bool.or_eq_true, Bool.and_eq_true, decide_eq_true_eq]
    at h
  have hle (d : Char) (hd : d.toNat < 128) (h : c ≤ d) : c.toNat < 128 := Nat.lt_of_le_of_lt h hd
  rcases h with (h | h) | h
  all_goals exact hle _ (by decide) h.2

/-- Three octal digits spell the code point of a character, whatever follows. -/
theorem decode_octalEscape {c : Char} (h : c.toNat < 512) (rest : List Char) :
    decode (octalEscape c ++ rest) = .number c.toNat :: decode rest := by
  obtain ⟨ho₁, hv₁⟩ := octalDigit_value (c.toNat / 64)
  obtain ⟨ho₂, hv₂⟩ := octalDigit_value (c.toNat / 8)
  obtain ⟨ho₃, hv₃⟩ := octalDigit_value c.toNat
  have hd : octalDigits 2 (octalDigit (c.toNat / 8) :: octalDigit c.toNat :: rest) =
      [octalDigit (c.toNat / 8), octalDigit c.toNat] := by
    rw [octalDigits_cons_of_pos ho₂, octalDigits_cons_of_pos ho₃]
    rfl
  have hn : numberOf 8 [octalDigit (c.toNat / 64), octalDigit (c.toNat / 8),
      octalDigit c.toNat] = c.toNat := by
    simp only [numberOf, List.foldl_cons, List.foldl_nil, hv₁, hv₂, hv₃]
    omega
  change decode ('\\' :: octalDigit (c.toNat / 64) :: octalDigit (c.toNat / 8) ::
    octalDigit c.toNat :: rest) = _
  rw [decode_octal ho₁, hd, hn]
  rfl

/-- A body in which a character stands behind every backslash that begins an escape. -/
def Whole (body : List Char) : Prop := lastEscape body ≠ .backslash

instance (body : List Char) : Decidable (Whole body) := inferInstanceAs (Decidable (_ ≠ _))

/-- A character is respelled, or the body before it takes no part of it. -/
theorem respell_cases {left : List Char} (h : Whole left) (c : Char) (rest : List Char) :
    (isHexadecimal c ∧ respell left (c :: rest) = octalEscape c ++ rest) ∨
      ((lastEscape left).takes c = false ∧ respell left (c :: rest) = c :: rest) := by
  by_cases hr : isHexadecimal c && (lastEscape left).isOpen
  · exact .inl ⟨(Bool.and_eq_true_iff.1 hr).1, if_pos hr⟩
  · refine .inr ⟨?_, if_neg hr⟩
    cases hx : isHexadecimal c with
    | false => exact not_takes_of_not_isHexadecimal h hx
    | true => exact not_takes_of_not_isOpen h (by simpa [hx] using hr) c

theorem ends_cons {escape : Escape} {c : Char} (h : escape.takes c = false) (rest : List Char) :
    escape.Ends (c :: rest) := by
  intro d hd
  obtain rfl := Option.some.inj hd
  exact h

/-- Joined bodies stand for what they stand for one after the other. -/
theorem decode_respell {left : List Char} (h : Whole left) (right : List Char) :
    decode (left ++ respell left right) = decode left ++ decode right := by
  cases right with
  | nil => exact decode_append nofun
  | cons c rest =>
    rcases respell_cases h c rest with ⟨hx, hr⟩ | ⟨ht, hr⟩
    · have hb : (lastEscape left).takes '\\' = false :=
        not_takes_of_not_isHexadecimal h (by decide)
      have hc : c.toNat < 512 := Nat.lt_trans (toNat_lt_of_isHexadecimal hx) (by decide)
      have he : (lastEscape left).Ends (octalEscape c ++ rest) := ends_cons hb _
      rw [hr, decode_append he, decode_octalEscape hc,
        decode_plain (ne_backslash_of_isHexadecimal hx)]
    · rw [hr, decode_append (ends_cons ht rest)]

theorem lastEscape_append (left right : List Char) :
    lastEscape (left ++ right) = (lastEscape left).through right := List.foldl_append

theorem whole_append {left : List Char} (h : Whole left) (right : List Char) :
    Whole (left ++ right) ↔ Whole right := by
  have hb : lastEscape left = .backslash ↔ Escape.absent = .backslash := iff_of_false h nofun
  unfold Whole
  rw [lastEscape_append]
  exact not_congr (through_eq_backslash hb right)

theorem whole_concat (body : List Char) {c : Char} (h : c ≠ '\\') : Whole (body ++ [c]) := by
  unfold Whole
  rw [lastEscape_append]
  exact fun hb => h ((next_eq_backslash _ c).1 hb).2

theorem whole_octalEscape (c : Char) : Whole (octalEscape c) := by
  have hd : octalDigit c.toNat ≠ '\\' :=
    ne_backslash_of_isHexadecimal (isHexadecimal_of_isOctal (octalDigit_value _).1)
  exact whole_concat ['\\', octalDigit (c.toNat / 64), octalDigit (c.toNat / 8)] hd

theorem whole_respell {left right : List Char} (hl : Whole left) (hr : Whole right) :
    Whole (left ++ respell left right) := by
  rw [whole_append hl]
  cases right with
  | nil => exact hr
  | cons c rest =>
    rcases respell_cases hl c rest with ⟨hx, he⟩ | ⟨-, he⟩
    · have hc : Whole [c] := whole_concat [] (ne_backslash_of_isHexadecimal hx)
      rw [he, whole_append (whole_octalEscape c)]
      exact (whole_append hc rest).1 hr
    · rwa [he]

end CPreprocessor.Literal

import CPreprocessor.Proofs.Lexeme.Closing
import CPreprocessor.Proofs.Lexeme.Words

/-!
# Classes of lexemes

What numbers, identifiers, literals and punctuators are, apart from how they are read. Where one of
them is read, it is the longest text of any class that stands there.

* `OfClass`: the texts of a class. `OfClass.unique`: no text is of two classes.
* `IsNumber.read`, `opening?_eq_some`, `length_le_of_punctuator?`: no reader stops before the
  longest text of its own class.
* `Munched`: the longest text of any class, or one character where there is none.
  `munched_readLiteral`: it is what is read.
* `Spelled`, `spelled_of_mem_divide`: the texts that the lexemes of any text can have.
-/

namespace CPreprocessor.Lexeme

open Unicode

variable {c quote : Char} {rest chars text behind : List Char} {kind : Token.Kind} {cut : Cut}

/-! ## Numbers -/

/-- The text of a preprocessing number, by what stands at its end. -/
inductive IsNumber : List Char → Prop where
  | digit {c : Char} (hc : isDigit c) : IsNumber [c]
  | point {c : Char} (hc : isDigit c) : IsNumber ['.', c]
  | more {text : List Char} {c : Char} (h : IsNumber text) (hc : isWord c ∨ c = '.') :
      IsNumber (text ++ [c])
  | sign {text : List Char} {e s : Char} (h : IsNumber text) (he : isExponent e)
      (hs : s = '+' ∨ s = '-') : IsNumber (text ++ [e, s])

/-- Whether a sign may follow. -/
def endsInExponent (text : List Char) : Bool := text.getLast?.any isExponent

theorem isExponent_of_isDigit (hc : isDigit c) : isExponent c = false := by
  have hnot : ∀ e ∈ ['e', 'E', 'p', 'P'], isDigit e = false := forall_of_all (by decide +kernel)
  refine eq_false_of_ne_true fun he => ?_
  rw [hnot c (by simpa [isExponent, or_assoc] using he)] at hc
  contradiction

theorem isWord_of_isDigit (hc : isDigit c) : isWord c := by
  simp [isWord, isAlphanumeric_of_isDigit hc]

theorem isWord_of_isExponent (hc : isExponent c) : isWord c := by
  have hword : ∀ e ∈ ['e', 'E', 'p', 'P'], isWord e := forall_of_all (by decide +kernel)
  exact hword c (by simpa [isExponent, or_assoc] using hc)

/-- What is read behind the beginning of a number goes on with it. -/
theorem isNumber_numberTail {exponent : Bool} (hf : IsNumber text)
    (he : exponent → ∃ front e, text = front ++ [e] ∧ IsNumber front ∧ isExponent e) :
    IsNumber (text ++ (numberTail exponent chars).text) := by
  fun_induction numberTail exponent chars generalizing text with
  | case1 | case3 => rwa [List.append_nil]
  | case2 exponent c rest hc ih =>
    rw [Cut.text_cons, List.append_cons]
    refine ih ?_ fun hexponent => ⟨text, c, rfl, hf, hexponent⟩
    rw [Bool.or_eq_true, Bool.or_eq_true, Bool.and_eq_true, Bool.or_eq_true] at hc
    simp only [decide_eq_true_eq] at hc
    rcases hc with hc | ⟨hexponent, hs⟩
    · exact .more hf hc
    · obtain ⟨front, e, rfl, hfront, hletter⟩ := he hexponent
      rw [List.append_assoc]
      exact .sign hfront hletter hs

/-- What is read as a number is one. -/
theorem isNumber_of_startsNumber (h : startsNumber c rest) :
    IsNumber (c :: (numberTail false rest).text) := by
  rw [startsNumber, Bool.or_eq_true, Bool.and_eq_true, decide_eq_true_eq] at h
  rcases h with hc | ⟨rfl, hd⟩
  · exact isNumber_numberTail (.digit hc) fun h => absurd h Bool.false_ne_true
  · obtain ⟨d, hm, hd⟩ := (Option.any_eq_true _ _).1 hd
    obtain ⟨rest, rfl⟩ := List.head?_eq_some_iff.1 hm
    rw [numberTail, if_pos (by simp [isWord_of_isDigit hd]), isExponent_of_isDigit hd]
    exact isNumber_numberTail (.point hd) fun h => absurd h Bool.false_ne_true

theorem IsNumber.exists_cons (h : IsNumber text) : ∃ c rest, text = c :: rest := by
  refine List.exists_cons_of_ne_nil ?_
  cases h <;> simp

/-- A number in front of a text is read, and the reading goes on behind it. -/
theorem IsNumber.read (h : IsNumber (c :: rest)) (behind : List Char) :
    startsNumber c (rest ++ behind) ∧ (numberTail false (rest ++ behind)).text =
      rest ++ (numberTail (endsInExponent (c :: rest)) behind).text := by
  generalize hw : c :: rest = whole at h
  induction h generalizing rest behind with
  | digit hc =>
    obtain ⟨rfl, rfl⟩ := List.cons.inj hw
    have hends : endsInExponent [c] = false := isExponent_of_isDigit hc
    rw [hends]
    exact ⟨by simp [startsNumber, hc], rfl⟩
  | @point d hc =>
    obtain ⟨rfl, rfl⟩ := List.cons.inj hw
    have hends : endsInExponent ['.', d] = isExponent d := rfl
    refine ⟨by simp [startsNumber, hc], ?_⟩
    rw [hends, List.singleton_append, numberTail, if_pos (by simp [isWord_of_isDigit hc])]
    rfl
  | @more text d h hc ih =>
    obtain ⟨first, inner, rfl⟩ := h.exists_cons
    obtain ⟨rfl, rfl⟩ : c = first ∧ rest = inner ++ [d] := List.cons.inj hw
    obtain ⟨hstart, htail⟩ := ih (d :: behind) rfl
    have hends : endsInExponent (c :: inner ++ [d]) = isExponent d := by
      rw [endsInExponent, List.getLast?_concat]
      rfl
    rw [hends, List.append_assoc, List.singleton_append, htail, numberTail,
      if_pos (by simpa using .inl hc), List.append_assoc]
    exact ⟨hstart, rfl⟩
  | @sign text e s h he hs ih =>
    obtain ⟨first, inner, rfl⟩ := h.exists_cons
    obtain ⟨rfl, rfl⟩ : c = first ∧ rest = inner ++ [e, s] := List.cons.inj hw
    obtain ⟨hstart, htail⟩ := ih (e :: s :: behind) rfl
    have hends : endsInExponent (c :: inner ++ [e, s]) = isExponent s := by
      rw [endsInExponent, List.append_cons, List.getLast?_concat]
      rfl
    have hsign : isExponent s = false := by rcases hs with rfl | rfl <;> rfl
    rw [hends, List.append_assoc, List.cons_append, List.singleton_append, htail, numberTail,
      if_pos (by simp [isWord_of_isExponent he]), he, numberTail, if_pos (by simpa using .inr hs),
      List.append_assoc]
    exact ⟨hstart, rfl⟩

/-! ## Literals -/

/-- The text of a literal with the given quotes. -/
def IsLiteral (quote : Char) (text : List Char) : Prop :=
  ∃ encoding ∈ encodings, ∃ body, InQuotes quote body ∧
    text = encoding ++ quote :: (body ++ [quote])

/-- Where an encoding and a quote stand, a literal begins. -/
theorem opening?_eq_some {encoding : List Char} (he : encoding ∈ encodings) (hq : isQuote quote)
    (rest : List Char) :
    opening? (encoding ++ quote :: rest) = some ⟨encoding, quote, rest⟩ := by
  simp only [isQuote, Bool.or_eq_true, decide_eq_true_eq] at hq
  simp only [encodings, List.mem_cons, List.not_mem_nil, or_false] at he
  rcases hq with rfl | rfl <;> rcases he with rfl | rfl | rfl | rfl | rfl <;> rfl

/-- A literal in front of a text is read up to its closing quote. -/
theorem IsLiteral.read (h : IsLiteral quote text) (hq : isQuote quote) (behind : List Char) :
    ∃ opening cut, opening? (text ++ behind) = some opening ∧ opening.quote = quote ∧
      closeQuote? quote false opening.rest = some cut ∧
      text = opening.encoding ++ quote :: cut.text := by
  obtain ⟨encoding, he, body, hb, rfl⟩ := h
  have hsplit : encoding ++ quote :: (body ++ [quote]) ++ behind =
      encoding ++ quote :: (body ++ quote :: behind) := by simp
  rw [hsplit]
  exact ⟨_, _, opening?_eq_some he hq _, rfl, hb.close hq behind, rfl⟩

/-! ## Punctuators -/

/-- Where a punctuator stands, one is read. -/
theorem punctuator?_ne_none (hm : text ∈ punctuatorTexts) (hp : text <+: chars) :
    punctuator? chars ≠ none := by
  intro hnone
  have hfind := text_punctuator? chars
  rw [hnone] at hfind
  exact List.find?_eq_none.1 hfind.symm text hm (List.isPrefixOf_iff_prefix.2 hp)

/-- Of the punctuators that a text begins with, none is longer than the one that is read. -/
theorem length_le_of_punctuator? (h : punctuator? chars = some cut) (hm : text ∈ punctuatorTexts)
    (hp : text <+: chars) : text.length ≤ cut.text.length := by
  have hsorted : punctuatorTexts.Pairwise fun left right => right.length ≤ left.length := by
    decide +kernel
  have hfind := text_punctuator? chars
  rw [h] at hfind
  obtain ⟨-, before, after, hsplit, hnot⟩ := List.find?_eq_some_iff_append.1 hfind.symm
  rw [hsplit] at hm hsorted
  rcases List.mem_append.1 hm with hm | hm
  · have hprefix := hnot text hm
    rw [List.isPrefixOf_iff_prefix.2 hp] at hprefix
    contradiction
  · rcases List.mem_cons.1 hm with rfl | hm
    · exact Nat.le_refl _
    · exact (List.pairwise_cons.1 (List.pairwise_append.1 hsorted).2.1).1 text hm

/-! ## Classes -/

/-- The class of the literals with the given quotes. -/
def literalKind (quote : Char) : Token.Kind := if quote = '"' then .string else .character

/-- The texts of the classes that are read alike everywhere. -/
inductive OfClass : Token.Kind → List Char → Prop where
  | identifier {text : List Char} (h : IsWord text) : OfClass .identifier text
  | number {text : List Char} (h : IsNumber text) : OfClass .number text
  | literal {quote : Char} {text : List Char} (hq : isQuote quote) (h : IsLiteral quote text) :
      OfClass (literalKind quote) text
  | punctuator {text : List Char} (h : text ∈ punctuatorTexts) : OfClass .punctuator text

theorem isLiteral_of_string (h : OfClass .string text) : IsLiteral '"' text := by
  generalize hk : Token.Kind.string = kind at h
  cases h with
  | literal _ h =>
    unfold literalKind at hk
    split at hk
    · next hq => rwa [← hq]
    · contradiction
  | identifier | number | punctuator => contradiction

/-- Nothing of a class depends on its place. -/
theorem kind_of_ofClass (h : OfClass kind text) :
    kind ∉ [.directiveHash, .headerName, .asmBlock, .newline, .endOfFile] := by
  cases h with
  | identifier | number | punctuator => decide
  | literal =>
    unfold literalKind
    split <;> decide

theorem OfClass.exists_cons (h : OfClass kind text) : ∃ c rest, text = c :: rest := by
  cases h with
  | identifier h =>
    obtain ⟨c, rest, rfl, -⟩ := h
    exact ⟨c, rest, rfl⟩
  | number h => exact h.exists_cons
  | literal _ h =>
    obtain ⟨encoding, -, body, -, rfl⟩ := h
    exact List.exists_cons_of_ne_nil (by simp)
  | punctuator h => exact List.exists_cons_of_ne_nil (punctuatorTexts_ne_nil _ h)

/-- The characters of punctuators. -/
def signChars : List Char := punctuatorTexts.flatten

theorem IsNumber.isWord_or_sign (h : IsNumber text) :
    ∀ d ∈ text, isWord d ∨ d ∈ ['.', '+', '-'] := by
  induction h with
  | digit hc => simp [isWord_of_isDigit hc]
  | point hc => simp [isWord_of_isDigit hc]
  | more _ hc ih =>
    refine List.forall_mem_append.2 ⟨ih, ?_⟩
    rcases hc with hc | rfl
    · simp [hc]
    · simp
  | sign _ he hs ih =>
    refine List.forall_mem_append.2 ⟨ih, ?_⟩
    rcases hs with rfl | rfl <;> simp [isWord_of_isExponent he]

theorem IsNumber.isWord_or_mem (h : IsNumber text) : ∀ d ∈ text, isWord d ∨ d ∈ signChars := by
  have hsign : ∀ d ∈ ['.', '+', '-'], d ∈ signChars := forall_of_all (by decide +kernel)
  exact fun d hd => (h.isWord_or_sign d hd).imp_right (hsign d)

/-- But for literals, the texts are made of word characters and signs. -/
theorem OfClass.isWord_or_mem (h : OfClass kind text) (hs : kind ≠ .string)
    (hc : kind ≠ .character) : ∀ d ∈ text, isWord d ∨ d ∈ signChars := by
  cases h with
  | identifier h =>
    obtain ⟨c, rest, rfl, -, hstart, hrest⟩ := h
    have hword : ∀ d ∈ c :: rest, isWord d :=
      List.forall_mem_cons.2 ⟨isWord_of_isWordStart hstart, hrest⟩
    exact fun d hm => .inl (hword d hm)
  | number h => exact h.isWord_or_mem
  | literal =>
    unfold literalKind at hs hc
    split at hs
    · contradiction
    · next hq => exact absurd (if_neg hq) hc
  | punctuator h => exact fun d hm => .inr (List.mem_flatten.2 ⟨text, h, hm⟩)

/-- The characters that have a meaning of their own in a literal. -/
def marks : List Char := ['"', '\x27', '\\', '\n']

theorem OfClass.not_mem (h : OfClass kind text) (hs : kind ≠ .string) (hc : kind ≠ .character) :
    ∀ d ∈ marks, d ∉ text := by
  have hnot : ∀ d ∈ marks, ¬(isWord d ∨ d ∈ signChars) := forall_of_all (by decide +kernel)
  exact fun d hd hm => hnot d hd (h.isWord_or_mem hs hc d hm)

theorem mem_marks_of_isQuote (hq : isQuote quote) : quote ∈ marks := by
  rw [isQuote, Bool.or_eq_true, decide_eq_true_eq, decide_eq_true_eq] at hq
  rcases hq with rfl | rfl <;> decide

/-! ## What a text of a class begins with -/

theorem starts_of_number (h : IsNumber text) (hp : text <+: c :: rest) :
    startsNumber c rest ∧ text <+: c :: (numberTail false rest).text := by
  obtain ⟨behind, hb⟩ := hp
  obtain ⟨first, inner, rfl⟩ := h.exists_cons
  obtain ⟨rfl, rfl⟩ : first = c ∧ inner ++ behind = rest := List.cons.inj hb
  obtain ⟨hstart, htail⟩ := h.read behind
  refine ⟨hstart, ?_⟩
  rw [htail]
  exact List.prefix_append _ _

theorem starts_of_word (h : IsWord text) (hp : text <+: c :: rest) :
    startsNumber c rest = false ∧ isWordStart c ∧ text <+: c :: rest.takeWhile isWord := by
  obtain ⟨behind, hb⟩ := hp
  obtain ⟨first, inner, rfl, hdigit, hstart, hinner⟩ := h
  obtain ⟨rfl, rfl⟩ : first = c ∧ inner ++ behind = rest := List.cons.inj hb
  have hpoint : first ≠ '.' := by
    rintro rfl
    exact absurd hstart (by decide +kernel)
  refine ⟨by simp [startsNumber, hdigit, hpoint], hstart, ?_⟩
  rw [List.takeWhile_append_of_pos hinner]
  exact List.prefix_append _ _

theorem starts_of_punctuator (h : text ∈ punctuatorTexts) (hp : text <+: c :: rest) :
    isWordStart c = false ∧ (startsNumber c rest → isDigit c = false ∧ text = [c]) := by
  have hhead : ∀ text ∈ punctuatorTexts, isWordStart (text.headD ' ') = false ∧
      isDigit (text.headD ' ') = false ∧
      (text.headD ' ' = '.' → text = ['.'] ∨ text = ['.', '.', '.']) := by
    decide +kernel
  obtain ⟨behind, hb⟩ := hp
  obtain ⟨first, inner, rfl⟩ := List.exists_cons_of_ne_nil (punctuatorTexts_ne_nil _ h)
  obtain ⟨rfl, rfl⟩ : first = c ∧ inner ++ behind = rest := List.cons.inj hb
  have hfirst := hhead _ h
  rw [List.headD_cons] at hfirst
  obtain ⟨hword, hdigit, hpoint⟩ := hfirst
  refine ⟨hword, fun hs => ⟨hdigit, ?_⟩⟩
  rw [startsNumber, hdigit, Bool.false_or, Bool.and_eq_true, decide_eq_true_eq] at hs
  obtain ⟨rfl, hd⟩ := hs
  rcases hpoint rfl with he | he
  · exact he
  · -- Behind the first of three points no digit stands.
    obtain rfl := (List.cons.inj he).2
    have hnot : isDigit '.' = false := by decide +kernel
    exact absurd (hnot.symm.trans hd) (by decide)

theorem opening?_eq_none (h : ∀ d ∈ marks, d ∉ text) : opening? text = none := by
  refine Option.eq_none_iff_forall_ne_some.2 fun opening ho => ?_
  obtain ⟨he, hq⟩ := eq_of_opening? ho
  refine h _ (mem_marks_of_isQuote hq) ?_
  rw [he]
  exact List.mem_append_right _ List.mem_cons_self

theorem readLiteral_of_not_mem (hn : ∀ d ∈ marks, d ∉ c :: rest) :
    readLiteral c rest = .lexeme (readPlain c rest).1 (readPlain c rest).2 := by
  rw [readLiteral, opening?_eq_none hn]

/-- A text of a class is read as what it is. -/
theorem OfClass.read (h : OfClass kind (c :: rest)) :
    ∃ cut, readLiteral c rest = .lexeme kind cut := by
  have hp : c :: rest <+: c :: rest := List.prefix_refl _
  have hn := h.not_mem
  cases h with
  | identifier h =>
    obtain ⟨hnumber, hstart, -⟩ := starts_of_word h hp
    rw [readLiteral_of_not_mem (hn (by decide) (by decide)), readPlain, if_neg (by simp [hnumber]),
      if_pos hstart]
    exact ⟨_, rfl⟩
  | number h =>
    rw [readLiteral_of_not_mem (hn (by decide) (by decide)), readPlain,
      if_pos (starts_of_number h hp).1]
    exact ⟨_, rfl⟩
  | literal hq h =>
    obtain ⟨opening, cut, ho, rfl, hclose, -⟩ := h.read hq []
    rw [List.append_nil] at ho
    rw [readLiteral, ho]
    simp only [hclose]
    exact ⟨_, rfl⟩
  | punctuator h =>
    obtain ⟨hstart, hnumber⟩ := starts_of_punctuator h hp
    have hdigit : ¬startsNumber c rest := by
      intro hs
      obtain ⟨hd, he⟩ := hnumber hs
      obtain rfl := (List.cons.inj he).2
      simp [startsNumber, hd] at hs
    obtain ⟨cut, hcut⟩ := Option.ne_none_iff_exists'.1 (punctuator?_ne_none h hp)
    rw [readLiteral_of_not_mem (hn (by decide) (by decide)), readPlain, if_neg hdigit,
      if_neg (by simp [hstart]), hcut]
    exact ⟨_, rfl⟩

/-- No text is of two classes. -/
theorem OfClass.unique {rival : Token.Kind} (h : OfClass kind text) (hr : OfClass rival text) :
    rival = kind := by
  obtain ⟨c, rest, rfl⟩ := h.exists_cons
  obtain ⟨_, hread⟩ := h.read
  obtain ⟨_, hsame⟩ := hr.read
  exact (Reading.lexeme.inj (hsame.symm.trans hread)).1

/-! ## As much as possible -/

/-- What is cut off a text if as much as possible is taken: the longest text of any class that the
text begins with, or a single character if it begins with none. -/
inductive Munched (chars : List Char) : Token.Kind → List Char → Prop where
  | ofClass {kind : Token.Kind} {text : List Char} (hp : text <+: chars)
      (hk : ∀ rival, OfClass rival text ↔ rival = kind)
      (hl : ∀ rival more, OfClass rival more → more <+: chars → more.length ≤ text.length) :
      Munched chars kind text
  | other {c : Char} (hp : [c] <+: chars)
      (hn : ∀ kind text, OfClass kind text → ¬text <+: chars) : Munched chars .other [c]

theorem Munched.of_longest (hp : text <+: chars) (hk : OfClass kind text)
    (hl : ∀ rival more, OfClass rival more → more <+: chars → more.length ≤ text.length) :
    Munched chars kind text := by
  refine .ofClass hp (fun rival => ⟨hk.unique, ?_⟩) hl
  rintro rfl
  exact hk

/-- A front of a text in which the character does not occur stands in front of it. -/
theorem length_le_of_not_mem {front : List Char} {d : Char} (hp : text <+: front ++ d :: behind)
    (hd : d ∉ text) : text.length ≤ front.length := by
  by_contra hlt
  have hfront : front ++ [d] <+: text := by
    refine List.prefix_of_prefix_length_le ?_ hp (by simp; omega)
    exact ⟨behind, by simp⟩
  exact hd (hfront.subset (by simp))

/-- No literal stands where none is opened. -/
theorem not_prefix_of_opening?_eq_none (ho : opening? (c :: rest) = none) (hq : isQuote quote)
    (h : IsLiteral quote text) : ¬text <+: c :: rest := by
  rintro ⟨behind, hb⟩
  obtain ⟨opening, cut, hopen, -⟩ := h.read hq behind
  rw [hb, ho] at hopen
  contradiction

theorem munched_number (ho : opening? (c :: rest) = none) (hs : startsNumber c rest)
    (hp : c :: (numberTail false rest).text <+: c :: rest) :
    Munched (c :: rest) .number (c :: (numberTail false rest).text) := by
  refine .of_longest hp (.number (isNumber_of_startsNumber hs)) fun rival more hk hp => ?_
  cases hk with
  | identifier h =>
    rw [(starts_of_word h hp).1] at hs
    contradiction
  | number h => exact (starts_of_number h hp).2.length_le
  | literal hq h => exact absurd hp (not_prefix_of_opening?_eq_none ho hq h)
  | punctuator h =>
    rw [((starts_of_punctuator h hp).2 hs).2]
    simp

theorem munched_word (ho : opening? (c :: rest) = none) (hs : ¬startsNumber c rest)
    (hw : isWordStart c) (hp : c :: rest.takeWhile isWord <+: c :: rest) :
    Munched (c :: rest) .identifier (c :: rest.takeWhile isWord) := by
  have hword : IsWord (c :: rest.takeWhile isWord) := by
    have h : (readPlain c rest).1 = .identifier := by rw [readPlain, if_neg hs, if_pos hw]
    have hread := isWord_readPlain h
    rwa [readPlain, if_neg hs, if_pos hw] at hread
  refine .of_longest hp (.identifier hword) fun rival more hk hp => ?_
  cases hk with
  | identifier h => exact (starts_of_word h hp).2.2.length_le
  | number h => exact absurd (starts_of_number h hp).1 hs
  | literal hq h => exact absurd hp (not_prefix_of_opening?_eq_none ho hq h)
  | punctuator h =>
    rw [(starts_of_punctuator h hp).1] at hw
    contradiction

/-- Where neither a number nor an identifier nor a literal stands, only punctuators are left. -/
theorem mem_punctuatorTexts_of_remaining (ho : opening? (c :: rest) = none)
    (hs : ¬startsNumber c rest) (hw : ¬isWordStart c) (hk : OfClass kind text)
    (hp : text <+: c :: rest) : text ∈ punctuatorTexts := by
  cases hk with
  | identifier h => exact absurd (starts_of_word h hp).2.1 hw
  | number h => exact absurd (starts_of_number h hp).1 hs
  | literal hq h => exact absurd hp (not_prefix_of_opening?_eq_none ho hq h)
  | punctuator h => exact h

theorem munched_readPlain (ho : opening? (c :: rest) = none) :
    Munched (c :: rest) (readPlain c rest).1 (readPlain c rest).2.text := by
  have hprefix : (readPlain c rest).2.text <+: c :: rest :=
    ⟨(readPlain c rest).2.rest, (whole_readPlain c rest).1⟩
  unfold readPlain at hprefix ⊢
  split
  · next hs =>
    rw [if_pos hs] at hprefix
    exact munched_number ho hs hprefix
  · next hs =>
    rw [if_neg hs] at hprefix
    split
    · next hw =>
      rw [if_pos hw] at hprefix
      exact munched_word ho hs hw hprefix
    · next hw =>
      rw [if_neg hw] at hprefix
      split
      · next cut hcut =>
        rw [hcut] at hprefix
        have hlisted := (whole_punctuator? hcut).2
        refine .of_longest hprefix (.punctuator hlisted) fun rival more hk hp => ?_
        exact length_le_of_punctuator? hcut (mem_punctuatorTexts_of_remaining ho hs hw hk hp) hp
      · next hnone =>
        rw [hnone] at hprefix
        refine .other hprefix fun kind more hk hp => ?_
        exact punctuator?_ne_none (mem_punctuatorTexts_of_remaining ho hs hw hk hp) hp hnone

/-- As much as possible is read. -/
theorem munched_readLiteral (h : readLiteral c rest = .lexeme kind cut) :
    Munched (c :: rest) kind cut.text := by
  unfold readLiteral at h
  split at h
  · next opening ho =>
    split at h
    · next inner hclose =>
      obtain ⟨rfl, rfl⟩ := Reading.lexeme.inj h
      obtain ⟨hsplit, hq⟩ := eq_of_opening? ho
      obtain ⟨body, hb, hin⟩ := inQuotes_of_closeQuote? hclose
      have hliteral : IsLiteral opening.quote (opening.encoding ++ opening.quote :: inner.text) :=
        ⟨_, mem_encodings_of_opening? ho, body, hin, by rw [hb]⟩
      refine .of_longest ?_ (.literal hq hliteral) fun rival more hk hp => ?_
      · rw [hsplit, ← whole_closeQuote? hclose]
        exact ⟨inner.rest, by simp [Cut.whole]⟩
      · have hn := hk.not_mem
        have hshort (hmem : opening.quote ∉ more) :
            more.length ≤ (opening.encoding ++ opening.quote :: inner.text).length := by
          rw [hsplit] at hp
          have hle := length_le_of_not_mem hp hmem
          rw [List.length_append]
          omega
        cases hk with
        | identifier => exact hshort (hn (by decide) (by decide) _ (mem_marks_of_isQuote hq))
        | number => exact hshort (hn (by decide) (by decide) _ (mem_marks_of_isQuote hq))
        | punctuator => exact hshort (hn (by decide) (by decide) _ (mem_marks_of_isQuote hq))
        | literal hquote hl =>
          -- A literal that begins here is the one that is read.
          obtain ⟨behind, hbehind⟩ := hp
          obtain ⟨same, cut, hopen, rfl, hcut, rfl⟩ := hl.read hquote behind
          rw [hbehind, ho] at hopen
          obtain rfl := Option.some.inj hopen
          obtain rfl := Option.some.inj (hclose.symm.trans hcut)
          exact Nat.le_refl _
    · contradiction
  · next ho =>
    obtain ⟨rfl, rfl⟩ := Reading.lexeme.inj h
    exact munched_readPlain ho

/-- Nothing that is read so depends on its place. -/
theorem kind_readLiteral (h : readLiteral c rest = .lexeme kind cut) :
    kind ∉ [.directiveHash, .headerName, .asmBlock, .newline, .endOfFile] := by
  have hm := munched_readLiteral h
  generalize cut.text = text at hm
  cases hm with
  | ofClass _ hk => exact kind_of_ofClass ((hk kind).2 rfl)
  | other => decide

/-! ## Every lexeme of a text -/

/-- The text of a lexeme that is part of the text and marks nothing in it. -/
inductive Spelled : Token.Kind → List Char → Prop where
  | ofClass {kind : Token.Kind} {text : List Char} (h : OfClass kind text) : Spelled kind text
  | block (inner : List Char) : Spelled .asmBlock ('\x7b' :: (inner ++ ['\x7d']))
  | other {c : Char} (hn : c ≠ '\n') (hq : isQuote c = false) : Spelled .other [c]

theorem not_isQuote_of_other (h : readLiteral c rest = .lexeme .other cut) : isQuote c = false := by
  refine eq_false_of_ne_true fun hq => ?_
  have hopen : opening? (c :: rest) = some ⟨[], c, rest⟩ :=
    opening?_eq_some List.mem_cons_self hq rest
  rw [readLiteral, hopen] at h
  dsimp only at h
  split at h
  · have hk := (Reading.lexeme.inj h).1
    split at hk <;> contradiction
  · contradiction

theorem spelled_of_read {directives : Bool} {context : Context}
    (h : Lexeme.read directives context c rest = .lexeme kind cut) (ho : kind.isOrdinary) :
    Spelled kind cut.text := by
  cases readAs_of_read h with
  | newline | hash | header => contradiction
  | block _ _ hb hclose =>
    obtain ⟨front, ht⟩ := text_closeBrace? hclose
    rw [Cut.text_cons, ht, hb]
    exact .block front
  | literal hline _ _ _ hl =>
    have hm := munched_readLiteral hl
    generalize cut.text = text at hm
    cases hm with
    | ofClass hp hk => exact .ofClass ((hk kind).2 rfl)
    | other hp =>
      obtain rfl := (List.cons_prefix_cons.1 hp).1
      exact .other hline (not_isQuote_of_other hl)

/-- Every lexeme of a text that marks nothing in it is spelled as its class says. -/
theorem spelled_of_mem_divide {directives : Bool} {context : Context} {lexeme : Lexeme}
    (hm : lexeme ∈ (divide directives context chars).lexemes) (ho : lexeme.kind.isOrdinary) :
    Spelled lexeme.kind lexeme.text := by
  fun_induction divide directives context chars with
  | case1 | case2 | case3 => contradiction
  | case4 context chars gap c rest hs kind cut hr ih =>
    rcases List.mem_cons.1 hm with rfl | hm
    · exact spelled_of_read hr ho
    · exact ih hm

end CPreprocessor.Lexeme

import CPreprocessor.Proofs.Lexeme.Append
import Mathlib.Data.List.Infix

/-!
# What closes a lexeme

A literal ends at the first quote that no backslash takes away, a block of assembly text where its
braces balance, a block comment at `*/`, and a header name at its mark. Each is left open where no
such end stands in the text.

* `InQuotes`: what may stand between two quotes. `closeQuote?_eq_none_iff`: a literal is left open
  where no such text and its quote stand.
* `Balanced`, `Block`: the shortest front of a text whose braces balance. `block_of_closeBrace?`: it
  is what is read; `closeBrace?_eq_none_iff`: a block is left open where there is none.
* `closeComment?_eq_none_iff`, `headerName?_eq_none_iff`: the same of comments and header names.
  `isHeaderName_of_headerName?`: what is read of a header name.
-/

namespace CPreprocessor.Lexeme

variable {quote mark : Char} {depth : Nat} {chars rest text : List Char} {cut : Cut}

/-! ## Literals -/

/-- What may stand between two quotes: a backslash goes with the character behind it. -/
inductive InQuotes (quote : Char) : List Char → Prop where
  | nil : InQuotes quote []
  | plain {c : Char} {text : List Char} (hq : c ≠ quote) (hb : c ≠ '\\') (hn : c ≠ '\n')
      (h : InQuotes quote text) : InQuotes quote (c :: text)
  | escaped {c : Char} {text : List Char} (hn : c ≠ '\n') (h : InQuotes quote text) :
      InQuotes quote ('\\' :: c :: text)

theorem ne_of_isQuote (hq : isQuote quote) : quote ≠ '\\' ∧ quote ≠ '\n' := by
  rw [isQuote, Bool.or_eq_true, decide_eq_true_eq, decide_eq_true_eq] at hq
  rcases hq with rfl | rfl <;> decide

/-- The quote behind such a text closes it. -/
theorem InQuotes.close (h : InQuotes quote text) (hq : isQuote quote) (rest : List Char) :
    closeQuote? quote false (text ++ quote :: rest) = some ⟨text ++ [quote], rest⟩ := by
  obtain ⟨hback, hline⟩ := ne_of_isQuote hq
  induction h with
  | nil =>
    rw [List.nil_append, closeQuote?, if_neg hline, if_pos (by simp)]
    rfl
  | plain hc hb hn _ ih =>
    rw [List.cons_append, closeQuote?, if_neg hn, if_neg (by simp [hc]), decide_eq_false hb,
      Bool.and_false, ih]
    rfl
  | escaped hn _ ih =>
    rw [List.cons_append, closeQuote?, if_neg (by decide), if_neg (by simp [hback.symm]),
      List.cons_append, closeQuote?, if_neg hn, if_neg (by simp)]
    simp only [decide_true, Bool.and_true, Bool.not_false, Bool.not_true, Bool.false_and]
    rw [ih]
    rfl

/-- Such a text does not close itself. -/
theorem InQuotes.not_closed (h : InQuotes quote text) (hq : isQuote quote) :
    closeQuote? quote false text = none := by
  obtain ⟨hback, -⟩ := ne_of_isQuote hq
  induction h with
  | nil => rfl
  | plain hc hb hn _ ih =>
    rw [closeQuote?, if_neg hn, if_neg (by simp [hc]), decide_eq_false hb, Bool.and_false, ih]
    rfl
  | escaped hn _ ih =>
    rw [closeQuote?, if_neg (by decide), if_neg (by simp [hback.symm]), closeQuote?, if_neg hn,
      if_neg (by simp)]
    simp only [decide_true, Bool.and_true, Bool.not_false, Bool.not_true, Bool.false_and]
    rw [ih]
    rfl

/-- What is read up to the closing quote. A backslash before it is counted with it. -/
theorem inQuotes_of_closeQuote? {escaped : Bool} (h : closeQuote? quote escaped chars = some cut) :
    ∃ text, cut.text = text ++ [quote] ∧
      InQuotes quote (if escaped then '\\' :: text else text) := by
  fun_induction closeQuote? quote escaped chars generalizing cut with
  | case1 | case2 => contradiction
  | case3 escaped c rest hn hc =>
    obtain rfl := Option.some.inj h
    simp only [Bool.and_eq_true, Bool.not_eq_true', decide_eq_true_eq] at hc
    obtain ⟨rfl, rfl⟩ := hc
    exact ⟨[], rfl, .nil⟩
  | case4 escaped c rest hn hc ih =>
    obtain ⟨inner, found, rfl⟩ := Option.map_eq_some_iff.1 h
    obtain ⟨text, ht, hi⟩ := ih found
    refine ⟨c :: text, by rw [Cut.text_cons, ht, List.cons_append], ?_⟩
    cases escaped with
    | true => exact .escaped hn hi
    | false =>
      by_cases hb : c = '\\'
      · subst hb
        exact hi
      · rw [decide_eq_false hb] at hi
        exact .plain (by simpa using hc) hb hn hi

/-- A literal is left open where its quote does not stand unescaped on the line. -/
theorem closeQuote?_eq_none_iff (hq : isQuote quote) : closeQuote? quote false chars = none ↔
    ∀ text, InQuotes quote text → ¬text ++ [quote] <+: chars := by
  constructor
  · rintro h text hi ⟨rest, rfl⟩
    rw [List.append_assoc, List.singleton_append, hi.close hq rest] at h
    contradiction
  · intro h
    cases hc : closeQuote? quote false chars with
    | none => rfl
    | some cut =>
      obtain ⟨text, ht, hi⟩ := inQuotes_of_closeQuote? hc
      refine absurd ⟨cut.rest, ?_⟩ (h text hi)
      rw [← ht, ← whole_closeQuote? hc]
      rfl

/-! ## Blocks -/

/-- As many braces are closed as are opened. -/
def Balanced (text : List Char) : Prop := text.count '\x7b' = text.count '\x7d'

instance (text : List Char) : Decidable (Balanced text) := inferInstanceAs (Decidable (_ = _))

/-- The shortest front of a text whose braces balance, the empty one aside. -/
structure Block (chars text : List Char) : Prop where
  front : text <+: chars
  ne_nil : text ≠ []
  balanced : Balanced text
  shortest : ∀ other, other <+: chars → other ≠ [] → Balanced other → text.length ≤ other.length

/-- A character that is passed over in a block is no brace. -/
theorem ne_of_inner {c : Char} (ho : c ≠ '\x7b') (hz : depth = 0 → c ≠ '\x7d')
    (hs : ∀ inner, depth = inner + 1 → c ≠ '\x7d') : c ≠ '\x7b' ∧ c ≠ '\x7d' := by
  refine ⟨ho, ?_⟩
  cases depth with
  | zero => exact hz rfl
  | succ depth => exact hs depth rfl

theorem count_closeBrace? (h : closeBrace? depth chars = some cut) :
    cut.text.count '\x7d' = cut.text.count '\x7b' + depth + 1 := by
  fun_induction closeBrace? depth chars generalizing cut with
  | case1 => contradiction
  | case3 =>
    obtain rfl := Option.some.inj h
    rfl
  | case2 depth rest ih | case4 rest depth ih =>
    obtain ⟨inner, found, rfl⟩ := Option.map_eq_some_iff.1 h
    have hcount := ih found
    simp only [Cut.text_cons, List.count_cons, BEq.rfl, Char.reduceBEq, Bool.false_eq_true,
      ↓reduceIte]
    omega
  | case5 depth c rest ho hz hs ih =>
    obtain ⟨inner, found, rfl⟩ := Option.map_eq_some_iff.1 h
    obtain ⟨hopen, hclose⟩ := ne_of_inner ho hz hs
    rw [Cut.text_cons, List.count_cons_of_ne hclose, List.count_cons_of_ne hopen, ih found]

/-- Before the brace that closes the block no more braces are closed than are open. -/
theorem count_le_of_front {front : List Char} (hp : front <+: chars)
    (hf : ∀ cut, closeBrace? depth chars = some cut → front.length < cut.text.length) :
    front.count '\x7d' ≤ front.count '\x7b' + depth := by
  fun_induction closeBrace? depth chars generalizing front with
  | case1 depth =>
    rw [List.prefix_nil.1 hp]
    exact Nat.zero_le _
  | case3 rest =>
    have hlength := hf _ rfl
    obtain rfl : front = [] := List.length_eq_zero_iff.1 (by simpa using hlength)
    exact Nat.zero_le _
  | case2 depth rest ih | case4 rest depth ih =>
    cases front with
    | nil => exact Nat.zero_le _
    | cons d front =>
      obtain ⟨rfl, hr⟩ := List.cons_prefix_cons.1 hp
      have hcount := ih hr fun cut found => by
        have hlength := hf (cut.cons _) (by rw [found]; rfl)
        simpa using hlength
      simp only [List.count_cons, BEq.rfl, Char.reduceBEq, Bool.false_eq_true, ↓reduceIte]
      omega
  | case5 depth c rest ho hz hs ih =>
    cases front with
    | nil => exact Nat.zero_le _
    | cons d front =>
      obtain ⟨rfl, hr⟩ := List.cons_prefix_cons.1 hp
      have hcount := ih hr fun cut found => by
        have hlength := hf (cut.cons _) (by rw [found]; rfl)
        simpa using hlength
      rw [List.count_cons_of_ne (ne_of_inner ho hz hs).2]
      exact hcount.trans (Nat.add_le_add_right (List.count_le_count_cons) _)

/-- The block that is read is the shortest one. -/
theorem block_of_closeBrace? (h : closeBrace? 0 rest = some cut) :
    Block ('\x7b' :: rest) ('\x7b' :: cut.text) := by
  have hcount := count_closeBrace? h
  refine ⟨?_, List.cons_ne_nil _ _, ?_, fun other hp hne hb => ?_⟩
  · rw [← whole_closeBrace? h]
    exact ⟨cut.rest, rfl⟩
  · rw [Balanced, List.count_cons_self, List.count_cons_of_ne (by decide), hcount]
  · obtain ⟨c, front, rfl⟩ := List.exists_cons_of_ne_nil hne
    obtain ⟨rfl, hr⟩ := List.cons_prefix_cons.1 hp
    by_contra hlt
    rw [Balanced, List.count_cons_self, List.count_cons_of_ne (by decide)] at hb
    have hle := count_le_of_front hr fun found hf => by
      obtain rfl := Option.some.inj (h.symm.trans hf)
      simpa using hlt
    omega

/-- A block is left open where its braces never balance. -/
theorem closeBrace?_eq_none_iff : closeBrace? 0 rest = none ↔
    ∀ front, front <+: '\x7b' :: rest → front ≠ [] → ¬Balanced front := by
  constructor
  · intro h other hp hne hb
    obtain ⟨c, front, rfl⟩ := List.exists_cons_of_ne_nil hne
    obtain ⟨rfl, hr⟩ := List.cons_prefix_cons.1 hp
    rw [Balanced, List.count_cons_self, List.count_cons_of_ne (by decide)] at hb
    have hle := count_le_of_front hr fun cut hf => by
      rw [h] at hf
      contradiction
    omega
  · intro h
    cases hc : closeBrace? 0 rest with
    | none => rfl
    | some cut =>
      have hblock := block_of_closeBrace? hc
      exact absurd hblock.balanced (h _ hblock.front hblock.ne_nil)

/-! ## Comments -/

/-- A block comment is left open where no `*/` stands behind its beginning. -/
theorem closeComment?_eq_none_iff : closeComment? chars = none ↔ ¬['*', '/'] <:+: chars := by
  fun_induction closeComment? chars with
  | case1 => simp
  | case2 rest => simp [List.infix_cons_iff]
  | case3 c rest hn ih =>
    rw [Option.map_eq_none_iff, ih, List.infix_cons_iff, not_or]
    refine ⟨fun h => ⟨?_, h⟩, And.right⟩
    rintro ⟨more, he⟩
    obtain ⟨rfl, hr⟩ := List.cons.inj he
    exact hn more rfl hr.symm

/-! ## Header names -/

/-- The text of a header name, in angle brackets or double quotes. -/
inductive IsHeaderName : List Char → Prop where
  | angled {body : List Char} (hl : '\n' ∉ body) (hm : '>' ∉ body) :
      IsHeaderName ('<' :: (body ++ ['>']))
  | quoted {body : List Char} (hl : '\n' ∉ body) (hm : '"' ∉ body) :
      IsHeaderName ('"' :: (body ++ ['"']))

theorem closeOnLine?_eq_none_iff (hm : mark ≠ '\n') : closeOnLine? mark chars = none ↔
    ∀ body, '\n' ∉ body → mark ∉ body → ¬body ++ [mark] <+: chars := by
  fun_induction closeOnLine? mark chars with
  | case1 => simp
  | case2 rest =>
    refine iff_of_true rfl fun body hl _ hp => ?_
    cases body with
    | nil => exact hm (List.cons_prefix_cons.1 hp).1
    | cons c body =>
      obtain ⟨rfl, -⟩ := List.cons_prefix_cons.1 hp
      exact hl List.mem_cons_self
  | case3 rest hn =>
    refine iff_of_false (Option.some_ne_none _) fun h => ?_
    exact h [] List.not_mem_nil List.not_mem_nil (List.cons_prefix_cons.2 ⟨rfl, List.nil_prefix⟩)
  | case4 c rest hn hc ih =>
    rw [Option.map_eq_none_iff, ih]
    constructor
    · intro h body hl hmark hp
      cases body with
      | nil => exact hc (List.cons_prefix_cons.1 hp).1.symm
      | cons d body =>
        obtain ⟨rfl, hr⟩ := List.cons_prefix_cons.1 hp
        exact h body (List.not_mem_of_not_mem_cons hl) (List.not_mem_of_not_mem_cons hmark) hr
    · intro h body hl hmark hp
      refine h (c :: body) ?_ ?_ (List.cons_prefix_cons.2 ⟨rfl, hp⟩)
      · exact List.not_mem_cons_of_ne_of_not_mem (Ne.symm hn) hl
      · exact List.not_mem_cons_of_ne_of_not_mem (Ne.symm hc) hmark

theorem isHeaderName_of_headerName? (h : headerName? chars = some cut) :
    IsHeaderName cut.text := by
  unfold headerName? at h
  split at h
  · obtain ⟨inner, found, rfl⟩ := Option.map_eq_some_iff.1 h
    obtain ⟨body, ht, hl, hm⟩ := text_closeOnLine? found
    rw [Cut.text_cons, ht]
    exact .angled hl hm
  · obtain ⟨inner, found, rfl⟩ := Option.map_eq_some_iff.1 h
    obtain ⟨body, ht, hl, hm⟩ := text_closeOnLine? found
    rw [Cut.text_cons, ht]
    exact .quoted hl hm
  · contradiction

/-- No header name is read where none stands closed on the line. -/
theorem headerName?_eq_none_iff : headerName? chars = none ↔
    ∀ name, IsHeaderName name → ¬name <+: chars := by
  unfold headerName?
  split
  · next rest =>
    rw [Option.map_eq_none_iff, closeOnLine?_eq_none_iff (by decide)]
    constructor
    · intro h name hname hp
      cases hname with
      | angled hl hm => exact h _ hl hm (List.cons_prefix_cons.1 hp).2
      | quoted => exact absurd (List.cons_prefix_cons.1 hp).1 (by decide)
    · intro h body hl hm hp
      exact h _ (.angled hl hm) (List.cons_prefix_cons.2 ⟨rfl, hp⟩)
  · next rest =>
    rw [Option.map_eq_none_iff, closeOnLine?_eq_none_iff (by decide)]
    constructor
    · intro h name hname hp
      cases hname with
      | angled => exact absurd (List.cons_prefix_cons.1 hp).1 (by decide)
      | quoted hl hm => exact h _ hl hm (List.cons_prefix_cons.1 hp).2
    · intro h body hl hm hp
      exact h _ (.quoted hl hm) (List.cons_prefix_cons.2 ⟨rfl, hp⟩)
  · next ha hq =>
    refine iff_of_true rfl ?_
    rintro name ⟨hl, hm⟩ ⟨more, rfl⟩
    · exact ha _ rfl
    · exact hq _ rfl

end CPreprocessor.Lexeme

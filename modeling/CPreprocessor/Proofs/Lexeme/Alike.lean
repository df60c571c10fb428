import CPreprocessor.Proofs.Lexeme.Front

/-!
# What a lexeme sees of the text behind it

A lexeme is read with the text behind it in view, but no reader looks past a blank, a newline or the
start of a comment. So a lexeme is read alike in front of two texts that are the same up to there.

* `Alike`: such texts. Where the first one comes to a blank, a newline, a comment or its end, the
  second one comes to a blank, a newline or its end.
* `text_numberTail_alike`, `text_punctuator?_alike`, `start_opening?_alike`: what the readers see
  that stop at the end of a word.
* `skip_alike`, `read_alike`: where nothing is skipped and a lexeme is read in front of the first
  text, the same holds in front of the second.
-/

namespace CPreprocessor.Lexeme

variable {context : Context} {c : Char} {rest text chars other : List Char} {kind : Token.Kind}

/-- The characters at which every lexeme ends but literals and blocks. -/
def breaks : List Char := [' ', '\t', '\x0b', '\x0c', '\n', '/']

theorem forall_mem_breaks {p : Char → Prop} :
    (∀ c ∈ breaks, p c) ↔ p ' ' ∧ p '\t' ∧ p '\x0b' ∧ p '\x0c' ∧ p '\n' ∧ p '/' := by
  simp [breaks]

/-- What is decided of each character holds of all of them. -/
theorem forall_of_all {p : Char → Prop} [DecidablePred p] (h : text.all (p ·)) : ∀ c ∈ text, p c :=
  fun c hc => of_decide_eq_true (List.all_eq_true.1 h c hc)

/-- No lexeme goes on here, whatever it is, but for literals and blocks. -/
def AtBreak (chars : List Char) : Prop := ∀ c ∈ chars.head?, c ∈ breaks

theorem atBreak_of_blank (h : ∀ c ∈ chars.head?, isBlank c) : AtBreak chars := by
  intro c hm
  have hb := h c hm
  simp only [isBlank, Bool.or_eq_true, decide_eq_true_eq] at hb
  simp only [breaks, List.mem_cons]
  tauto

/-- Texts that are the same up to a break or their ends. No comment is the break in the second. -/
inductive Alike : List Char → List Char → Prop where
  | ends {chars other : List Char} (hc : AtBreak chars) (ho : AtBreak other)
      (hs : ∀ c ∈ other.head?, c ≠ '/') : Alike chars other
  | cons (c : Char) {chars other : List Char} (h : Alike chars other) :
      Alike (c :: chars) (c :: other)

theorem Alike.of_blank (hc : AtBreak chars) (ho : ∀ c ∈ other.head?, isBlank c) :
    Alike chars other := by
  refine .ends hc (atBreak_of_blank ho) fun c hm => ?_
  rintro rfl
  exact absurd (ho '/' hm) (by decide)

theorem Alike.append (text : List Char) (h : Alike chars other) :
    Alike (text ++ chars) (text ++ other) := by
  induction text with
  | nil => exact h
  | cons c text ih => exact .cons c ih

/-! ## Readers -/

theorem text_numberTail_alike (exponent : Bool) (h : Alike chars other) :
    (numberTail exponent chars).text = (numberTail exponent other).text := by
  have hbreak (exponent : Bool) : ∀ c ∈ breaks, ¬(Unicode.isWord c || c = '.' ||
      (exponent && (c = '+' || c = '-'))) := by
    rw [forall_mem_breaks]
    cases exponent <;> decide +kernel
  have hnil (exponent : Bool) {chars : List Char} (hc : AtBreak chars) :
      (numberTail exponent chars).text = [] := by
    cases chars with
    | nil => rfl
    | cons c rest => rw [numberTail, if_neg (hbreak exponent c (hc c rfl))]
  induction h generalizing exponent with
  | ends hc ho => rw [hnil exponent hc, hnil exponent ho]
  | cons c _ ih =>
    rw [numberTail, numberTail]
    split
    · rw [Cut.text_cons, Cut.text_cons, ih]
    · rfl

theorem takeWhile_alike {keep : Char → Bool} (hk : ∀ c ∈ breaks, keep c = false)
    (h : Alike chars other) : chars.takeWhile keep = other.takeWhile keep := by
  have hnil {chars : List Char} (hc : AtBreak chars) : chars.takeWhile keep = [] := by
    cases chars with
    | nil => rfl
    | cons c rest => rw [List.takeWhile_cons_of_neg (by simp [hk c (hc c rfl)])]
  induction h with
  | ends hc ho => rw [hnil hc, hnil ho]
  | cons c _ ih => rw [List.takeWhile_cons, List.takeWhile_cons, ih]

theorem startsNumber_alike (c : Char) (h : Alike chars other) :
    startsNumber c chars = startsNumber c other := by
  have hnil {chars : List Char} (hc : AtBreak chars) : chars.head?.any Unicode.isDigit = false := by
    have hbreak : ∀ c ∈ breaks, Unicode.isDigit c = false :=
      forall_mem_breaks.2 (by decide +kernel)
    cases chars with
    | nil => rfl
    | cons c rest => exact hbreak c (hc c rfl)
  unfold startsNumber
  cases h with
  | ends hc ho => rw [hnil hc, hnil ho]
  | cons d _ => rfl

theorem isPrefixOf_alike {lead : List Char} (hl : ∀ c ∈ lead, c ∉ breaks)
    (h : Alike chars other) : lead.isPrefixOf chars = lead.isPrefixOf other := by
  have hnil {d : Char} {lead chars : List Char} (hd : d ∉ breaks) (hc : AtBreak chars) :
      (d :: lead).isPrefixOf chars = false := by
    cases chars with
    | nil => rfl
    | cons c rest =>
      have hne : d ≠ c := fun he => hd (he ▸ hc c rfl)
      simp [List.isPrefixOf, hne]
  induction h generalizing lead with
  | ends hc ho =>
    cases lead with
    | nil => rfl
    | cons d lead =>
      have hd := hl d List.mem_cons_self
      rw [hnil hd hc, hnil hd ho]
  | cons c _ ih =>
    cases lead with
    | nil => rfl
    | cons d lead =>
      rw [List.isPrefixOf, List.isPrefixOf, ih fun e he => hl e (List.mem_cons_of_mem d he)]

theorem text_strip? (lead chars : List Char) :
    (strip? lead chars).map Cut.text = if lead.isPrefixOf chars then some lead else none := by
  fun_induction strip? lead chars with
  | case1 => rfl
  | case2 lead c chars ih =>
    have hcons (cut : Option Cut) :
        (cut.map (Cut.cons c)).map Cut.text = (cut.map Cut.text).map (c :: ·) := by
      cases cut <;> rfl
    rw [hcons, ih, List.isPrefixOf, beq_self_eq_true, Bool.true_and]
    split <;> rfl
  | case3 l lead c chars hc => simp [List.isPrefixOf, hc]
  | case4 => rfl

/-- The punctuator that is read is the first one that the text begins with. -/
theorem text_punctuator? (chars : List Char) :
    (punctuator? chars).map Cut.text = punctuatorTexts.find? (·.isPrefixOf chars) := by
  unfold punctuator?
  induction punctuatorTexts with
  | nil => rfl
  | cons text texts ih =>
    have ht := text_strip? text chars
    rw [List.findSome?_cons, List.find?_cons]
    cases hs : strip? text chars with
    | none =>
      rw [hs] at ht
      split at ht
      · contradiction
      · next hp => simpa [eq_false_of_ne_true hp] using ih
    | some cut =>
      rw [hs] at ht
      split at ht
      · next hp => simpa [hp] using ht
      · contradiction

theorem text_punctuator?_alike (c : Char) (h : Alike chars other) :
    (punctuator? (c :: chars)).map Cut.text = (punctuator? (c :: other)).map Cut.text := by
  have hinner : ∀ text ∈ punctuatorTexts, text.tail.all (· ∉ breaks) := by decide +kernel
  rw [text_punctuator?, text_punctuator?]
  generalize punctuatorTexts = texts at hinner
  induction texts with
  | nil => rfl
  | cons text texts ih =>
    obtain ⟨ht, hr⟩ := List.forall_mem_cons.1 hinner
    have hfirst : text.isPrefixOf (c :: chars) = text.isPrefixOf (c :: other) := by
      cases text with
      | nil => rfl
      | cons d lead =>
        have htail : lead.isPrefixOf chars = lead.isPrefixOf other :=
          isPrefixOf_alike (forall_of_all ht) h
        rw [List.isPrefixOf, List.isPrefixOf, htail]
    rw [List.find?_cons, List.find?_cons, hfirst, ih hr]

/-- The encoding and the quote that a literal begins with. -/
def Opening.start (opening : Opening) : List Char × Char := (opening.encoding, opening.quote)

theorem fst_quoteAfter?_alike {encoding : List Char} (he : ∀ c ∈ encoding, c ∉ breaks)
    (h : Alike chars other) :
    (quoteAfter? encoding chars).map Prod.fst = (quoteAfter? encoding other).map Prod.fst := by
  have hquote : ∀ c ∈ breaks, isQuote c = false := forall_mem_breaks.2 (by decide)
  have hnil {encoding chars : List Char} (he : ∀ c ∈ encoding, c ∉ breaks) (hc : AtBreak chars) :
      quoteAfter? encoding chars = none := by
    cases chars with
    | nil => cases encoding <;> rfl
    | cons c rest =>
      cases encoding with
      | nil => simp [quoteAfter?, hquote c (hc c rfl)]
      | cons e encoding =>
        refine if_neg ?_
        rintro rfl
        exact he e List.mem_cons_self (hc e rfl)
  induction h generalizing encoding with
  | ends hc ho => rw [hnil he hc, hnil he ho]
  | cons c _ ih =>
    cases encoding with
    | nil =>
      rw [quoteAfter?, quoteAfter?]
      split <;> rfl
    | cons e encoding =>
      rw [quoteAfter?, quoteAfter?]
      split
      · exact ih fun d hd => he d (List.mem_cons_of_mem e hd)
      · rfl

theorem start_opening?_alike (h : Alike chars other) :
    (opening? chars).map Opening.start = (opening? other).map Opening.start := by
  have hinner : ∀ encoding ∈ encodings, encoding.all (· ∉ breaks) := by decide
  unfold opening?
  generalize encodings = listed at hinner
  induction listed with
  | nil => rfl
  | cons encoding listed ih =>
    obtain ⟨he, hr⟩ := List.forall_mem_cons.1 hinner
    have hfirst := fst_quoteAfter?_alike (forall_of_all he) h
    rw [List.findSome?_cons, List.findSome?_cons]
    cases hx : quoteAfter? encoding chars with
    | none =>
      rw [hx] at hfirst
      rw [Option.map_eq_none_iff.1 hfirst.symm]
      exact ih hr
    | some found =>
      rw [hx] at hfirst
      obtain ⟨same, hy, hs⟩ := Option.map_eq_some_iff.1 hfirst.symm
      rw [hy]
      exact congrArg (fun quote => some (encoding, quote)) hs.symm

/-! ## What stands between lexemes -/

theorem skip_alike (h : Alike chars other) (hs : skip (c :: chars) = .skipped [] (c :: chars)) :
    skip (c :: other) = .skipped [] (c :: other) := by
  rw [skip_eq_self_iff] at hs ⊢
  refine ⟨hs.1, fun hc d hd => ?_⟩
  cases h with
  | ends _ ho hs =>
    refine ⟨hs d hd, ?_⟩
    rintro rfl
    exact absurd (ho '*' hd) (by decide)
  | cons e _ => exact hs.2 hc d hd

/-! ## One lexeme -/

theorem cut_eq_of_whole {cut : Cut} (ht : cut.text = text) (hw : cut.whole = text ++ other) :
    cut = ⟨text, other⟩ := by
  rw [Cut.whole, ht] at hw
  rw [← ht, ← List.append_cancel_left hw]

theorem readPlain_alike (c : Char) (h : Alike chars other) :
    (readPlain c chars).1 = (readPlain c other).1 ∧
      (readPlain c chars).2.text = (readPlain c other).2.text := by
  have hword : ∀ c ∈ breaks, Unicode.isWord c = false := forall_mem_breaks.2 (by decide +kernel)
  have hpunctuator := text_punctuator?_alike c h
  unfold readPlain
  rw [startsNumber_alike c h]
  split
  · exact ⟨rfl, congrArg (c :: ·) (text_numberTail_alike false h)⟩
  · split
    · exact ⟨rfl, congrArg (c :: ·) (takeWhile_alike hword h)⟩
    · cases hx : punctuator? (c :: chars) with
      | none =>
        rw [hx] at hpunctuator
        rw [Option.map_eq_none_iff.1 hpunctuator.symm]
        exact ⟨rfl, rfl⟩
      | some cut =>
        rw [hx] at hpunctuator
        obtain ⟨same, hy, ht⟩ := Option.map_eq_some_iff.1 hpunctuator.symm
        rw [hy]
        exact ⟨rfl, ht.symm⟩

/-- A literal is read up to the quote that closes it. -/
theorem closeQuote?_congr {quote : Char} {escaped : Bool} {cut : Cut}
    (h : closeQuote? quote escaped chars = some cut) (other : List Char) :
    closeQuote? quote escaped (cut.text ++ other) = some ⟨cut.text, other⟩ := by
  fun_induction closeQuote? quote escaped chars generalizing cut with
  | case1 | case2 => contradiction
  | case3 escaped c rest hn hc =>
    obtain rfl := Option.some.inj h
    exact (if_neg hn).trans (if_pos hc)
  | case4 escaped c rest hn hc ih =>
    obtain ⟨inner, found, rfl⟩ := Option.map_eq_some_iff.1 h
    rw [Cut.text_cons, List.cons_append, closeQuote?, if_neg hn, if_neg hc, ih found]
    rfl

theorem readLiteral_alike (h : Alike chars other)
    (hr : readLiteral c (text ++ chars) = .lexeme kind ⟨c :: text, chars⟩) :
    readLiteral c (text ++ other) = .lexeme kind ⟨c :: text, other⟩ := by
  have htext := h.append text
  have hopen := start_opening?_alike (htext.cons c)
  unfold readLiteral at hr ⊢
  cases hx : opening? (c :: (text ++ chars)) with
  | none =>
    rw [hx] at hr hopen
    rw [Option.map_eq_none_iff.1 hopen.symm]
    obtain ⟨hkind, hsame⟩ := readPlain_alike c htext
    obtain ⟨rfl, hcut⟩ := Reading.lexeme.inj hr
    have hwhole := (whole_readPlain c (text ++ other)).1
    rw [hcut] at hsame
    dsimp only
    rw [← hkind, cut_eq_of_whole hsame.symm hwhole]
  | some opening =>
    rw [hx] at hr hopen
    obtain ⟨same, hy, hs⟩ := Option.map_eq_some_iff.1 hopen.symm
    obtain ⟨hencoding, hquote⟩ := Prod.mk.inj hs
    have hwhole := (eq_of_opening? hy).1
    rw [hy]
    dsimp only at hr ⊢
    rw [hencoding, hquote] at hwhole ⊢
    split at hr
    · next inner hclose =>
      obtain ⟨rfl, hcut⟩ := Reading.lexeme.inj hr
      obtain ⟨ht, -⟩ := Cut.mk.inj hcut
      have hrest : same.rest = inner.text ++ other := by
        rw [← List.cons_append, ← ht, List.append_assoc] at hwhole
        exact (List.cons.inj (List.append_cancel_left hwhole)).2.symm
      rw [hrest, closeQuote?_congr hclose other, ← ht]
    · contradiction

theorem readText_alike (h : Alike chars other)
    (hr : readText context c (text ++ chars) = .lexeme kind ⟨c :: text, chars⟩) :
    readText context c (text ++ other) = .lexeme kind ⟨c :: text, other⟩ := by
  unfold readText at hr ⊢
  split at hr
  · next hasm =>
    rw [if_pos hasm]
    split at hr
    · next inner hclose =>
      obtain ⟨rfl, hcut⟩ := Reading.lexeme.inj hr
      obtain rfl : inner.text = text := (List.cons.inj (Cut.mk.inj hcut).1).2
      rw [closeBrace?_congr hclose other]
      rfl
    · contradiction
  · next hasm =>
    rw [if_neg hasm]
    exact readLiteral_alike h hr

/-- In a text that is no directive, nothing but newlines, blocks, literals and words is read. -/
theorem read_fragment (hp : Context.Plain false context) (hc : c ≠ '\n') (rest : List Char) :
    read false context c rest = readText context c rest := by
  have hheader : context ≠ .header := by
    rintro rfl
    exact hp
  rw [read, if_neg hc, if_neg hheader]
  rfl

end CPreprocessor.Lexeme

import CPreprocessor.Proofs.Literal.Normal
import CPreprocessor.Proofs.Literal.Value
import CPreprocessor.Proofs.Token.Shape

/-!
# Runs of string literals

A run of adjacent string literals that become one token keeps its value and its encoding.

* `Spells`: a token that is a literal. `spells_of_lexFragment`: string literals of a fragment are.
* `Composed`: one literal with the value and the encoding of several, one after the other.
* `makes_merge`: merging takes a text apart into runs and puts one token in the place of each.
* `joins_of_merge`: where one token is left of a run, it stands for the whole run.
-/

namespace CPreprocessor

/-! ## Where literals come from -/

namespace Lexeme

/-- Every lexeme of a text was read at some place of it. -/
theorem exists_read_of_mem_divide {directives : Bool} {context : Context} {chars : List Char}
    {lexeme : Lexeme} (h : lexeme ∈ (divide directives context chars).lexemes) :
    ∃ place c rest cut, read directives place c rest = .lexeme lexeme.kind cut ∧
      cut.text = lexeme.text := by
  fun_induction divide directives context chars with
  | case1 | case2 | case3 => contradiction
  | case4 context chars gap c rest _ kind cut hread ih =>
    rcases List.mem_cons.1 h with rfl | h
    · exact ⟨context, c, rest, cut, hread, rfl⟩
    · exact ih h

end Lexeme

/-- Tokens come from lexemes, the two that can be added at the end of a file apart. -/
theorem Lexed.exists_lexeme_of_mem_locate {file : String} {finish : Nat × Nat}
    {ending : Lexeme.Ending} {chars : List Source.Located} {lexemes : List Lexeme} {token : Token}
    (h : token ∈ (locate file finish ending chars lexemes).tokens) (hn : token.kind ≠ .newline)
    (he : token.kind ≠ .endOfFile) :
    ∃ lexeme ∈ lexemes, token.kind = lexeme.kind ∧ token.text = String.ofList lexeme.text := by
  induction lexemes generalizing chars with
  | nil =>
    unfold locate at h
    cases ending with
    | unclosed => contradiction
    | complete gap midLine =>
      rcases List.mem_append.1 h with h | h
      · split at h
        · exact absurd (List.mem_singleton.1 h ▸ rfl) hn
        · contradiction
      · exact absurd (List.mem_singleton.1 h ▸ rfl) he
  | cons lexeme lexemes ih =>
    unfold locate at h
    rcases List.mem_cons.1 h with rfl | h
    · exact ⟨lexeme, List.mem_cons_self, rfl, rfl⟩
    · obtain ⟨other, hm, ho⟩ := ih h
      exact ⟨other, List.mem_cons_of_mem _ hm, ho⟩

namespace Literal

/-- A literal that can be told apart into its parts, with no escape cut off at its end. -/
structure Sound (literal : Literal) : Prop where
  encoding : '"' ∉ literal.encoding
  body : Whole literal.body

theorem split?_spell {literal : Literal} (h : literal.Sound) :
    split? literal.spell = some literal := by
  have ht := forall_ne_quote h.encoding
  simp only [split?, spell, List.dropWhile_append_of_pos ht, List.takeWhile_append_of_pos ht]
  simp

/-- What is read up to a closing quote ends in no backslash that escapes the quote. -/
theorem whole_of_closeQuote? {escaped : Bool} {chars : List Char} {cut : Cut}
    (h : Lexeme.closeQuote? '"' escaped chars = some cut) {escape : Escape}
    (he : escape = .backslash ↔ escaped) :
    ∃ body, cut.text = body ++ ['"'] ∧ escape.through body ≠ .backslash := by
  fun_induction Lexeme.closeQuote? '"' escaped chars generalizing cut escape with
  | case1 | case2 => contradiction
  | case3 escaped c rest _ hc =>
    obtain rfl := Option.some.inj h
    simp only [Bool.and_eq_true, Bool.not_eq_true', decide_eq_true_eq] at hc
    obtain ⟨rfl, rfl⟩ := hc
    exact ⟨[], rfl, fun hb => Bool.false_ne_true (he.1 hb)⟩
  | case4 escaped c rest hn hc ih =>
    obtain ⟨inner, found, rfl⟩ := Option.map_eq_some_iff.1 h
    have hnext : escape.next c = .backslash ↔ (!escaped && c = '\\') := by
      rw [Escape.next_eq_backslash, Ne, he]
      simp
    obtain ⟨body, hb, hw⟩ := ih found hnext
    exact ⟨c :: body, by simp [hb], hw⟩

theorem sound_of_readLiteral {c : Char} {rest : List Char} {cut : Cut}
    (h : Lexeme.readLiteral c rest = .lexeme .string cut) :
    ∃ literal : Literal, cut.text = literal.spell ∧ literal.Sound := by
  unfold Lexeme.readLiteral at h
  split at h
  · next opening hopen =>
    split at h
    · next inner hclose =>
      obtain ⟨hk, rfl⟩ := Lexeme.Reading.lexeme.inj h
      have hq : opening.quote = '"' := by
        by_contra hq
        rw [if_neg hq] at hk
        contradiction
      rw [hq] at hclose
      have habsent : Escape.absent = .backslash ↔ false := by decide
      obtain ⟨body, hb, hw⟩ := whole_of_closeQuote? hclose habsent
      have he : ∀ encoding ∈ Lexeme.encodings, '"' ∉ encoding := by decide
      exact ⟨⟨opening.encoding, body⟩, by simp [spell, hq, hb],
        he _ (Lexeme.mem_encodings_of_opening? hopen), hw⟩
    · contradiction
  · obtain ⟨hk, -⟩ := Lexeme.Reading.lexeme.inj h
    exact absurd hk (isOrdinary_readPlain c rest).2

theorem sound_of_read {directives : Bool} {context : Lexeme.Context} {c : Char} {rest : List Char}
    {cut : Cut} (h : Lexeme.read directives context c rest = .lexeme .string cut) :
    ∃ literal : Literal, cut.text = literal.spell ∧ literal.Sound := by
  cases Lexeme.readAs_of_read h with
  | literal _ _ _ _ hl => exact sound_of_readLiteral hl

/-- A token that is a literal. -/
structure Spells (token : Token) (literal : Literal) : Prop where
  kind : token.kind = .string
  text : token.text.toList = literal.spell
  sound : literal.Sound

/-- String literals of a fragment are literals. -/
theorem spells_of_lexFragment {file text : String} {tokens : List Token}
    (h : lexFragment file text = .ok tokens) {token : Token} (hm : token ∈ tokens)
    (hk : token.kind = .string) : ∃ literal, Spells token literal := by
  unfold lexFragment at h
  dsimp only at h
  split at h
  · contradiction
  · obtain rfl := Except.ok.inj h
    obtain ⟨lexeme, hl, hkind, htext⟩ :=
      Lexed.exists_lexeme_of_mem_locate (List.mem_filter.1 hm).1 (hk ▸ nofun) (hk ▸ nofun)
    obtain ⟨place, c, rest, cut, hread, hcut⟩ := Lexeme.exists_read_of_mem_divide hl
    rw [← hkind, hk] at hread
    obtain ⟨literal, hspell, hs⟩ := sound_of_read hread
    exact ⟨literal, hk, by rw [htext, String.toList_ofList, ← hcut, hspell], hs⟩

/-! ## Joining -/

/-- One literal with the value of several, and the only encoding among them. -/
structure Composed (parts : List Literal) (whole : Literal) : Prop where
  value : decode whole.body = parts.flatMap fun part => decode part.body
  encoding : whole.encoding = [] ∨ ∃ part ∈ parts, part.encoding = whole.encoding
  agree : ∀ part ∈ parts, part.encoding = [] ∨ part.encoding = whole.encoding

theorem composed_singleton (literal : Literal) : Composed [literal] literal where
  value := (List.append_nil _).symm
  encoding := .inr ⟨literal, List.mem_singleton_self _, rfl⟩
  agree _ hp := .inr (List.mem_singleton.1 hp ▸ rfl)

theorem append?_eq {left right joined : Literal} (h : left.append? right = some joined) :
    (left.encoding = [] ∨ right.encoding = [] ∨ left.encoding = right.encoding) ∧
      joined.encoding = (if left.encoding = [] then right.encoding else left.encoding) ∧
      joined.body = left.body ++ respell left.body right.body := by
  unfold append? at h
  split at h
  · contradiction
  · next he =>
    obtain rfl := Option.some.inj h
    refine ⟨?_, rfl, rfl⟩
    tauto

theorem Sound.append {left right joined : Literal} (hl : left.Sound) (hr : right.Sound)
    (h : left.append? right = some joined) : joined.Sound := by
  obtain ⟨-, he, hb⟩ := append?_eq h
  refine ⟨?_, hb ▸ whole_respell hl.body hr.body⟩
  rw [he]
  split
  · exact hr.encoding
  · exact hl.encoding

/-- Joined literals have the value of both, and the encoding that either has. -/
theorem Composed.append {parts : List Literal} {whole next joined : Literal}
    (h : Composed parts whole) (hw : whole.Sound) (hj : whole.append? next = some joined) :
    Composed (parts ++ [next]) joined := by
  obtain ⟨hagree, he, hb⟩ := append?_eq hj
  refine ⟨?_, ?_, ?_⟩
  · rw [hb, decode_respell hw.body, h.value]
    simp
  · by_cases hempty : whole.encoding = []
    · rw [he, if_pos hempty]
      exact .inr ⟨next, by simp, rfl⟩
    · rw [he, if_neg hempty]
      obtain ⟨part, hm, hp⟩ := h.encoding.resolve_left hempty
      exact .inr ⟨part, List.mem_append_left _ hm, hp⟩
  · intro part hm
    by_cases hempty : whole.encoding = []
    · rw [he, if_pos hempty]
      rcases List.mem_append.1 hm with hm | hm
      · exact .inl ((h.agree part hm).elim id fun hp => hp.trans hempty)
      · exact .inr (List.mem_singleton.1 hm ▸ rfl)
    · rw [he, if_neg hempty]
      rcases List.mem_append.1 hm with hm | hm
      · exact h.agree part hm
      · rw [List.mem_singleton.1 hm]
        exact (hagree.resolve_left hempty).imp_right Eq.symm

theorem join?_eq {left right : Token} {first second : Literal} (hl : Spells left first)
    (hr : Spells right second) : join? left right = (first.append? second).map fun joined =>
      { left with kind := .string, text := String.ofList joined.spell } := by
  unfold join?
  rw [hl.text, hr.text, split?_spell hl.sound, split?_spell hr.sound]
  simp only [Option.bind_eq_bind, Option.bind_some]
  cases first.append? second <;> rfl

/-! ## Merging -/

/-- A token that stands for a run of literals. -/
def Joins (run : List Token) (merged : Token) : Prop :=
  ∃ parts whole, List.Forall₂ Spells run parts ∧ Spells merged whole ∧ Composed parts whole

/-- What one token is made of: a single token that is no literal, or a run of literals. -/
def Makes (run : List Token) (made : Token) : Prop :=
  run = [made] ∧ made.kind ≠ .string ∨ Joins run made

theorem joins_singleton {token : Token} {literal : Literal} (h : Spells token literal) :
    Joins [token] token :=
  ⟨[literal], literal, .cons h .nil, h, composed_singleton literal⟩

/-- A literal that is joined with the one held back extends the run. -/
theorem Joins.append {run : List Token} {left token joined : Token} {literal : Literal}
    (h : Joins run left) (ht : Spells token literal) (hj : join? left token = some joined) :
    Joins (run ++ [token]) joined := by
  obtain ⟨parts, whole, hparts, hwhole, hc⟩ := h
  rw [join?_eq hwhole ht] at hj
  obtain ⟨both, ha, rfl⟩ := Option.map_eq_some_iff.1 hj
  refine ⟨parts ++ [literal], both, List.rel_append hparts (.cons ht .nil), ?_,
    hc.append hwhole.sound ha⟩
  exact ⟨rfl, String.toList_ofList, hwhole.sound.append ht.sound ha⟩

theorem joins_of_gathers {run : List Token} {made : Token}
    (ht : ∀ token ∈ run, ∃ literal, Spells token literal) (h : Gathers run made) :
    Joins run made := by
  induction h with
  | @first token _ =>
    obtain ⟨literal, hl⟩ := ht token (List.mem_singleton_self token)
    exact joins_singleton hl
  | @next run left token joined _ _ hj ih =>
    obtain ⟨literal, hl⟩ := ht token (List.mem_append_right _ (List.mem_singleton_self token))
    exact (ih fun other hm => ht other (List.mem_append_left _ hm)).append hl hj

theorem makes_of_replaces {group : List Token} {made : Token}
    (ht : ∀ token ∈ group, token.kind = .string → ∃ literal, Spells token literal)
    (h : Replaces group made) : Makes group made := by
  by_cases hk : made.kind = .string
  · have hg := h.literals hk
    exact .inr (joins_of_gathers (fun token hm => ht token hm (hg.kind.2 token hm)) hg)
  · exact .inl ⟨h.other hk, hk⟩

/-- Merging takes the tokens apart into runs, and puts one token in the place of each. -/
theorem makes_merge {tokens : List Token}
    (ht : ∀ token ∈ tokens, token.kind = .string → ∃ literal, Spells token literal) :
    ∃ runs, runs.flatten = tokens ∧ List.Forall₂ Makes runs (merge tokens) := by
  obtain ⟨groups, rfl, hgroups⟩ := replaces_merge tokens
  refine ⟨groups, rfl, ?_⟩
  generalize merge groups.flatten = merged at hgroups
  induction hgroups with
  | nil => exact .nil
  | cons h _ ih =>
    obtain ⟨hg, hgs⟩ := List.forall_mem_append.1 ht
    exact .cons (makes_of_replaces hg h) (ih hgs)

/-- A token is read in some fragment. -/
def InFragment (token : Token) : Prop :=
  ∃ file text tokens, lexFragment file text = .ok tokens ∧ token ∈ tokens

/-- Where a run of string literals becomes a single token, that one has the value of all of them in
their order, and the encoding of those that have one. -/
theorem joins_of_merge {run : List Token} {merged : Token}
    (hr : ∀ token ∈ run, token.kind = .string ∧ InFragment token) (hm : merge run = [merged]) :
    Joins run merged := by
  have ht : ∀ token ∈ run, token.kind = .string → ∃ literal, Spells token literal := by
    intro token ht hk
    obtain ⟨file, text, tokens, hlex, hin⟩ := (hr token ht).2
    exact spells_of_lexFragment hlex hin hk
  obtain ⟨runs, hflat, hruns⟩ := makes_merge ht
  rw [hm] at hruns
  obtain ⟨made, none, hmakes, hnone, rfl⟩ := List.forall₂_cons_right_iff.1 hruns
  obtain rfl := List.forall₂_nil_right_iff.1 hnone
  obtain rfl : made = run := by simpa using hflat
  rcases hmakes with ⟨rfl, hk⟩ | hj
  · exact absurd (hr merged (List.mem_singleton_self _)).1 hk
  · exact hj

/-- Three literals: a numeric escape, an empty one, and a digit that the escape could take. -/
def sampleRun : List Token :=
  [{ kind := .string, text := "L\"\\x1\"", position := ⟨"<scratch>", 1, 1⟩ },
    { kind := .string, text := "\"\"", position := ⟨"<scratch>", 1, 8⟩, space := true },
    { kind := .string, text := "L\"2\"", position := ⟨"<scratch>", 1, 11⟩, space := true }]

theorem joins_of_merge_open_escape :
    (∀ token ∈ sampleRun, token.kind = .string ∧ InFragment token) ∧
      merge sampleRun = [{ sampleRun.head! with text := "L\"\\x1\\062\"" }] ∧
      Joins sampleRun { sampleRun.head! with text := "L\"\\x1\\062\"" } := by
  have hlex : lexFragment "<scratch>" "L\"\\x1\" \"\" L\"2\"" = .ok sampleRun := by decide +kernel
  have hr : ∀ token ∈ sampleRun, token.kind = .string ∧ InFragment token := by
    intro token ht
    have hk : ∀ token ∈ sampleRun, token.kind = .string := by decide
    exact ⟨hk token ht, _, _, _, hlex, ht⟩
  have hm : merge sampleRun = [{ sampleRun.head! with text := "L\"\\x1\\062\"" }] := by
    decide +kernel
  exact ⟨hr, hm, joins_of_merge hr hm⟩

end Literal

end CPreprocessor

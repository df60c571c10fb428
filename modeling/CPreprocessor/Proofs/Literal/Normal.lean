import CPreprocessor.Proofs.Literal.Merge
import Mathlib.Data.List.Chain
import Mathlib.Data.List.Forall2

/-!
# What merging leaves

Merging takes tokens apart into groups and puts one token in the place of each. What it leaves is in
a normal form: literals that still stand next to each other have different encodings, so that there
is nothing to merge any more.

* `Gathers`: literals that become one. `Replaces`: what is put in the place of a group.
  `replaces_merge`: there is one token for each group.
* `Apart`: tokens that are not merged. `isChain_merge`: what is left is apart. `merge_of_isChain`:
  nothing happens to tokens that are.
* `merge_cut_left`, `merge_cut_right`: a text is merged in two parts where the one or the other does
  not go on with a literal.
* `merge_normal`: all of it together.
-/

namespace CPreprocessor.Literal

variable {tokens run group before after rest : List Token} {held : Option Token}
  {left right token joined made stop : Token}

/-! ## Groups -/

/-- Literals that become one token: the first of them, each further one being joined with what the
ones before it became. -/
inductive Gathers : List Token → Token → Prop
  | first {token : Token} (hk : token.kind = .string) : Gathers [token] token
  | next {run : List Token} {left token joined : Token} (h : Gathers run left)
      (hk : token.kind = .string) (hj : join? left token = some joined) :
      Gathers (run ++ [token]) joined

/-- Joined literals stand in the place of the first one. -/
theorem place_of_join? (h : join? left right = some joined) :
    joined.kind = .string ∧ joined.position = left.position ∧ joined.hide = left.hide ∧
      joined.space = left.space := by
  unfold join? at h
  obtain ⟨_, -, h⟩ := Option.bind_eq_some_iff.1 h
  obtain ⟨_, -, h⟩ := Option.bind_eq_some_iff.1 h
  obtain ⟨_, -, h⟩ := Option.bind_eq_some_iff.1 h
  obtain rfl := Option.some.inj h
  exact ⟨rfl, rfl, rfl, rfl⟩

theorem Gathers.kind (h : Gathers run made) :
    made.kind = .string ∧ ∀ token ∈ run, token.kind = .string := by
  induction h with
  | first hk => exact ⟨hk, List.forall_mem_singleton.2 hk⟩
  | next _ hk hj ih =>
    refine ⟨(place_of_join? hj).1, fun token hm => ?_⟩
    rcases List.mem_append.1 hm with hm | hm
    · exact ih.2 token hm
    · exact List.mem_singleton.1 hm ▸ hk

/-- What is put in the place of a group: a token that is no literal stays, literals become one, and
it has the place of the first token of the group. -/
structure Replaces (group : List Token) (made : Token) : Prop where
  other : made.kind ≠ .string → group = [made]
  literals : made.kind = .string → Gathers group made
  place : ∃ first rest, group = first :: rest ∧ made.position = first.position ∧
    made.hide = first.hide ∧ made.space = first.space

theorem replaces_self (h : token.kind ≠ .string) : Replaces [token] token :=
  ⟨fun _ => rfl, fun hk => absurd hk h, token, [], rfl, rfl, rfl, rfl⟩

theorem Gathers.replaces (h : Gathers run made) : Replaces run made := by
  refine ⟨fun hk => absurd h.kind.1 hk, fun _ => h, ?_⟩
  induction h with
  | @first token hk => exact ⟨token, [], rfl, rfl, rfl, rfl⟩
  | @next run left token joined _ _ hj ih =>
    obtain ⟨first, rest, rfl, hp, hh, hs⟩ := ih
    obtain ⟨-, hp', hh', hs'⟩ := place_of_join? hj
    exact ⟨first, rest ++ [token], rfl, hp'.trans hp, hh'.trans hh, hs'.trans hs⟩

/-- The literals that the one held back stands for. -/
def Gathered (run : List Token) : Option Token → Prop
  | none => run = []
  | some left => Gathers run left

/-- What is ready behind one more token, and what is held back, make up what was held and it. -/
theorem replaces_absorb (h : Gathered run held) (token : Token) :
    ∃ done more, done.flatten ++ more = run ++ [token] ∧
      List.Forall₂ Replaces done (absorb held token).1 ∧ Gathered more (absorb held token).2 := by
  unfold absorb
  split
  · next hk =>
    cases held with
    | none =>
      obtain rfl : run = [] := h
      exact ⟨[], [token], rfl, .nil, .first hk⟩
    | some left =>
      dsimp only
      cases hj : join? left token with
      | some joined => exact ⟨[], run ++ [token], rfl, .nil, .next h hk hj⟩
      | none => exact ⟨[run], [token], by simp, .cons (Gathers.replaces h) .nil, .first hk⟩
  · next hk =>
    cases held with
    | none =>
      obtain rfl : run = [] := h
      exact ⟨[[token]], [], rfl, .cons (replaces_self hk) .nil, rfl⟩
    | some left =>
      exact ⟨[run, [token]], [], by simp,
        .cons (Gathers.replaces h) (.cons (replaces_self hk) .nil), rfl⟩

theorem replaces_mergeFrom (h : Gathered run held) (tokens : List Token) :
    ∃ groups, groups.flatten = run ++ tokens ∧
      List.Forall₂ Replaces groups (mergeFrom held tokens) := by
  induction tokens generalizing run held with
  | nil =>
    cases held with
    | none =>
      obtain rfl : run = [] := h
      exact ⟨[], rfl, .nil⟩
    | some left => exact ⟨[run], by simp, .cons (Gathers.replaces h) .nil⟩
  | cons token rest ih =>
    obtain ⟨done, more, hsplit, hdone, hmore⟩ := replaces_absorb h token
    obtain ⟨groups, hflat, hgroups⟩ := ih hmore
    refine ⟨done ++ groups, ?_, List.rel_append hdone hgroups⟩
    rw [List.flatten_append, hflat, ← List.append_assoc, hsplit, List.append_assoc]
    rfl

/-- Merging takes tokens apart into groups, and puts one token in the place of each. -/
theorem replaces_merge (tokens : List Token) :
    ∃ groups, groups.flatten = tokens ∧ List.Forall₂ Replaces groups (merge tokens) := by
  have hh : Gathered [] none := rfl
  exact replaces_mergeFrom hh tokens

/-- Tokens that are no literals stay as they are. -/
theorem Replaces.filter_eq (h : Replaces group made) :
    [made].filter (·.kind ≠ .string) = group.filter (·.kind ≠ .string) := by
  by_cases hk : made.kind = .string
  · have hg : group.filter (·.kind ≠ .string) = [] :=
      List.filter_eq_nil_iff.2 fun token hm => by simp [(h.literals hk).kind.2 token hm]
    rw [hg]
    simp [hk]
  · rw [h.other hk]

theorem filter_merge (tokens : List Token) :
    (merge tokens).filter (·.kind ≠ .string) = tokens.filter (·.kind ≠ .string) := by
  obtain ⟨groups, rfl, hgroups⟩ := replaces_merge tokens
  generalize merge groups.flatten = merged at hgroups
  induction hgroups with
  | nil => rfl
  | @cons group made groups merged h _ ih =>
    rw [List.flatten_cons, List.filter_append, ← ih, ← h.filter_eq, ← List.filter_append]
    rfl

/-- A run of literals becomes a run of literals that is not empty. -/
theorem literals_merge (hn : run ≠ []) (hk : ∀ token ∈ run, token.kind = .string) :
    merge run ≠ [] ∧ ∀ made ∈ merge run, made.kind = .string := by
  obtain ⟨groups, hflat, hgroups⟩ := replaces_merge run
  constructor
  · intro he
    rw [he] at hgroups
    obtain rfl := List.forall₂_nil_right_iff.1 hgroups
    exact hn hflat.symm
  · intro made hm
    by_contra hmade
    obtain ⟨token, hin⟩ : ∃ token, token ∈ (merge run).filter (·.kind ≠ .string) :=
      ⟨made, List.mem_filter.2 ⟨hm, decide_eq_true hmade⟩⟩
    rw [filter_merge, List.mem_filter, decide_eq_true_eq] at hin
    exact hin.2 (hk token hin.1)

/-! ## Encodings -/

/-- The encoding of a literal: what stands before its first quote. -/
def encodingOf (token : Token) : List Char := token.text.toList.takeWhile (· ≠ '"')

/-- Two tokens that are not merged: they are not both literals, or they have different encodings. -/
def Apart (left right : Token) : Prop :=
  left.kind = .string → right.kind = .string →
    encodingOf left ≠ [] ∧ encodingOf right ≠ [] ∧ encodingOf left ≠ encodingOf right

instance (left right : Token) : Decidable (Apart left right) :=
  inferInstanceAs (Decidable (_ → _ → _))

theorem split?_of_quoted (hk : token.kind = .string) (hq : token.Quoted) :
    ∃ body, split? token.text.toList = some ⟨encodingOf token, body⟩ := by
  obtain ⟨literal, hl⟩ := Option.isSome_iff_exists.1 (hasParts_of_quoted hk hq)
  refine ⟨literal.body, ?_⟩
  unfold split? at hl ⊢
  split at hl
  · contradiction
  · obtain rfl := Option.some.inj hl
    rfl

theorem forall_ne_quote {text : List Char} (h : '"' ∉ text) :
    ∀ c ∈ text, decide (c ≠ '"') = true := by
  intro c hc
  refine decide_eq_true ?_
  rintro rfl
  exact h hc

theorem takeWhile_spell {literal : Literal} (h : '"' ∉ literal.encoding) :
    literal.spell.takeWhile (· ≠ '"') = literal.encoding := by
  rw [spell, List.takeWhile_append_of_pos (forall_ne_quote h)]
  simp

theorem quote_notMem_encodingOf (token : Token) : '"' ∉ encodingOf token := by
  intro hm
  have hall := List.all_takeWhile (p := (· ≠ '"')) (l := token.text.toList)
  exact absurd (List.all_eq_true.1 hall '"' hm) (by decide)

/-- Two literals are joined unless they have different encodings, and then the result has the
encoding that there is. -/
theorem join?_cases (hl : left.kind = .string) (hlq : left.Quoted) (hr : right.kind = .string)
    (hrq : right.Quoted) :
    (encodingOf left ≠ [] ∧ encodingOf right ≠ [] ∧ encodingOf left ≠ encodingOf right ∧
        join? left right = none) ∨
      ∃ joined, join? left right = some joined ∧
        encodingOf joined = if encodingOf left = [] then encodingOf right else encodingOf left := by
  obtain ⟨body, hleft⟩ := split?_of_quoted hl hlq
  obtain ⟨other, hright⟩ := split?_of_quoted hr hrq
  simp only [join?, hleft, hright, Option.bind_eq_bind, Option.bind_some, append?]
  split
  · next hd => exact .inl ⟨hd.1, hd.2.1, hd.2.2, rfl⟩
  · refine .inr ⟨_, rfl, ?_⟩
    rw [encodingOf, String.toList_ofList]
    refine takeWhile_spell ?_
    dsimp only
    split
    · exact quote_notMem_encodingOf right
    · exact quote_notMem_encodingOf left

theorem join?_of_apart (hl : left.kind = .string) (hlq : left.Quoted) (hr : right.kind = .string)
    (hrq : right.Quoted) (h : Apart left right) : join? left right = none := by
  obtain ⟨hleft, hright, hd⟩ := h hl hr
  obtain ⟨-, -, -, hj⟩ | ⟨joined, hj, -⟩ := join?_cases hl hlq hr hrq
  · exact hj
  · obtain ⟨body, hs⟩ := split?_of_quoted hl hlq
    obtain ⟨other, ht⟩ := split?_of_quoted hr hrq
    simp [join?, hs, ht, append?, hleft, hright, hd] at hj

/-! ## The normal form -/

/-- A literal with an encoding that is held back comes out with that encoding. -/
theorem encodingOf_head_mergeFrom (hk : left.kind = .string) (hq : left.Quoted)
    (he : encodingOf left ≠ []) (ht : ∀ token ∈ tokens, token.Quoted) :
    ∀ first ∈ (mergeFrom (some left) tokens).head?, encodingOf first = encodingOf left := by
  induction tokens generalizing left with
  | nil =>
    intro first hf
    obtain rfl := Option.some.inj hf
    rfl
  | cons token rest ih =>
    obtain ⟨hfirst, hrest⟩ := List.forall_mem_cons.1 ht
    rw [mergeFrom]
    unfold absorb
    split
    · next htk =>
      obtain ⟨-, -, -, hj⟩ | ⟨joined, hj, hjoined⟩ := join?_cases hk hq htk hfirst
      · simp [hj]
      · rw [if_neg he] at hjoined
        obtain ⟨hjk, hjo⟩ := ordinary_of_join? hj
        simp only [hj, List.nil_append]
        rw [← hjoined]
        exact ih hjk hjo.quoted (hjoined ▸ he) hrest
    · simp

theorem isChain_mergeFrom (hh : Holds held) (ht : ∀ token ∈ tokens, token.Quoted) :
    (mergeFrom held tokens).IsChain Apart := by
  induction tokens generalizing held with
  | nil =>
    cases held with
    | none => exact .nil
    | some left => exact .singleton left
  | cons token rest ih =>
    obtain ⟨hfirst, hrest⟩ := List.forall_mem_cons.1 ht
    have hmore := ih (holds_absorb hh hfirst) hrest
    rw [mergeFrom]
    unfold absorb at hmore ⊢
    split at hmore
    · next hk =>
      cases held with
      | none => simpa [hk] using hmore
      | some left =>
        obtain ⟨hl, hlq⟩ := hh left rfl
        obtain ⟨hle, hte, hd, hj⟩ | ⟨joined, hj, -⟩ := join?_cases hl hlq hk hfirst
        · simp only [hj, if_pos hk] at hmore ⊢
          refine List.isChain_cons.2 ⟨fun first hf _ _ => ?_, hmore⟩
          rw [encodingOf_head_mergeFrom hk hfirst hte hrest first hf]
          exact ⟨hle, hte, hd⟩
        · simpa only [hj, if_pos hk, List.nil_append] using hmore
    · next hk =>
      rw [if_neg hk]
      have hnext : (token :: mergeFrom none rest).IsChain Apart :=
        List.isChain_cons.2 ⟨fun _ _ h => absurd h hk, hmore⟩
      cases held with
      | none => exact hnext
      | some left => exact List.isChain_cons.2 ⟨fun first hf _ hs => by simp_all, hnext⟩

/-- Adjacent literals that are left have different encodings. -/
theorem isChain_merge (ht : ∀ token ∈ tokens, token.Quoted) : (merge tokens).IsChain Apart :=
  isChain_mergeFrom holds_none ht

theorem mergeFrom_of_isChain (hh : Holds held) (ht : ∀ token ∈ tokens, token.Quoted)
    (hc : (held.toList ++ tokens).IsChain Apart) :
    mergeFrom held tokens = held.toList ++ tokens := by
  induction tokens generalizing held with
  | nil => exact (List.append_nil _).symm
  | cons token rest ih =>
    obtain ⟨hfirst, hrest⟩ := List.forall_mem_cons.1 ht
    have hnext := ih (holds_absorb hh hfirst) hrest
    rw [mergeFrom]
    unfold absorb at hnext ⊢
    split at hnext
    · next hk =>
      cases held with
      | none => simpa [hk] using hnext hc
      | some left =>
        obtain ⟨hl, hlq⟩ := hh left rfl
        have happly := List.isChain_cons.1 hc
        have hj := join?_of_apart hl hlq hk hfirst (happly.1 token rfl)
        simp only [hj, if_pos hk] at hnext ⊢
        rw [hnext happly.2]
        rfl
    · next hk =>
      have htail : rest.IsChain Apart := hc.right_of_append.tail
      rw [if_neg hk, hnext htail]
      simp

/-- Tokens that are apart stay as they are. -/
theorem merge_of_isChain (ht : ∀ token ∈ tokens, token.Quoted) (hc : tokens.IsChain Apart) :
    merge tokens = tokens := mergeFrom_of_isChain holds_none ht hc

theorem quoted_mergeFrom (hh : Holds held) (ht : ∀ token ∈ tokens, token.Quoted) :
    ∀ token ∈ mergeFrom held tokens, token.Quoted := by
  induction tokens generalizing held with
  | nil => exact fun token hm => (hh token (Option.mem_toList.1 hm)).2
  | cons token rest ih =>
    obtain ⟨hfirst, hrest⟩ := List.forall_mem_cons.1 ht
    intro made hm
    rcases List.mem_append.1 hm with hm | hm
    · exact (has_absorb inherited_quoted (fun left hl => (hh left hl).2) hfirst).1 made hm
    · exact ih (holds_absorb hh hfirst) hrest made hm

/-! ## Cutting a text -/

/-- A token that is no literal ends a run of literals. -/
theorem mergeFrom_append_cons (held : Option Token) (tokens : List Token)
    (h : stop.kind ≠ .string) (rest : List Token) :
    mergeFrom held (tokens ++ stop :: rest) = mergeFrom held tokens ++ stop :: merge rest := by
  induction tokens generalizing held with
  | nil =>
    have hstop : absorb held stop = (held.toList ++ [stop], none) := if_neg h
    change (absorb held stop).1 ++ mergeFrom (absorb held stop).2 rest = _
    rw [hstop, List.append_assoc]
    rfl
  | cons token more ih => rw [List.cons_append, mergeFrom, ih, mergeFrom, List.append_assoc]

theorem merge_cut_left (h : ∀ last ∈ before.getLast?, last.kind ≠ .string) (rest : List Token) :
    merge (before ++ rest) = merge before ++ merge rest ∧
      ∀ last ∈ (merge before).getLast?, last.kind ≠ .string := by
  rcases List.eq_nil_or_concat before with rfl | ⟨inner, stop, rfl⟩
  · exact ⟨rfl, nofun⟩
  · rw [List.concat_eq_append] at h ⊢
    have hs : stop.kind ≠ .string := h stop (by rw [List.getLast?_concat]; rfl)
    have hinner : merge (inner ++ [stop]) = merge inner ++ [stop] :=
      mergeFrom_append_cons none inner hs []
    refine ⟨?_, fun last hl => ?_⟩
    · rw [hinner, List.append_assoc, List.append_assoc]
      exact mergeFrom_append_cons none inner hs rest
    · rw [hinner, List.getLast?_concat] at hl
      exact Option.some.inj hl ▸ hs

theorem merge_cut_right (h : ∀ first ∈ after.head?, first.kind ≠ .string) (tokens : List Token) :
    merge (tokens ++ after) = merge tokens ++ merge after ∧
      ∀ first ∈ (merge after).head?, first.kind ≠ .string := by
  cases after with
  | nil => exact ⟨by simp [merge, mergeFrom], nofun⟩
  | cons stop rest =>
    have hs : stop.kind ≠ .string := h stop rfl
    have hafter : merge (stop :: rest) = stop :: merge rest := mergeFrom_append_cons none [] hs rest
    refine ⟨?_, fun first hf => ?_⟩
    · rw [hafter]
      exact mergeFrom_append_cons none tokens hs rest
    · rw [hafter] at hf
      exact Option.some.inj hf ▸ hs

theorem merge_singleton (token : Token) : merge [token] = [token] := by
  unfold merge mergeFrom absorb
  split <;> rfl

/-- Nothing is merged if no literal follows another token. -/
theorem merge_of_tail (h : ∀ token ∈ tokens.tail, token.kind ≠ .string) :
    merge tokens = tokens := by
  induction tokens with
  | nil => rfl
  | cons first rest ih =>
    have hrest : ∀ token ∈ rest.head?, token.kind ≠ .string :=
      fun token hm => h token (List.mem_of_head? hm)
    have hcut := (merge_cut_right hrest [first]).1
    rw [merge_singleton, ih fun token hm => h token (List.mem_of_mem_tail hm)] at hcut
    exact hcut

/-! ## All together -/

/-- A run of literals that goes on to neither side. -/
structure IsRun (before run after : List Token) : Prop where
  ne_nil : run ≠ []
  literals : ∀ token ∈ run, token.kind = .string
  before : ∀ last ∈ before.getLast?, last.kind ≠ .string
  after : ∀ first ∈ after.head?, first.kind ≠ .string

/-- What merging does to tokens. -/
structure Merges (tokens merged : List Token) : Prop where
  /-- Tokens that are no literals stay as they are, in their order. -/
  others : merged.filter (·.kind ≠ .string) = tokens.filter (·.kind ≠ .string)
  /-- A whole run of literals becomes a whole run of literals, which is not empty, and what stands
  before and behind it is merged by itself. -/
  runs : ∀ before run after, tokens = before ++ run ++ after → IsRun before run after →
    merged = merge before ++ merge run ++ merge after ∧
      IsRun (merge before) (merge run) (merge after)
  /-- Adjacent literals that are left have different encodings, none of them absent. -/
  apart : merged.IsChain Apart
  /-- Each token that is left stands for a group, in the place of the first token of it. -/
  groups : ∃ groups, groups.flatten = tokens ∧ List.Forall₂ Replaces groups merged
  /-- There is nothing left to merge. -/
  normal : merge merged = merged

/-- Among tokens whose literals have quotes, merging reaches a normal form, and it touches nothing
but runs of literals. -/
theorem merge_normal (ht : ∀ token ∈ tokens, token.Quoted) : Merges tokens (merge tokens) where
  others := filter_merge tokens
  runs before run after he hr := by
    subst he
    obtain ⟨hleft, hlast⟩ := merge_cut_left hr.before run
    obtain ⟨hright, hfirst⟩ := merge_cut_right hr.after (before ++ run)
    obtain ⟨hn, hk⟩ := literals_merge hr.ne_nil hr.literals
    exact ⟨by rw [hright, hleft], hn, hk, hlast, hfirst⟩
  apart := isChain_merge ht
  groups := replaces_merge tokens
  normal := merge_of_isChain (quoted_mergeFrom holds_none ht) (isChain_merge ht)

/-- A literal at some place of a text. -/
def sampleLiteral (text : String) (column : Nat) : Token :=
  { kind := .string, text, position := ⟨"<scratch>", 1, column⟩ }

/-- Literals with and without encodings, empty ones among them, in two runs. -/
def mixedRuns : List Token :=
  [sampleLiteral "\"\"" 1, sampleLiteral "L\"a\"" 3, sampleLiteral "\"\"" 7,
    sampleLiteral "u\"b\"" 9, sampleLiteral "U\"\"" 13,
    { kind := .punctuator, text := ",", position := ⟨"<scratch>", 1, 16⟩ },
    sampleLiteral "\"c\"" 17, sampleLiteral "u8\"d\"" 20]

theorem merge_normal_mixed :
    (∀ token ∈ mixedRuns, token.Quoted) ∧
      Merges mixedRuns
        [sampleLiteral "L\"a\"" 1, sampleLiteral "u\"b\"" 9, sampleLiteral "U\"\"" 13,
          { kind := .punctuator, text := ",", position := ⟨"<scratch>", 1, 16⟩ },
          sampleLiteral "u8\"cd\"" 17] := by
  have ht : ∀ token ∈ mixedRuns, token.Quoted := by
    intro token hm _
    have hq : mixedRuns.all fun token =>
        token.kind ≠ .string || token.text.toList.contains '"' := by
      decide +kernel
    have hall := List.all_eq_true.1 hq token hm
    simp_all
  have hm : merge mixedRuns = [sampleLiteral "L\"a\"" 1, sampleLiteral "u\"b\"" 9,
      sampleLiteral "U\"\"" 13,
      { kind := .punctuator, text := ",", position := ⟨"<scratch>", 1, 16⟩ },
      sampleLiteral "u8\"cd\"" 17] := by decide +kernel
  exact ⟨ht, hm ▸ merge_normal ht⟩

end CPreprocessor.Literal

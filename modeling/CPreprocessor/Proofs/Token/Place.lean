import CPreprocessor.Proofs.Lexeme.Operands
import Mathlib.Data.List.DropRight
import Mathlib.Data.List.Nodup

/-!
# Places between tokens

How a text is read on behind its first tokens depends on them only through the line they end in and
the last of them. What is left of the text is determined by them, too.

* `AtHeader`, `BehindAsm`: where a header name is expected, and where a brace opens a block.
  `Stands`: the tokens that a place can stand behind. `Stands.next`: one token keeps it.
* `First`: the first token of a text with its part. `exists_first`: the first lexeme is one.
* `Reached`: what is left of a text behind tokens. `exists_place`: the lexemes in front of the
  others reach a place; `place_of_reached`: whatever is reached is the place where the reading
  goes on.
-/

namespace CPreprocessor

open Source Lexeme

/-! ## The line so far -/

/-- The tokens of the last line. -/
def lineOf (tokens : List Token) : List Token := tokens.rtakeWhile (·.kind ≠ .newline)

/-- The line is a directive. -/
def InDirective (line : List Token) : Prop := ∃ hash ∈ line.head?, hash.kind = .directiveHash

/-- The line consists of the mark of a directive and the keyword `include`. -/
def AtHeader (tokens : List Token) : Prop :=
  ∃ hash keyword, lineOf tokens = [hash, keyword] ∧ hash.kind = .directiveHash ∧
    keyword.kind = .identifier ∧ keyword.text = "include"

/-- The last token, newlines aside, is an asm keyword outside a directive. -/
def BehindAsm (tokens : List Token) : Prop :=
  ∃ front last, tokens.rdropWhile (·.kind = .newline) = front ++ [last] ∧ last.IsAsm ∧
    ¬InDirective (lineOf (front ++ [last]))

variable {tokens : List Token} {token : Token} {context : Context} {directives : Bool}

theorem lineOf_newline (tokens : List Token) (hk : token.kind = .newline) :
    lineOf (tokens ++ [token]) = [] :=
  List.rtakeWhile_concat_neg _ _ _ (by simp [hk])

theorem lineOf_concat (tokens : List Token) (hk : token.kind ≠ .newline) :
    lineOf (tokens ++ [token]) = lineOf tokens ++ [token] :=
  List.rtakeWhile_concat_pos _ _ _ (by simp [hk])

theorem behindAsm_newline (hk : token.kind = .newline) :
    BehindAsm (tokens ++ [token]) ↔ BehindAsm tokens := by
  unfold BehindAsm
  rw [List.rdropWhile_concat_pos _ _ _ (by simp [hk])]

theorem behindAsm_concat (hk : token.kind ≠ .newline) :
    BehindAsm (tokens ++ [token]) ↔ token.IsAsm ∧ ¬InDirective (lineOf tokens ++ [token]) := by
  unfold BehindAsm
  rw [List.rdropWhile_concat_neg _ _ _ (by simp [hk]), ← lineOf_concat tokens hk]
  constructor
  · rintro ⟨front, last, he, hasm, hline⟩
    obtain ⟨rfl, hlast⟩ := List.append_inj' he rfl
    obtain rfl := List.singleton_inj.1 hlast
    exact ⟨hasm, hline⟩
  · rintro ⟨hasm, hline⟩
    exact ⟨tokens, token, rfl, hasm, hline⟩

theorem not_behindAsm_of_inDirective (h : InDirective (lineOf tokens)) : ¬BehindAsm tokens := by
  rcases List.eq_nil_or_concat tokens with rfl | ⟨front, last, rfl⟩
  · obtain ⟨hash, hm, -⟩ := h
    contradiction
  · rw [List.concat_eq_append] at h ⊢
    by_cases hk : last.kind = .newline
    · rw [lineOf_newline front hk] at h
      obtain ⟨hash, hm, -⟩ := h
      contradiction
    · rw [lineOf_concat front hk] at h
      rw [behindAsm_concat hk]
      exact fun hasm => hasm.2 h

theorem AtHeader.inDirective (h : AtHeader tokens) : InDirective (lineOf tokens) := by
  obtain ⟨hash, keyword, hl, hk, -⟩ := h
  exact ⟨hash, by simp [hl], hk⟩

/-- The tokens that stand in front of a place. -/
def Stands (tokens : List Token) : Context → Prop
  | .lineStart afterAsm => lineOf tokens = [] ∧ (afterAsm ↔ BehindAsm tokens)
  | .text afterAsm =>
    lineOf tokens ≠ [] ∧ ¬InDirective (lineOf tokens) ∧ (afterAsm ↔ BehindAsm tokens)
  | .keyword => ∃ hash, lineOf tokens = [hash] ∧ hash.kind = .directiveHash
  | .header => AtHeader tokens
  | .operands => InDirective (lineOf tokens) ∧ 2 ≤ (lineOf tokens).length ∧ ¬AtHeader tokens

theorem stands_nil : Stands [] (.lineStart false) := by
  refine ⟨rfl, iff_of_false nofun ?_⟩
  rintro ⟨front, last, he, -⟩
  rw [List.rdropWhile_nil] at he
  simp at he

/-- A header name is read where one is expected. -/
theorem Stands.header_iff (h : Stands tokens context) : context = .header ↔ AtHeader tokens := by
  cases context with
  | header => exact iff_of_true rfl h
  | lineStart afterAsm =>
    refine iff_of_false nofun fun ha => ?_
    obtain ⟨hash, hm, -⟩ := ha.inDirective
    rw [h.1] at hm
    contradiction
  | text afterAsm => exact iff_of_false nofun fun ha => h.2.1 ha.inDirective
  | keyword =>
    obtain ⟨hash, hl, -⟩ := h
    refine iff_of_false nofun ?_
    rintro ⟨_, _, hline, -⟩
    rw [hl] at hline
    simp at hline
  | operands => exact iff_of_false nofun h.2.2

/-- A block is read where a brace may open one. -/
theorem Stands.afterAsm_iff (h : Stands tokens context) : context.afterAsm ↔ BehindAsm tokens := by
  cases context with
  | lineStart afterAsm => exact h.2
  | text afterAsm => exact h.2.2
  | keyword =>
    obtain ⟨hash, hl, hk⟩ := h
    refine iff_of_false nofun (not_behindAsm_of_inDirective ⟨hash, ?_, hk⟩)
    simp [hl]
  | header => exact iff_of_false nofun (not_behindAsm_of_inDirective h.inDirective)
  | operands => exact iff_of_false nofun (not_behindAsm_of_inDirective h.1)

theorem InDirective.ne_nil {line : List Token} (h : InDirective line) : line ≠ [] := by
  obtain ⟨hash, hm, -⟩ := h
  exact List.ne_nil_of_mem (List.mem_of_head? hm)

/-- A line has begun where tokens stand on it. -/
theorem Stands.midLine_iff (h : Stands tokens context) : context.midLine ↔ lineOf tokens ≠ [] := by
  cases context with
  | lineStart afterAsm => exact iff_of_false nofun (not_not_intro h.1)
  | text afterAsm => exact iff_of_true rfl h.1
  | keyword =>
    obtain ⟨hash, hl, -⟩ := h
    exact iff_of_true rfl (by simp [hl])
  | header => exact iff_of_true rfl h.inDirective.ne_nil
  | operands => exact iff_of_true rfl h.1.ne_nil

theorem inDirective_concat {line : List Token} (hl : line ≠ []) (token : Token) :
    InDirective (line ++ [token]) ↔ InDirective line := by
  obtain ⟨first, rest, rfl⟩ := List.exists_cons_of_ne_nil hl
  exact Iff.rfl

theorem isAsm_iff : (decide (token.kind = .identifier) &&
    asmKeywords.contains (String.ofList token.text.toList)) ↔ token.IsAsm := by
  rw [Bool.and_eq_true, decide_eq_true_eq, List.contains_iff_mem, String.ofList_toList]
  rfl

/-- Behind the keyword and one more token of a directive there are operands. -/
theorem stands_operands (hd : InDirective (lineOf tokens)) (hl : 2 ≤ (lineOf tokens).length)
    (hn : token.kind ≠ .newline) : Stands (tokens ++ [token]) .operands := by
  have hne : lineOf tokens ≠ [] := List.ne_nil_of_length_pos (by omega)
  have hline := lineOf_concat tokens hn
  refine ⟨?_, by rw [hline, List.length_append]; omega, ?_⟩
  · rw [hline]
    exact (inDirective_concat hne token).2 hd
  · rintro ⟨hash, keyword, he, -⟩
    rw [hline] at he
    have hlength := congrArg List.length he
    simp only [List.length_append, List.length_cons, List.length_nil] at hlength
    omega

/-- A token that its place admits leads to the next place. -/
theorem Stands.next (h : Stands tokens context)
    (ha : Admits directives context token.kind token.text.toList) :
    Stands (tokens ++ [token]) (context.next token.kind token.text.toList) := by
  by_cases hn : token.kind = .newline
  · rw [hn]
    exact ⟨lineOf_newline tokens hn, h.afterAsm_iff.trans (behindAsm_newline hn).symm⟩
  by_cases hh : token.kind = .directiveHash
  · -- The mark of a directive begins a line.
    rw [hh]
    cases context with
    | lineStart afterAsm => exact ⟨token, by simp [lineOf_concat tokens hn, h.1], hh⟩
    | _ => exact absurd (ha.hash hh).2 nofun
  rw [next_of_inner context hn hh]
  cases context with
  | lineStart afterAsm =>
    have hdirective : ¬InDirective [token] := by
      rintro ⟨hash, hm, hk⟩
      obtain rfl := Option.some.inj hm
      exact hh hk
    have hline : lineOf (tokens ++ [token]) = [token] := by
      rw [lineOf_concat tokens hn, h.1, List.nil_append]
    refine ⟨by simp [hline], by rwa [hline], isAsm_iff.trans ?_⟩
    rw [behindAsm_concat hn, h.1, List.nil_append, and_iff_left hdirective]
  | text afterAsm =>
    obtain ⟨hne, hline, -⟩ := h
    have hdirective := (inDirective_concat hne token).not.2 hline
    rw [← lineOf_concat tokens hn] at hdirective
    refine ⟨by simp [lineOf_concat tokens hn], hdirective, isAsm_iff.trans ?_⟩
    rw [behindAsm_concat hn, ← lineOf_concat tokens hn, and_iff_left hdirective]
  | keyword =>
    obtain ⟨hash, hl, hk⟩ := h
    have hline : lineOf (tokens ++ [token]) = [hash, token] := by
      rw [lineOf_concat tokens hn, hl]
      rfl
    dsimp only
    rw [String.ofList_toList]
    split
    · next hi => exact ⟨hash, token, hline, hk, by simpa using hi⟩
    · next hi =>
      refine ⟨⟨hash, by simp [hline], hk⟩, by simp [hline], ?_⟩
      rintro ⟨_, keyword, hsame, -, hinclude⟩
      rw [hline] at hsame
      simp only [List.cons.injEq, and_true] at hsame
      obtain ⟨-, rfl⟩ := hsame
      exact hi (by simpa using hinclude)
  | header =>
    have hdirective := h.inDirective
    obtain ⟨hash, keyword, hl, -⟩ := h
    exact stands_operands hdirective (by simp [hl]) hn
  | operands => exact stands_operands h.1 h.2.1 hn

namespace Lexed

/-! ## One token -/

variable {file : String} {finish : Nat × Nat} {chars behind : List Located}
  {lexemes left right : List Lexeme} {ending : Ending}

theorem spelling_append (left right : List Located) :
    spelling (left ++ right) = spelling left ++ spelling right := List.map_append

/-- The token at the front of a text, the part that it covers, and what is left of the text. -/
structure First (file : String) (directives : Bool) (context : Context) (chars : List Located) where
  piece : Piece
  token : Token
  rest : List Located
  chars_eq : chars = piece.whole ++ rest
  covers : Covers file piece token
  admits : Admits directives context token.kind token.text.toList
  /-- The token is read where its part begins. -/
  read : ∃ c more, spelling (piece.text ++ rest) = c :: more ∧
    Lexeme.read directives context c more =
      .lexeme token.kind ⟨token.text.toList, spelling rest⟩

/-- The first lexeme of a text gives its first token. -/
theorem exists_first (file : String) (finish : Nat × Nat) {lexeme : Lexeme}
    (hd : divide directives context (spelling chars) = ⟨lexeme :: lexemes, ending⟩) :
    ∃ first : First file directives context chars,
      divide directives (context.next first.token.kind first.token.text.toList)
        (spelling first.rest) = ⟨lexemes, ending⟩ ∧
      locate file finish ending chars (lexeme :: lexemes) =
        ⟨first.token :: (locate file finish ending first.rest lexemes).tokens,
          (locate file finish ending first.rest lexemes).issue⟩ := by
  obtain ⟨gap, kind, text⟩ := lexeme
  obtain ⟨c, rest, cut, hs, hr, ht, hmore⟩ := divide_eq_cons hd
  dsimp only at hs hr ht hmore
  subst ht
  have hw := whole_skip (spelling chars)
  rw [hs, Gap.whole] at hw
  have hc := covers_read directives context c rest
  rw [hr] at hc
  obtain ⟨hc, hne⟩ := hc
  obtain ⟨before, after, rfl, rfl, hafter⟩ := exists_of_spelling_append hw.symm
  obtain ⟨inner, more, rfl, hi, hrest⟩ := exists_of_spelling_append (hafter.trans hc.symm)
  obtain ⟨head, others, rfl⟩ : ∃ head others, inner = head :: others :=
    List.exists_cons_of_ne_nil fun he => hne (by rw [← hi, he]; rfl)
  have hskipped : Skipped (spelling before) (spelling (head :: others)) := by
    refine (skipped_of_skip hs).congr ?_
    rw [← hafter]
    rfl
  let piece : Piece := ⟨before, head :: others⟩
  let token : Token :=
    { kind
      text := String.ofList (spelling (head :: others))
      position := head.position file
      space := !before.isEmpty }
  have htext : token.text.toList = spelling (head :: others) := String.toList_ofList
  have hread : Lexeme.read directives context c rest =
      .lexeme token.kind ⟨token.text.toList, spelling more⟩ := by
    rw [hr, htext, hi, hrest]
  let first : First file directives context (before ++ (head :: others ++ more)) :=
    { piece, token
      rest := more
      chars_eq := (List.append_assoc before (head :: others) more).symm
      covers := ⟨htext, hskipped, rfl, ⟨head, rfl, rfl⟩, (admits_read hr).inner⟩
      admits := admits_read hread
      read := ⟨c, rest, hafter, hread⟩ }
  refine ⟨first, ?_, ?_⟩
  · rw [show first.token.text.toList = cut.text from htext.trans hi]
    rwa [← hrest] at hmore
  · rw [← hi, locate_cons]
    rfl

/-! ## What is left behind tokens -/

/-- What is left of a text behind tokens, each of which covers its part, and behind what is skipped
after them. -/
def Reached (file : String) (chars : List Located) (tokens : List Token) (rest : List Located) :
    Prop :=
  ∃ pieces gap, chars = pieces.flatMap Piece.whole ++ (gap ++ rest) ∧
    List.Forall₂ (Covers file) pieces tokens ∧ Skipped (spelling gap) (spelling rest)

theorem Reached.inner {rest : List Located} (h : Reached file chars tokens rest) :
    ∀ token ∈ tokens, token.kind ≠ .endOfFile := by
  obtain ⟨pieces, gap, -, hp, -⟩ := h
  exact inner_of_covers hp

/-- The lexemes in front of others give tokens in front of a place where the others are read. -/
theorem exists_place (file : String) (finish : Nat × Nat) {done : List Token}
    (hd : divide directives context (spelling chars) = ⟨left ++ right, ending⟩)
    (hs : Stands done context) :
    ∃ pieces tokens place rest, chars = pieces.flatMap Piece.whole ++ rest ∧
      List.Forall₂ (Covers file) pieces tokens ∧ tokens.length = left.length ∧
      Stands (done ++ tokens) place ∧
      divide directives place (spelling rest) = ⟨right, ending⟩ ∧
      locate file finish ending chars (left ++ right) =
        ⟨tokens ++ (locate file finish ending rest right).tokens,
          (locate file finish ending rest right).issue⟩ := by
  induction left generalizing context chars done with
  | nil => exact ⟨[], [], context, chars, rfl, .nil, rfl, by rwa [List.append_nil], hd, rfl⟩
  | cons lexeme left ih =>
    rw [List.cons_append] at hd
    obtain ⟨first, hmore, hlocate⟩ := exists_first file finish hd
    obtain ⟨pieces, tokens, place, rest, hc, hp, hl, hstands, hdivide, hrest⟩ :=
      ih hmore (hs.next first.admits)
    refine ⟨first.piece :: pieces, first.token :: tokens, place, rest, ?_, .cons first.covers hp,
      congrArg Nat.succ hl, ?_, hdivide, ?_⟩
    · rw [List.flatMap_cons, List.append_assoc, ← hc]
      exact first.chars_eq
    · rwa [List.append_cons]
    · rw [List.cons_append, hlocate, hrest]
      rfl

/-- A token that is no newline and not the end of the file is the token of a lexeme. -/
theorem exists_split_of_inner {front more : List Token}
    (hl : (locate file finish ending chars lexemes).tokens = front ++ token :: more)
    (hn : token.kind ≠ .newline) (he : token.kind ≠ .endOfFile) :
    ∃ left lexeme right, lexemes = left ++ lexeme :: right ∧ left.length = front.length := by
  induction lexemes generalizing front chars with
  | nil =>
    exfalso
    have hm : token ∈ (locate file finish ending chars []).tokens := by simp [hl]
    unfold locate at hm
    cases ending with
    | unclosed opener before rest => contradiction
    | complete gap midLine =>
      rcases List.mem_append.1 hm with hm | hm
      · split at hm
        · exact hn (congrArg Token.kind (List.mem_singleton.1 hm))
        · contradiction
      · exact he (congrArg Token.kind (List.mem_singleton.1 hm))
  | cons lexeme lexemes ih =>
    cases front with
    | nil => exact ⟨[], lexeme, lexemes, rfl, rfl⟩
    | cons first front =>
      obtain ⟨left, next, right, rfl, hlength⟩ := ih (List.cons.inj hl).2
      exact ⟨lexeme :: left, next, right, rfl, congrArg Nat.succ hlength⟩

/-- Such a token is the first one of what is left behind the tokens in front of it. -/
theorem exists_first_of_inner {front more : List Token} {division : Division}
    (hd : divide directives (.lineStart false) (spelling chars) = division)
    (hl : (locate file finish division.ending chars division.lexemes).tokens =
      front ++ token :: more)
    (hn : token.kind ≠ .newline) (he : token.kind ≠ .endOfFile) :
    ∃ place rest, ∃ first : First file directives place rest, Stands front place ∧
      first.token = token ∧ Reached file chars front (first.piece.text ++ first.rest) := by
  obtain ⟨lexemes, ending⟩ := division
  obtain ⟨left, lexeme, right, rfl, hlength⟩ := exists_split_of_inner hl hn he
  obtain ⟨pieces, tokens, place, rest, hc, hp, hsame, hs, hdivide, hlocate⟩ :=
    exists_place file finish hd stands_nil
  obtain ⟨first, -, hfirst⟩ := exists_first file finish hdivide
  rw [hlocate, hfirst] at hl
  obtain ⟨rfl, hcons⟩ := List.append_inj hl (hsame.trans hlength)
  refine ⟨place, rest, first, hs, (List.cons.inj hcons).1, pieces, first.piece.gap, ?_, hp, ?_⟩
  · exact hc.trans (congrArg _ (first.chars_eq.trans (List.append_assoc _ _ _)))
  · obtain ⟨head, hm, -⟩ := first.covers.position
    obtain ⟨others, ht⟩ := List.head?_eq_some_iff.1 hm
    refine first.covers.skipped.congr ?_
    rw [ht]
    rfl

/-! ## What is reached is a place -/

/-- The part of a token is determined by its place, if no two characters stand at the same one. -/
theorem piece_unique {piece other : Piece} {rest more : List Located}
    (hu : (chars.map (Located.position file)).Nodup) (hc : chars = piece.whole ++ rest)
    (ho : chars = other.whole ++ more) (hp : Covers file piece token)
    (hq : Covers file other token) : piece = other ∧ rest = more := by
  obtain ⟨first, hf, hpos⟩ := hp.position
  obtain ⟨same, hs, hsame⟩ := hq.position
  obtain ⟨gap, text⟩ := piece
  obtain ⟨before, inner⟩ := other
  obtain ⟨text, rfl⟩ := List.head?_eq_some_iff.1 hf
  obtain ⟨inner, rfl⟩ := List.head?_eq_some_iff.1 hs
  have hsplit : chars = gap ++ first :: (text ++ rest) := by rw [hc]; simp [Piece.whole]
  have hother : chars = before ++ same :: (inner ++ more) := by rw [ho]; simp [Piece.whole]
  have hmap := congrArg (List.map (Located.position file)) (hsplit.symm.trans hother)
  rw [List.map_append, List.map_append, List.map_cons, List.map_cons, ← hpos, ← hsame] at hmap
  rw [hsplit, List.map_append, List.map_cons, ← hpos, List.nodup_middle, List.nodup_cons,
    List.mem_append, not_or] at hu
  have hgap := ((List.append_cons_inj_of_notMem hu.1.1 hu.1.2).1 hmap).1
  have hlength : gap.length = before.length := by simpa using congrArg List.length hgap
  obtain ⟨rfl, hcons⟩ := List.append_inj (hsplit.symm.trans hother) hlength
  obtain ⟨rfl, hrest⟩ := List.cons.inj hcons
  have htext : text.length = inner.length := by
    simpa [spelling] using congrArg List.length (hp.text.symm.trans hq.text)
  obtain ⟨rfl, rfl⟩ := List.append_inj hrest htext
  exact ⟨rfl, rfl⟩

/-- Where nothing but blanks and comments is left there is no more token. -/
theorem not_covers_of_skip {piece : Piece} {gap : List Char}
    (hs : skip (spelling (piece.whole ++ behind)) = .skipped gap [])
    (hp : Covers file piece token) (ht : token.text = "\n") : False := by
  have htext : spelling piece.text = ['\n'] := by rw [← hp.text, ht]; rfl
  have hspelling : spelling (piece.whole ++ behind) =
      spelling piece.gap ++ '\n' :: spelling behind := by
    rw [Piece.whole, List.append_assoc, spelling_append, spelling_append, htext]
    rfl
  have hskipped : Skipped (spelling piece.gap) ('\n' :: spelling behind) :=
    hp.skipped.congr (by rw [htext]; rfl)
  have hline : ∀ c ∈ ('\n' :: spelling behind).head?, c = '\n' :=
    fun _ hm => (Option.some.inj hm).symm
  rw [hspelling, skip_of_skipped hskipped, skip_lineEnd hline] at hs
  cases (Gap.skipped.inj hs).2

/-- The first token of a text that has one is the token of a lexeme. -/
theorem exists_lexeme {piece : Piece} {more : List Token} {division : Division}
    (hc : chars = piece.whole ++ behind) (hp : Covers file piece token)
    (hd : divide directives context (spelling chars) = division)
    (hl : (locate file finish division.ending chars division.lexemes).tokens = token :: more) :
    ∃ lexeme lexemes ending, division = ⟨lexeme :: lexemes, ending⟩ := by
  obtain ⟨lexemes, ending⟩ := division
  cases lexemes with
  | cons lexeme lexemes => exact ⟨lexeme, lexemes, ending, rfl⟩
  | nil =>
    exfalso
    cases ending with
    | unclosed opener before rest => contradiction
    | complete gap midLine =>
      obtain ⟨_, hs, -⟩ := eq_of_divide_nil hd trivial
      rw [hc] at hs
      simp only [locate] at hl
      split at hl
      · obtain ⟨rfl, -⟩ := List.cons.inj hl
        exact not_covers_of_skip hs hp rfl
      · obtain ⟨rfl, -⟩ := List.cons.inj hl
        exact hp.inner rfl

/-- What is reached behind tokens is the place where the others are read. -/
theorem place_of_reached {pieces : List Piece} {done more : List Token} {division : Division}
    (hu : (chars.map (Located.position file)).Nodup)
    (hc : chars = pieces.flatMap Piece.whole ++ behind)
    (hp : List.Forall₂ (Covers file) pieces tokens)
    (hd : divide directives context (spelling chars) = division)
    (hl : (locate file finish division.ending chars division.lexemes).tokens = tokens ++ more)
    (hs : Stands done context) :
    ∃ place other, Stands (done ++ tokens) place ∧
      divide directives place (spelling behind) = other ∧
      (locate file finish other.ending behind other.lexemes).tokens = more ∧
      (locate file finish other.ending behind other.lexemes).issue =
        (locate file finish division.ending chars division.lexemes).issue := by
  induction hp generalizing context chars done division with
  | nil =>
    obtain rfl : chars = behind := hc
    exact ⟨context, division, by rwa [List.append_nil], hd, hl, rfl⟩
  | @cons piece token pieces tokens hfirst _ ih =>
    rw [List.flatMap_cons, List.append_assoc] at hc
    obtain ⟨lexeme, lexemes, ending, rfl⟩ := exists_lexeme hc hfirst hd hl
    obtain ⟨first, hmore, hlocate⟩ := exists_first file finish hd
    dsimp only at hl ⊢
    rw [hlocate] at hl ⊢
    obtain ⟨rfl, hrest⟩ := List.cons.inj hl
    obtain ⟨-, hbehind⟩ := piece_unique hu first.chars_eq hc first.covers hfirst
    have hnodup : (first.rest.map (Located.position file)).Nodup := by
      rw [first.chars_eq, List.map_append] at hu
      exact hu.of_append_right
    obtain ⟨place, other, hstands, hplace⟩ := ih hnodup hbehind hmore hrest (hs.next first.admits)
    rw [List.append_assoc] at hstands
    exact ⟨place, other, hstands, hplace⟩

end Lexed

end CPreprocessor

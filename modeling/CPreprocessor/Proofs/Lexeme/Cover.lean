import CPreprocessor.Proofs.Source.Phases
import CPreprocessor.Proofs.Token.Shape
import Mathlib.Data.List.Forall2
import Mathlib.Data.List.TakeWhile

/-!
# Nothing is lost

The logical text of a file is what was skipped before its tokens and the tokens themselves, in
order.

* `Skipped`: blanks and comments, as they may stand before a text. `skipped_of_skip`: `skip` passes
  over nothing else.
* `increasing_splice`: places increase along the logical text.
* `Account`: the parts of a text, each token with the part that it covers.
* `account_lex`: whatever is read to its end can be accounted for.
-/

namespace CPreprocessor

open Source

namespace Lexeme

/-! ## Blanks and comments -/

/-- What may be passed over before `rest`. A line comment goes to the end of its line, a block
comment to the first `*/` in it. -/
inductive Skipped : (gap rest : List Char) → Prop where
  | nil (rest : List Char) : Skipped [] rest
  | blank {c : Char} {gap rest : List Char} (hc : isBlank c) (h : Skipped gap rest) :
      Skipped (c :: gap) rest
  | line {text rest : List Char} (ht : '\n' ∉ text) (hr : ∀ c ∈ rest.head?, c = '\n') :
      Skipped ('/' :: '/' :: text) rest
  | block {text gap rest : List Char} (ht : ¬['*', '/'] <:+: text ++ ['*'])
      (h : Skipped gap rest) : Skipped ('/' :: '*' :: (text ++ '*' :: '/' :: gap)) rest

/-- Only the character behind what is skipped matters to it. -/
theorem Skipped.congr {gap rest other : List Char} (h : Skipped gap rest)
    (hh : other.head? = rest.head?) : Skipped gap other := by
  induction h with
  | nil => exact .nil other
  | blank hc _ ih => exact .blank hc (ih hh)
  | line ht hr => exact .line ht (hh ▸ hr)
  | block ht _ ih => exact .block ht (ih hh)

/-- A comment is closed where `*/` stands first. -/
theorem text_closeComment? {chars : List Char} {cut : Cut} (h : closeComment? chars = some cut) :
    ∃ text, cut.text = text ++ ['*', '/'] ∧ ¬['*', '/'] <:+: text ++ ['*'] := by
  fun_induction closeComment? chars generalizing cut with
  | case1 => contradiction
  | case2 rest =>
    obtain rfl := Option.some.inj h
    exact ⟨[], rfl, by decide⟩
  | case3 c rest hn ih =>
    obtain ⟨inner, found, rfl⟩ := Option.map_eq_some_iff.1 h
    obtain ⟨text, ht, hi⟩ := ih found
    refine ⟨c :: text, by simp [ht], ?_⟩
    rw [List.cons_append, List.infix_cons_iff, not_or]
    refine ⟨fun hp => ?_, hi⟩
    -- A mark that begins with `c` would have been seen before.
    obtain ⟨rfl, hp⟩ := List.cons_prefix_cons.1 hp
    have hrest := whole_closeComment? found
    rw [Cut.whole, ht] at hrest
    cases text with
    | nil => exact absurd hp (by decide)
    | cons d text =>
      obtain ⟨rfl, -⟩ := List.cons_prefix_cons.1 (List.cons_prefix_cons.1 hp).2
      exact hn _ rfl hrest.symm

theorem eq_of_prepend {text gap rest : List Char} {inner : Gap}
    (h : inner.prepend text = .skipped gap rest) :
    ∃ more, inner = .skipped more rest ∧ gap = text ++ more := by
  cases inner with
  | skipped more behind =>
    obtain ⟨rfl, rfl⟩ := Gap.skipped.inj h
    exact ⟨more, rfl, rfl⟩
  | unclosed => contradiction

/-- Nothing is passed over before a character that begins no blank and no comment. -/
theorem skip_of_cons {c : Char} {rest : List Char} (hb : isBlank c = false) (hs : c ≠ '/') :
    skip (c :: rest) = .skipped [] (c :: rest) := by
  rw [skip]
  · rw [if_neg (by simp [hb])]
  · rintro _ rfl
    contradiction
  · rintro _ rfl
    contradiction

/-- Nothing is passed over at the end of a line. -/
theorem skip_lineEnd {chars : List Char} (h : ∀ c ∈ chars.head?, c = '\n') :
    skip chars = .skipped [] chars := by
  cases chars with
  | nil => rw [skip]
  | cons c rest =>
    obtain rfl := h c rfl
    exact skip_of_cons (by decide) (by decide)

/-- Behind the rest of a line a line ends. -/
theorem lineEnd_takeWhile (chars : List Char) :
    ∀ c ∈ (Cut.takeWhile (· ≠ '\n') chars).rest.head?, c = '\n' := by
  intro c hc
  have hd := List.head?_dropWhile_not (· ≠ '\n') chars
  rw [show (chars.dropWhile (· ≠ '\n')).head? = some c from hc] at hd
  simpa using hd

theorem skipped_of_skip {chars gap rest : List Char} (h : skip chars = .skipped gap rest) :
    Skipped gap rest := by
  fun_induction skip chars generalizing gap with
  | case1 =>
    obtain ⟨rfl, rfl⟩ := Gap.skipped.inj h
    exact .nil []
  | case2 behind line =>
    obtain ⟨more, hs, rfl⟩ := eq_of_prepend h
    rw [skip_lineEnd (lineEnd_takeWhile behind)] at hs
    obtain ⟨rfl, rfl⟩ := Gap.skipped.inj hs
    rw [List.append_nil]
    refine .line (fun hm => ?_) (lineEnd_takeWhile behind)
    exact absurd (List.mem_takeWhile_imp hm) (by decide)
  | case3 behind cut closed ih =>
    obtain ⟨more, hs, rfl⟩ := eq_of_prepend h
    obtain ⟨text, ht, hi⟩ := text_closeComment? closed
    rw [ht]
    simpa using Skipped.block hi (ih hs)
  | case4 => contradiction
  | case5 c behind _ _ hc ih =>
    obtain ⟨more, hs, rfl⟩ := eq_of_prepend h
    exact .blank hc (ih hs)
  | case6 =>
    obtain ⟨rfl, rfl⟩ := Gap.skipped.inj h
    exact .nil _

end Lexeme

/-! ## Places along the text -/

namespace Position

/-- The place stands before the other one in the same file. -/
def Before (place other : Position) : Prop :=
  place.line < other.line ∨ place.line = other.line ∧ place.column < other.column

end Position

namespace Source

/-- The place of a logical character. -/
def Located.position (file : String) (c : Located) : Position := ⟨file, c.line, c.column⟩

theorem width_symbol_pos (trigraphs : Bool) (c : Char) (rest : List Char) :
    0 < (symbol trigraphs c rest).width := by
  rcases symbol_cases trigraphs c rest with ⟨_, _, _, -, -, -, -, h⟩ | ⟨h, -⟩
  all_goals
    rw [h]
    exact Nat.succ_pos _

/-- Logical characters stand no earlier than where the text begins. -/
theorem from_of_mem_spliceFrom (trigraphs : Bool) (line column : Nat) (text : List Char) :
    ∀ c ∈ spliceFrom trigraphs line column text,
      line < c.line ∨ line = c.line ∧ column ≤ c.column := by
  induction text using splice_induction trigraphs generalizing line column with
  | nil => simp [spliceFrom_nil]
  | terminator mark rest ht ih =>
    rw [spliceFrom_terminator trigraphs line column ht]
    refine List.forall_mem_cons.2 ⟨.inr ⟨rfl, Nat.le_refl _⟩, fun c hc => .inl ?_⟩
    have := ih (line + 1) 1 c hc
    omega
  | joined c cs rest hc hb hr ih =>
    rw [spliceFrom_joined trigraphs line column hc hb hr]
    intro d hd
    have := ih (line + 1) 1 d hd
    omega
  | inner c cs hc hn ih =>
    rw [spliceFrom_inner trigraphs line column hc hn]
    refine List.forall_mem_cons.2 ⟨.inr ⟨rfl, Nat.le_refl _⟩, fun d hd => ?_⟩
    have := ih line _ d hd
    omega

/-- Places increase along the logical text. -/
theorem increasing_spliceFrom (trigraphs : Bool) (file : String) (line column : Nat)
    (text : List Char) : ((spliceFrom trigraphs line column text).map
      (Located.position file)).Pairwise Position.Before := by
  rw [List.pairwise_map]
  induction text using splice_induction trigraphs generalizing line column with
  | nil => simp [spliceFrom_nil]
  | terminator mark rest ht ih =>
    rw [spliceFrom_terminator trigraphs line column ht]
    refine List.pairwise_cons.2 ⟨fun c hc => .inl ?_, ih _ _⟩
    have := from_of_mem_spliceFrom trigraphs (line + 1) 1 rest c hc
    dsimp only [Located.position]
    omega
  | joined c cs rest hc hb hr ih =>
    rw [spliceFrom_joined trigraphs line column hc hb hr]
    exact ih _ _
  | inner c cs hc hn ih =>
    rw [spliceFrom_inner trigraphs line column hc hn]
    refine List.pairwise_cons.2 ⟨fun d hd => ?_, ih _ _⟩
    have hw := width_symbol_pos trigraphs c cs
    have := from_of_mem_spliceFrom trigraphs _ _ _ d hd
    dsimp only [Located.position, Position.Before]
    omega

end Source

/-! ## The parts of a text -/

namespace Lexed

open Lexeme

/-- The characters without their places. -/
def spelling (chars : List Located) : List Char := chars.map Located.char

/-- A part of the logical text: what was skipped, and the text of a token. -/
structure Piece where
  gap : List Located
  text : List Located

/-- The whole part. -/
def Piece.whole (piece : Piece) : List Located := piece.gap ++ piece.text

/-- A token is what its part of the text says, and stands where its first character does. -/
structure Covers (file : String) (piece : Piece) (token : Token) : Prop where
  text : token.text.toList = spelling piece.text
  skipped : Skipped (spelling piece.gap) (spelling piece.text)
  space : token.space = !piece.gap.isEmpty
  position : ∃ first ∈ piece.text.head?, token.position = first.position file
  inner : token.kind ≠ .endOfFile

theorem inner_of_covers {file : String} {pieces : List Piece} {tokens : List Token}
    (h : List.Forall₂ (Covers file) pieces tokens) : ∀ token ∈ tokens, token.kind ≠ .endOfFile := by
  induction h with
  | nil => exact List.forall_mem_nil _
  | cons hc _ ih => exact List.forall_mem_cons.2 ⟨hc.inner, ih⟩

/-- The newline that ends a file whose last line has no other. -/
def closing (stop : Position) (midLine : Bool) : List Token :=
  if midLine then [{ kind := .newline, text := "\n", position := stop }] else []

theorem kind_of_mem_closing {stop : Position} {midLine : Bool} {token : Token}
    (h : token ∈ closing stop midLine) : token.kind = .newline := by
  unfold closing at h
  split at h
  · rw [List.mem_singleton.1 h]
  · contradiction

/-- Whether the line has begun behind the tokens, the line before them having begun or not. -/
def midLineBehind (midLine : Bool) (tokens : List Token) : Bool :=
  tokens.getLast?.elim midLine (·.kind ≠ .newline)

theorem midLineBehind_cons (midLine : Bool) (token : Token) (tokens : List Token) :
    midLineBehind midLine (token :: tokens) = midLineBehind (token.kind ≠ .newline) tokens := by
  unfold midLineBehind
  rw [List.getLast?_cons]
  cases tokens.getLast? <;> rfl

/-- A text accounted for: the tokens that its parts are, and what stands behind them. -/
structure Account (file : String) (midLine : Bool) (chars : List Located)
    (tokens : List Token) where
  pieces : List Piece
  tail : List Located
  chars_eq : chars = pieces.flatMap Piece.whole ++ tail
  skipped_tail : Skipped (spelling tail) []
  real : List Token
  stop : Position
  covers : List.Forall₂ (Covers file) pieces real
  tokens_eq : tokens = real ++ closing stop (midLineBehind midLine real) ++
    [.endOfFile stop !tail.isEmpty]

/-- One more part in front. -/
def Account.cons {file : String} {midLine : Bool} {chars : List Located} {tokens : List Token}
    {piece : Piece} {token : Token} (account : Account file (token.kind ≠ .newline) chars tokens)
    (h : Covers file piece token) :
    Account file midLine (piece.whole ++ chars) (token :: tokens) where
  pieces := piece :: account.pieces
  tail := account.tail
  chars_eq := by rw [List.flatMap_cons, List.append_assoc, ← account.chars_eq]
  skipped_tail := account.skipped_tail
  real := token :: account.real
  stop := account.stop
  covers := .cons h account.covers
  tokens_eq := by
    rw [midLineBehind_cons]
    exact congrArg (List.cons token) account.tokens_eq

/-- Located characters are cut where their spelling is. -/
theorem exists_of_spelling_append {chars : List Located} {left right : List Char}
    (h : spelling chars = left ++ right) :
    ∃ before behind, chars = before ++ behind ∧ spelling before = left ∧
      spelling behind = right := List.map_eq_append_iff.1 h

theorem isEmpty_spelling (chars : List Located) : (spelling chars).isEmpty = chars.isEmpty := by
  cases chars <;> rfl

theorem length_spelling (chars : List Located) : (spelling chars).length = chars.length :=
  List.length_map _

theorem midLine_next (context : Context) (kind : Token.Kind) (text : List Char) :
    (context.next kind text).midLine = decide (kind ≠ .newline) := by
  cases kind <;> cases context <;> first | rfl | (simp only [Context.next]; split <;> rfl)

/-- The token of a lexeme, at the front of the text that it was read from. -/
theorem locate_cons (file : String) (finish : Nat × Nat) (ending : Ending)
    (before inner more : List Located) (kind : Token.Kind) (lexemes : List Lexeme) :
    locate file finish ending (before ++ (inner ++ more))
        (⟨spelling before, kind, spelling inner⟩ :: lexemes) =
      ⟨{ kind
         text := String.ofList (spelling inner)
         position := positionOf file finish (inner ++ more)
         space := !before.isEmpty } :: (locate file finish ending more lexemes).tokens,
        (locate file finish ending more lexemes).issue⟩ := by
  rw [locate]
  simp only [length_spelling, List.drop_left, isEmpty_spelling]

/-- What is read to its end can be accounted for, from any place on. -/
theorem account_locate {file : String} {finish : Nat × Nat} {directives : Bool} {context : Context}
    {chars : List Located} {division : Division}
    (hd : divide directives context (spelling chars) = division)
    (h : (locate file finish division.ending chars division.lexemes).issue = none) :
    Nonempty (Account file context.midLine chars
      (locate file finish division.ending chars division.lexemes).tokens) := by
  generalize hs : spelling chars = text at hd
  fun_induction divide directives context text generalizing chars division with
  | case1 | case3 =>
    subst hd
    contradiction
  | case2 context text gap hskip =>
    subst hd
    have hw := whole_skip text
    rw [hskip, Gap.whole, List.append_nil] at hw
    subst hw
    refine ⟨{
      pieces := []
      tail := chars
      chars_eq := rfl
      skipped_tail := hs ▸ skipped_of_skip hskip
      real := []
      stop := positionOf file finish (chars.drop gap.length)
      covers := .nil
      tokens_eq := ?_ }⟩
    rw [← isEmpty_spelling, hs]
    rfl
  | case4 context text gap c rest hskip kind cut hread ih =>
    subst hd
    have hw := whole_skip text
    rw [hskip, Gap.whole] at hw
    have hc := covers_read directives context c rest
    rw [hread] at hc
    obtain ⟨hc, hne⟩ := hc
    obtain ⟨before, behind, rfl, rfl, hbehind⟩ := exists_of_spelling_append (hs.trans hw.symm)
    obtain ⟨inner, more, rfl, hi, hmore⟩ := exists_of_spelling_append (hbehind.trans hc.symm)
    have hne : inner ≠ [] := by
      rintro rfl
      exact hne hi.symm
    obtain ⟨first, others, rfl⟩ := List.exists_cons_of_ne_nil hne
    simp only [Division.cons, ← hi, locate_cons] at h ih ⊢
    obtain ⟨account⟩ := ih h hmore rfl
    rw [midLine_next] at account
    let piece : Piece := ⟨before, first :: others⟩
    let token : Token :=
      { kind
        text := String.ofList (spelling piece.text)
        position := first.position file
        space := !before.isEmpty }
    have hgap : Skipped (spelling before) (spelling piece.text) := by
      refine (skipped_of_skip hskip).congr ?_
      rw [← hbehind]
      rfl
    have hcovers : Covers file piece token :=
      ⟨String.toList_ofList, hgap, rfl, ⟨first, rfl, rfl⟩, (admits_read hread).inner⟩
    rw [← List.append_assoc]
    exact ⟨account.cons hcovers⟩

theorem sublist_of_covers {file : String} {pieces : List Piece} {tokens : List Token}
    (h : List.Forall₂ (Covers file) pieces tokens) :
    (tokens.map Token.position).Sublist
      ((pieces.flatMap Piece.whole).map (Located.position file)) := by
  induction h with
  | nil => exact .slnil
  | @cons piece token pieces tokens hc _ ih =>
    obtain ⟨first, hf, hp⟩ := hc.position
    obtain ⟨rest, ht⟩ := List.head?_eq_some_iff.1 hf
    have hrest : (tokens.map Token.position).Sublist
        ((rest ++ pieces.flatMap Piece.whole).map (Located.position file)) := by
      rw [List.map_append]
      exact ih.trans (List.sublist_append_right _ _)
    rw [List.flatMap_cons, Piece.whole, ht, List.append_assoc, List.map_append, List.map_cons, hp]
    exact (hrest.cons_cons _).trans (List.sublist_append_right _ _)

/-- Tokens stand one behind the other where characters do. -/
theorem Account.increasing {file : String} {midLine : Bool} {chars : List Located}
    {tokens : List Token} (account : Account file midLine chars tokens)
    (h : (chars.map (Located.position file)).Pairwise Position.Before) :
    (account.real.map Token.position).Pairwise Position.Before := by
  rw [account.chars_eq, List.map_append] at h
  exact h.sublist ((sublist_of_covers account.covers).trans (List.sublist_append_left _ _))

/-- The characters of a source that can be read to its end are what is skipped before its tokens and
the tokens, which stand one behind the other. -/
theorem account_lex {directives trigraphs : Bool} {file source : String}
    (h : (lex directives trigraphs file source).issue = none) :
    ∃ account : Account file false (splice trigraphs source.toList)
        (lex directives trigraphs file source).tokens,
      (account.real.map Token.position).Pairwise Position.Before := by
  obtain ⟨account⟩ := account_locate rfl h
  exact ⟨account, account.increasing (increasing_spliceFrom trigraphs file 1 1 source.toList)⟩

/-- A trigraph, a spliced identifier, a comment of each kind and no newline at the end. -/
theorem account_lex_spliced :
    (lex true true "<input>" "??=/**/define a\\\r\nb \\\n2\r x // y").issue = none ∧
      ∃ account : Account "<input>" false
          (splice true "??=/**/define a\\\r\nb \\\n2\r x // y".toList)
          (lex true true "<input>" "??=/**/define a\\\r\nb \\\n2\r x // y").tokens,
        (account.real.map Token.position).Pairwise Position.Before := by
  have h : (lex true true "<input>" "??=/**/define a\\\r\nb \\\n2\r x // y").issue = none := by
    decide +kernel
  exact ⟨h, account_lex h⟩

end Lexed

end CPreprocessor

import CPreprocessor.Proofs.Lexeme.Class
import CPreprocessor.Proofs.Token.Place

/-!
# Maximal munch

A text that is part of a line is read from token to token, and each time as much as possible is
taken: the longest text of any class, and a single character where there is none. Only a brace
behind an asm keyword is read up to where the braces balance.

* `Taken`: what one token is, given what the text begins with. `taken_readText`: it is what is read.
* `maximal_munch`: every token of a fragment is what is taken where it stands.
-/

namespace CPreprocessor

open Source Lexeme

/-- What is taken of a text as one token: a block, if braces enclose assembly text here and one
opens, or else as much as possible. -/
inductive Taken (afterAsm : Prop) (chars : List Char) : Token.Kind → List Char → Prop where
  | block {text : List Char} (ha : afterAsm) (hb : '\x7b' ∈ chars.head?) (h : Block chars text) :
      Taken afterAsm chars .asmBlock text
  | munched {kind : Token.Kind} {text : List Char} (hn : ¬(afterAsm ∧ '\x7b' ∈ chars.head?))
      (h : Munched chars kind text) : Taken afterAsm chars kind text

theorem taken_readText {context : Context} {c : Char} {rest : List Char} {kind : Token.Kind}
    {cut : Cut} (h : readText context c rest = .lexeme kind cut) :
    Taken context.afterAsm (c :: rest) kind cut.text := by
  unfold readText at h
  split at h
  · next hb =>
    rw [Bool.and_eq_true, decide_eq_true_eq] at hb
    obtain ⟨hasm, rfl⟩ := hb
    split at h
    · next inner hclose =>
      obtain ⟨rfl, rfl⟩ := Reading.lexeme.inj h
      exact .block hasm rfl (block_of_closeBrace? hclose)
    · contradiction
  · next hb =>
    refine .munched (fun hasm => hb ?_) (munched_readLiteral h)
    rw [Bool.and_eq_true, decide_eq_true_eq]
    exact hasm.imp_right Option.some.inj

theorem Taken.congr {afterAsm other : Prop} {chars text : List Char} {kind : Token.Kind}
    (h : Taken afterAsm chars kind text) (ha : afterAsm ↔ other) : Taken other chars kind text := by
  rwa [← propext ha]

/-! ## Places in a fragment -/

variable {tokens : List Token} {token : Token}

theorem not_inDirective_lineOf (h : ∀ token ∈ tokens, token.kind ≠ .directiveHash) :
    ¬InDirective (lineOf tokens) := by
  rintro ⟨hash, hm, hk⟩
  exact h hash ((List.rtakeWhile_suffix _ _).subset (List.mem_of_head? hm)) hk

/-- Where there is no directive, braces enclose assembly text behind every asm keyword. -/
theorem behindAsm_iff (h : ∀ token ∈ tokens, token.kind ≠ .directiveHash) : BehindAsm tokens ↔
    ∃ last ∈ (tokens.filter (·.kind ≠ .newline)).getLast?, last.IsAsm := by
  induction tokens using List.reverseRecOn with
  | nil => exact iff_of_false (stands_nil.afterAsm_iff.not.1 nofun) nofun
  | append_singleton tokens last ih =>
    rw [List.filter_append]
    by_cases hk : last.kind = .newline
    · rw [behindAsm_newline hk, List.filter_cons_of_neg (by simp [hk]), List.filter_nil,
        List.append_nil]
      exact ih fun token hm => h token (List.mem_append_left _ hm)
    · have hline := not_inDirective_lineOf h
      rw [lineOf_concat tokens hk] at hline
      rw [behindAsm_concat hk, List.filter_cons_of_pos (by simp [hk]), List.filter_nil,
        List.getLast?_concat, and_iff_left hline]
      simp

theorem plain_of_stands {context : Context} (hs : Stands tokens context)
    (h : ∀ token ∈ tokens, token.kind ≠ .directiveHash) : Context.Plain false context := by
  have hline := not_inDirective_lineOf h
  cases context with
  | lineStart => rfl
  | text => trivial
  | keyword =>
    obtain ⟨hash, hl, hk⟩ := hs
    exact hline ⟨hash, by simp [hl], hk⟩
  | header => exact hline hs.inDirective
  | operands => exact hline hs.1

open Lexed

variable {file text : String} {front behind : List Token}

/-- Every token of a fragment is what is taken of the text that is left where it stands. -/
theorem maximal_munch (h : lexFragment file text = .ok tokens)
    (hs : tokens = front ++ token :: behind) :
    ∃ read rest, read.filter (·.kind ≠ .newline) = front ∧
      Reached file (splice false text.toList) read rest ∧
      (∃ first ∈ rest.head?, token.position = first.position file) ∧
      Taken (∃ last ∈ front.getLast?, last.IsAsm) (spelling rest) token.kind
        token.text.toList := by
  have hordinary := ordinary_of_lexFragment h
  obtain ⟨-, hwords⟩ := lexFragment_eq_ok_iff.1 h
  rw [hs, words] at hwords
  obtain ⟨before, after, htokens, hbefore, hafter⟩ := List.filter_eq_append_iff.1 hwords
  obtain ⟨skipped, more, rfl, hskipped, hinner, -⟩ := List.filter_eq_cons_iff.1 hafter
  rw [Bool.and_eq_true, decide_eq_true_eq, decide_eq_true_eq] at hinner
  rw [← List.append_assoc] at htokens
  obtain ⟨place, rest, first, hstands, rfl, hreached⟩ :=
    exists_first_of_inner rfl htokens hinner.1 hinner.2
  have hfront : (before ++ skipped).filter (·.kind ≠ .newline) = front := by
    rw [← hbefore, ← List.append_nil (before.filter _), ← List.filter_eq_nil_iff.2 hskipped,
      ← List.filter_append]
    exact List.filter_congr fun other hm => by simp [hreached.inner other hm]
  have hhash : ∀ other ∈ before ++ skipped, other.kind ≠ .directiveHash := by
    intro other hm hk
    have hin : other ∈ front := by
      rw [← hfront]
      exact List.mem_filter.2 ⟨hm, by simp [hk]⟩
    have hkind := (hordinary other (hs ▸ List.mem_append_left _ hin)).kind
    rw [hk] at hkind
    contradiction
  obtain ⟨c, behind, hspelling, hread⟩ := first.read
  have hc : c ≠ '\n' := by
    rintro rfl
    rw [Lexeme.read, if_pos rfl] at hread
    exact hinner.1 (Reading.lexeme.inj hread).1.symm
  rw [read_fragment (plain_of_stands hstands hhash) hc] at hread
  refine ⟨before ++ skipped, _, hfront, hreached, ?_, ?_⟩
  · obtain ⟨head, hm, hposition⟩ := first.covers.position
    exact ⟨head, by rw [List.head?_append, hm]; rfl, hposition⟩
  · rw [hspelling]
    have htaken := taken_readText hread
    refine htaken.congr ?_
    rw [hstands.afterAsm_iff, behindAsm_iff hhash, hfront]

/-- A block, an encoded literal with an escaped quote, a number with a sign, a digraph and the
beginning of one, with nothing between them. -/
def munchSample : String := "asm{a{}}u8\"\\\"\".5e+1%:%:%"

/-- The tokens in front of the number. -/
def munchFront : List Token :=
  [{ kind := .identifier, text := "asm", position := ⟨"<input>", 1, 1⟩ },
    { kind := .asmBlock, text := "\x7ba\x7b\x7d\x7d", position := ⟨"<input>", 1, 4⟩ },
    { kind := .string, text := "u8\"\\\"\"", position := ⟨"<input>", 1, 9⟩ }]

/-- The number. -/
def munchToken : Token := { kind := .number, text := ".5e+1", position := ⟨"<input>", 1, 15⟩ }

/-- The tokens behind it. -/
def munchBehind : List Token :=
  [{ kind := .punctuator, text := "%:%:", position := ⟨"<input>", 1, 20⟩ },
    { kind := .punctuator, text := "%", position := ⟨"<input>", 1, 24⟩ }]

theorem maximal_munch_number :
    ∃ tokens, lexFragment "<input>" munchSample = .ok tokens ∧
      tokens = munchFront ++ munchToken :: munchBehind ∧
      ∃ read rest, read.filter (·.kind ≠ .newline) = munchFront ∧
        Reached "<input>" (splice false munchSample.toList) read rest ∧
        (∃ first ∈ rest.head?, munchToken.position = first.position "<input>") ∧
        Taken (∃ last ∈ munchFront.getLast?, last.IsAsm) (spelling rest) munchToken.kind
          munchToken.text.toList := by
  have h : lexFragment "<input>" munchSample = .ok (munchFront ++ munchToken :: munchBehind) := by
    decide +kernel
  exact ⟨_, h, rfl, maximal_munch h rfl⟩

end CPreprocessor

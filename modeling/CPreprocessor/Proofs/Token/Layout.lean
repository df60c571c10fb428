import CPreprocessor.Proofs.Lexeme.Mark
import CPreprocessor.Proofs.Token.Place
import CPreprocessor.Proofs.Unfinished

/-!
# The tokens of a source in lines

Directives are carried out line by line. They rely on how the tokens of a source lie in lines, and
on which tokens stand where on a line.

* `EndedLine`, `LaidOut`: lines with the newline behind each. `exists_laidOut`: the tokens of every
  source are such lines and the end of the file, or lines and the one on which reading stopped.
  `LaidOut.lines_ofTokens`: they are the lines that directives are given.
* `kind_directiveHash_iff`, `kind_headerName_iff`, `kind_asmBlock_iff`: what a token is, told by the
  tokens in front of it and its spelling.
* `Arranged`: the same, told by its line. `lines_of_lex`: all of it.
-/

namespace CPreprocessor

open Source Lexeme

/-! ## Ended lines -/

/-- A line among tokens, with the newline that ends it. -/
structure EndedLine where
  body : List Token
  newline : Token
  inner : ∀ token ∈ body, token.kind ≠ .newline ∧ token.kind ≠ .endOfFile
  ends : newline.kind = .newline

namespace EndedLine

/-- The tokens of the line and its newline. -/
def tokens (line : EndedLine) : List Token := line.body ++ [line.newline]

/-- The line as directives are given it. -/
def toLine (line : EndedLine) : Line := ⟨line.body, line.newline.position⟩

end EndedLine

/-- How the tokens of a source lie in lines: the lines that are ended, and the tokens behind them
that are on no such line. -/
inductive LaidOut : Lexed → List EndedLine → List Token → Prop where
  /-- A source that is read to its end consists of ended lines and the end of the file. -/
  | complete {lines : List EndedLine} {stop : Token} (hs : stop.kind = .endOfFile) :
      LaidOut ⟨lines.flatMap EndedLine.tokens ++ [stop], none⟩ lines []
  /-- Where something is left open the last line need not be ended. -/
  | stopped {lines : List EndedLine} {last : List Token} {issue : Issue}
      (hl : ∀ token ∈ last, token.kind ≠ .newline ∧ token.kind ≠ .endOfFile) :
      LaidOut ⟨lines.flatMap EndedLine.tokens ++ last, some issue⟩ lines last

variable {lexed : Lexed} {lines : List EndedLine} {last line front behind : List Token}
  {token : Token}

/-- Tokens that end with a newline are ended lines, the first of which may have begun before. -/
theorem exists_flatMap_tokens {current tokens : List Token}
    (hc : ∀ token ∈ current, token.kind ≠ .newline ∧ token.kind ≠ .endOfFile)
    (hs : tokens = [] → current = []) (he : ∀ token ∈ tokens, token.kind ≠ .endOfFile)
    (hn : ∀ last ∈ tokens.getLast?, last.kind = .newline) :
    ∃ lines : List EndedLine, current ++ tokens = lines.flatMap EndedLine.tokens := by
  induction tokens generalizing current with
  | nil =>
    obtain rfl := hs rfl
    exact ⟨[], rfl⟩
  | cons token rest ih =>
    obtain ⟨hfirst, hrest⟩ := List.forall_mem_cons.1 he
    have hlast : ∀ last ∈ rest.getLast?, last.kind = .newline :=
      fun last hm => hn last (List.mem_getLast?_cons hm)
    by_cases hk : token.kind = .newline
    · obtain ⟨lines, hl⟩ := ih (List.forall_mem_nil _) (fun _ => rfl) hrest hlast
      refine ⟨⟨current, token, hc, hk⟩ :: lines, ?_⟩
      rw [List.flatMap_cons, ← hl, EndedLine.tokens, List.nil_append, List.append_assoc]
      rfl
    · -- The line goes on, and it is not the end of the tokens.
      have hcurrent := List.forall_mem_append.2 ⟨hc, List.forall_mem_singleton.2 ⟨hk, hfirst⟩⟩
      have hmore : rest = [] → current ++ [token] = [] := by
        rintro rfl
        exact absurd (hn token rfl) hk
      obtain ⟨lines, hl⟩ := ih hcurrent hmore hrest hlast
      refine ⟨lines, ?_⟩
      rw [← hl, List.append_assoc]
      rfl

namespace Lexed

/-- With the newline that a file is given if its last line has none, all its lines are ended. -/
theorem kind_getLast?_closing (real : List Token) (stop : Position) :
    ∀ last ∈ (real ++ closing stop (midLineBehind false real)).getLast?, last.kind = .newline := by
  intro last hm
  cases hb : midLineBehind false real with
  | true =>
    rw [hb, closing, if_pos rfl, List.getLast?_concat] at hm
    rw [← Option.some.inj hm]
  | false =>
    rw [hb, closing, if_neg Bool.false_ne_true, List.append_nil] at hm
    rw [midLineBehind, Option.mem_def.1 hm] at hb
    simpa using hb

/-- The tokens of a text that is read to its end are ended lines and the end of the file. -/
theorem Account.exists_ended {file : String} {chars : List Located} {tokens : List Token}
    (account : Account file false chars tokens) : ∃ (lines : List EndedLine) (stop : Token),
      stop.kind = .endOfFile ∧ tokens = lines.flatMap EndedLine.tokens ++ [stop] := by
  have hinner : ∀ token ∈ account.real ++ closing account.stop (midLineBehind false account.real),
      token.kind ≠ .endOfFile := by
    refine List.forall_mem_append.2 ⟨inner_of_covers account.covers, fun token hm => ?_⟩
    rw [kind_of_mem_closing hm]
    decide
  obtain ⟨lines, hl⟩ := exists_flatMap_tokens (List.forall_mem_nil _) (fun _ => rfl) hinner
    (kind_getLast?_closing account.real account.stop)
  exact ⟨lines, _, rfl, account.tokens_eq.trans (congrArg (· ++ _) hl)⟩

/-- So are the tokens of a text that stops somewhere, up to its last newline. -/
theorem StopsBehind.exists_ended {lexed shorter : Lexed} {front tail : List Token} {stop : Token}
    (h : lexed.StopsBehind shorter front tail stop) : ∃ lines : List EndedLine,
      lexed.tokens = lines.flatMap EndedLine.tokens ++ tail := by
  obtain ⟨lines, hl⟩ := exists_flatMap_tokens (List.forall_mem_nil _) (fun _ => rfl) h.inner
    h.newline
  exact ⟨lines, h.tokens.trans (congrArg (· ++ tail) hl)⟩

end Lexed

/-- Every source is laid out in lines. -/
theorem exists_laidOut (trigraphs : Bool) (file source : String) :
    ∃ lines last, LaidOut (lex true trigraphs file source) lines last := by
  cases hi : (lex true trigraphs file source).issue with
  | none =>
    obtain ⟨account⟩ : Nonempty (Lexed.Account file false (splice trigraphs source.toList)
        (lex true trigraphs file source).tokens) := Lexed.account_locate rfl hi
    obtain ⟨lines, stop, hs, htokens⟩ := account.exists_ended
    have hlex : lex true trigraphs file source = ⟨_, none⟩ := congrArg₂ Lexed.mk htokens hi
    exact ⟨lines, [], hlex ▸ .complete hs⟩
  | some issue =>
    obtain ⟨front, tail, stop, hstops⟩ := lex_kept hi
    obtain ⟨lines, htokens⟩ := hstops.exists_ended
    have hlex : lex true trigraphs file source = ⟨_, some issue⟩ := congrArg₂ Lexed.mk htokens hi
    exact ⟨lines, tail, hlex ▸ .stopped hstops.tail⟩

/-- Ended lines are divided where they end. -/
theorem lines_divideFrom_ended (lines : List EndedLine) (behind : List Token) :
    (Lines.divideFrom [] (lines.flatMap EndedLine.tokens ++ behind)).lines =
      lines.map EndedLine.toLine ++ (Lines.divideFrom [] behind).lines := by
  induction lines with
  | nil => rfl
  | cons line rest ih =>
    rw [List.flatMap_cons, List.append_assoc, EndedLine.tokens, List.append_assoc,
      Lines.divideFrom_inner [] line.inner, List.nil_append, List.singleton_append,
      Lines.divideFrom, line.ends]
    exact congrArg (line.toLine :: ·) ih

/-- The lines that directives are given are those that are ended. -/
theorem LaidOut.lines_ofTokens (h : LaidOut lexed lines last) :
    (Lines.ofTokens lexed.tokens).lines = lines.map EndedLine.toLine := by
  cases h with
  | @complete _ stop hs =>
    have hnone : (Lines.divideFrom [] [stop]).lines = [] := by rw [Lines.divideFrom, hs]
    rw [Lines.ofTokens, lines_divideFrom_ended, hnone, List.append_nil]
  | stopped hl =>
    have hnone := Lines.divideFrom_inner [] hl []
    rw [List.append_nil, List.nil_append] at hnone
    rw [Lines.ofTokens, lines_divideFrom_ended, hnone]
    exact List.append_nil _

/-! ## Lines so far -/

theorem lineOf_ended (lines : List EndedLine) : lineOf (lines.flatMap EndedLine.tokens) = [] := by
  rcases List.eq_nil_or_concat lines with rfl | ⟨front, last, rfl⟩
  · rfl
  · rw [List.concat_eq_append, List.flatMap_append, List.flatMap_singleton, EndedLine.tokens,
      ← List.append_assoc]
    exact lineOf_newline _ last.ends

/-- Behind ended lines the tokens of a line are those that are there. -/
theorem lineOf_append (hf : lineOf front = []) (hl : ∀ token ∈ line, token.kind ≠ .newline) :
    lineOf (front ++ line) = line := by
  induction line using List.reverseRecOn with
  | nil => rwa [List.append_nil]
  | append_singleton line token ih =>
    obtain ⟨hline, htoken⟩ := List.forall_mem_append.1 hl
    rw [← List.append_assoc, lineOf_concat _ (htoken token List.mem_cons_self), ih hline]

/-- Each line stands behind ended ones. -/
theorem LaidOut.exists_split (h : LaidOut lexed lines last)
    (hm : line ∈ lines.map EndedLine.body ++ [last]) :
    ∃ front behind, lexed.tokens = front ++ (line ++ behind) ∧ lineOf front = [] ∧
      ∀ token ∈ line, token.kind ≠ .newline ∧ token.kind ≠ .endOfFile := by
  obtain ⟨ending, htokens, hlast⟩ : ∃ ending,
      lexed.tokens = lines.flatMap EndedLine.tokens ++ (last ++ ending) ∧
        ∀ token ∈ last, token.kind ≠ .newline ∧ token.kind ≠ .endOfFile := by
    cases h with
    | @complete _ stop => exact ⟨[stop], rfl, List.forall_mem_nil _⟩
    | stopped hl => exact ⟨[], by rw [List.append_nil], hl⟩
  rcases List.mem_append.1 hm with hm | hm
  · obtain ⟨ended, hended, rfl⟩ := List.mem_map.1 hm
    obtain ⟨before, after, rfl⟩ := List.append_of_mem hended
    refine ⟨before.flatMap EndedLine.tokens,
      ended.newline :: (after.flatMap EndedLine.tokens ++ (last ++ ending)), ?_,
      lineOf_ended before, ended.inner⟩
    rw [htokens, List.flatMap_append, List.flatMap_cons, EndedLine.tokens]
    simp only [List.append_assoc, List.cons_append, List.nil_append]
  · obtain rfl := List.mem_singleton.1 hm
    exact ⟨_, ending, htokens, lineOf_ended lines, hlast⟩

/-! ## What a token is -/

section Place

variable {trigraphs : Bool} {file source : String}
  (h : (lex true trigraphs file source).tokens = front ++ token :: behind)
  (hn : token.kind ≠ .newline) (he : token.kind ≠ .endOfFile)

include h hn he

/-- A token on a line is read where the tokens in front of it stand. -/
theorem exists_read_of_inner : ∃ place c rest left, Stands front place ∧
    Lexeme.read true place c rest = .lexeme token.kind ⟨token.text.toList, left⟩ := by
  obtain ⟨place, rest, first, hs, rfl, -⟩ := Lexed.exists_first_of_inner rfl h hn he
  obtain ⟨c, more, -, hread⟩ := first.read
  exact ⟨place, c, more, _, hs, hread⟩

theorem kind_directiveHash_iff :
    token.kind = .directiveHash ↔ lineOf front = [] ∧ BeginsHash token.text.toList := by
  obtain ⟨place, c, rest, left, hs, hread⟩ := exists_read_of_inner h hn he
  rw [directiveHash_iff hread, ← Bool.not_eq_true, hs.midLine_iff, not_not]

theorem kind_headerName_iff :
    token.kind = .headerName ↔ AtHeader front ∧ IsHeaderName token.text.toList := by
  obtain ⟨place, c, rest, left, hs, hread⟩ := exists_read_of_inner h hn he
  rw [headerName_iff hread, hs.header_iff]

theorem kind_asmBlock_iff :
    token.kind = .asmBlock ↔ BehindAsm front ∧ '\x7b' ∈ token.text.toList.head? := by
  obtain ⟨place, c, rest, left, hs, hread⟩ := exists_read_of_inner h hn he
  rw [asmBlock_iff hread, hs.afterAsm_iff]

end Place

/-! ## What a line is -/

/-- A directive is one from its first token on. -/
theorem InDirective.of_append (h : InDirective (front ++ token :: behind))
    (hk : token.kind ≠ .directiveHash) : InDirective front := by
  obtain ⟨hash, hm, hhash⟩ := h
  cases front with
  | nil =>
    obtain rfl := Option.some.inj hm
    contradiction
  | cons first rest => exact ⟨hash, hm, hhash⟩

/-- The tokens of a line as directives rely on them. -/
structure Arranged (line : List Token) : Prop where
  /-- The mark of a directive is the first token of its line, and a first token that begins like one
  is one. -/
  hash : ∀ front token behind, line = front ++ token :: behind →
    (token.kind = .directiveHash ↔ front = [] ∧ BeginsHash token.text.toList)
  /-- A header name is the third token, behind the mark of a directive and the keyword `include`,
  and a token there that is spelled like one is one. -/
  header : ∀ front token behind, line = front ++ token :: behind →
    (token.kind = .headerName ↔
      (∃ hash keyword, front = [hash, keyword] ∧ hash.kind = .directiveHash ∧
        keyword.kind = .identifier ∧ keyword.text = "include") ∧ IsHeaderName token.text.toList)
  /-- No assembly text is enclosed in a directive. -/
  block : InDirective line → ∀ token ∈ line, token.kind ≠ .asmBlock

/-- A line of a source is arranged so, wherever it begins and however it ends. -/
theorem arranged_of_lex {trigraphs : Bool} {file source : String}
    (h : (lex true trigraphs file source).tokens = front ++ (line ++ behind))
    (hf : lineOf front = [])
    (hl : ∀ token ∈ line, token.kind ≠ .newline ∧ token.kind ≠ .endOfFile) : Arranged line := by
  have hplace {before after : List Token} {token : Token} (hs : line = before ++ token :: after) :
      (lex true trigraphs file source).tokens = front ++ before ++ token :: (after ++ behind) ∧
        (token.kind ≠ .newline ∧ token.kind ≠ .endOfFile) ∧ lineOf (front ++ before) = before := by
    subst hs
    refine ⟨?_, hl token (by simp), lineOf_append hf fun other hm => (hl other ?_).1⟩
    · rw [h]
      simp only [List.append_assoc, List.cons_append]
    · exact List.mem_append_left _ hm
  refine ⟨fun before token after hs => ?_, fun before token after hs => ?_, ?_⟩
  · obtain ⟨htokens, hinner, hline⟩ := hplace hs
    rw [kind_directiveHash_iff htokens hinner.1 hinner.2, hline]
  · obtain ⟨htokens, hinner, hline⟩ := hplace hs
    rw [kind_headerName_iff htokens hinner.1 hinner.2, AtHeader, hline]
  · -- Behind the mark of a directive no brace opens a block, whatever stands above the line.
    intro hd token hm hk
    obtain ⟨before, after, hs⟩ := List.append_of_mem hm
    obtain ⟨htokens, hinner, hline⟩ := hplace hs
    have hasm := ((kind_asmBlock_iff htokens hinner.1 hinner.2).1 hk).1
    refine not_behindAsm_of_inDirective ?_ hasm
    rw [hline]
    rw [hs] at hd
    exact hd.of_append (by rw [hk]; decide)

/-- The tokens of a source are lines, each ended by one newline, and the end of the file; only where
something is left open there is no end, and the last line may have no newline. These are the lines
that directives are given. Each of them is arranged as directives rely on, and braces enclose
assembly text only behind an asm keyword, newlines aside. -/
theorem lines_of_lex (trigraphs : Bool) (file source : String) :
    ∃ lines last, LaidOut (lex true trigraphs file source) lines last ∧
      (Lines.ofTokens (lex true trigraphs file source).tokens).lines =
        lines.map EndedLine.toLine ∧
      (∀ line ∈ lines.map EndedLine.body ++ [last], Arranged line) ∧
      ∀ front token behind, (lex true trigraphs file source).tokens = front ++ token :: behind →
        token.kind ≠ .newline → token.kind ≠ .endOfFile →
          (token.kind = .asmBlock ↔ BehindAsm front ∧ '\x7b' ∈ token.text.toList.head?) := by
  obtain ⟨lines, last, hlaid⟩ := exists_laidOut trigraphs file source
  refine ⟨lines, last, hlaid, hlaid.lines_ofTokens, ?_, fun _ _ _ => kind_asmBlock_iff⟩
  intro line hm
  obtain ⟨front, behind, htokens, hfront, hinner⟩ := hlaid.exists_split hm
  exact arranged_of_lex htokens hfront hinner

/-- A block on the line behind its keyword, an include, and a line on which reading stops. -/
example : (lex true false "m" "asm\n\x7b \x7d\n%: include <a>\nb # \"c").tokens.map Token.kind =
    [.identifier, .newline, .asmBlock, .newline, .directiveHash, .identifier, .headerName, .newline,
      .identifier, .punctuator] := by
  decide +kernel

end CPreprocessor

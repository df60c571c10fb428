import CPreprocessor.Proofs.Lexeme.Class
import CPreprocessor.Proofs.Token.Place

/-!
# What is left open

The reading of a source stops in one case only: behind the tokens read so far, and what is skipped
behind them, stands the beginning of a comment, a literal or a block that has no end.

* `LeftOpen`: such a beginning, with no mention of the readers.
* `leftOpen_of_divide`, `divide_of_leftOpen`: a place has no more lexemes and leaves something open
  just if such a beginning stands there.
* `Stopped`: the reading has come to it. `lex_stops_iff`: every issue of a source is of this kind,
  and every other source is read to its end.
-/

namespace CPreprocessor

open Source Lexeme

/-- The beginning of something that has no end, behind the tokens read so far: what it is, the
family of the fault, what stands in front of the mark that opens it, and the text from the mark. -/
inductive LeftOpen (read : List Token) : Opener → Category → List Char → List Char → Prop where
  | comment {body : List Char} (hn : ¬['*', '/'] <:+: body) :
      LeftOpen read .comment .unterminatedComment [] ('/' :: '*' :: body)
  /-- An encoding and a quote, where no header name stands. -/
  | literal {encoding rest : List Char} {quote : Char} (he : encoding ∈ encodings)
      (hq : isQuote quote)
      (hh : AtHeader read → ∀ name, IsHeaderName name → ¬name <+: encoding ++ quote :: rest)
      (hc : ∀ body, InQuotes quote body → ¬body ++ [quote] <+: rest) :
      LeftOpen read (if quote = '"' then .string else .character) .unterminatedLiteral encoding
        (quote :: rest)
  | asmBlock {rest : List Char} (ha : BehindAsm read)
      (hb : ∀ front, front <+: '\x7b' :: rest → front ≠ [] → ¬Balanced front) :
      LeftOpen read .asmBlock .unterminatedAsmBlock [] ('\x7b' :: rest)

variable {directives : Bool} {context : Context} {read : List Token} {opener : Opener}
  {category : Category} {c : Char} {chars rest before opened gap : List Char}

theorem LeftOpen.category_eq (h : LeftOpen read opener category before opened) :
    (Fault.unclosed opener).category = category := by
  cases h with
  | comment | asmBlock => rfl
  | literal => split <;> rfl

theorem LeftOpen.exists_cons (h : LeftOpen read opener category before opened) :
    ∃ c rest, opened = c :: rest := by
  cases h <;> exact ⟨_, _, rfl⟩

/-! ## Comments -/

theorem eq_unclosed_of_prepend {text : List Char} {inner : Gap}
    (h : inner.prepend text = .unclosed before rest) :
    ∃ more, inner = .unclosed more rest ∧ before = text ++ more := by
  cases inner with
  | unclosed more behind =>
    obtain ⟨rfl, rfl⟩ := Gap.unclosed.inj h
    exact ⟨more, rfl, rfl⟩
  | skipped => contradiction

/-- What is skipped in front of a comment that is left open. -/
theorem exists_of_skip_unclosed (h : skip chars = .unclosed before rest) :
    Skipped before rest ∧ ∃ body, rest = '/' :: '*' :: body ∧ closeComment? body = none := by
  fun_induction skip chars generalizing before with
  | case1 | case6 => contradiction
  | case2 behind line =>
    obtain ⟨more, hs, -⟩ := eq_unclosed_of_prepend h
    rw [skip_lineEnd (lineEnd_takeWhile behind)] at hs
    contradiction
  | case3 behind cut closed ih =>
    obtain ⟨more, hs, rfl⟩ := eq_unclosed_of_prepend h
    obtain ⟨text, ht, hi⟩ := text_closeComment? closed
    obtain ⟨hskipped, hbody⟩ := ih hs
    rw [ht]
    exact ⟨by simpa using Skipped.block hi hskipped, hbody⟩
  | case4 body hopen =>
    obtain ⟨rfl, rfl⟩ := Gap.unclosed.inj h
    exact ⟨.nil _, body, rfl, hopen⟩
  | case5 c behind _ _ hc ih =>
    obtain ⟨more, hs, rfl⟩ := eq_unclosed_of_prepend h
    obtain ⟨hskipped, hbody⟩ := ih hs
    exact ⟨.blank hc hskipped, hbody⟩

theorem skip_of_open {body : List Char} (h : closeComment? body = none) :
    skip ('/' :: '*' :: body) = .unclosed [] ('/' :: '*' :: body) := by
  rw [skip]
  split
  · next hc => cases h.symm.trans hc
  · rfl

/-! ## Lexemes -/

/-- What is read as left open is. -/
theorem leftOpen_of_read (hs : Stands read context)
    (h : Lexeme.read directives context c rest = .unclosed opener before opened) :
    c :: rest = before ++ opened ∧ ∃ category, LeftOpen read opener category before opened := by
  have hcover := covers_read directives context c rest
  rw [h] at hcover
  refine ⟨hcover.symm, ?_⟩
  unfold Lexeme.read at h
  split at h
  · contradiction
  split at h
  · contradiction
  split at h
  · contradiction
  next hheader =>
  unfold readText at h
  split at h
  · next hasm =>
    rw [Bool.and_eq_true, decide_eq_true_eq] at hasm
    obtain ⟨hafter, rfl⟩ := hasm
    split at h
    · contradiction
    · next hclose =>
      obtain ⟨rfl, rfl, rfl⟩ := Reading.unclosed.inj h
      exact ⟨_, .asmBlock (hs.afterAsm_iff.1 hafter) (closeBrace?_eq_none_iff.1 hclose)⟩
  · unfold readLiteral at h
    split at h
    · next opening ho =>
      obtain ⟨hsplit, hq⟩ := eq_of_opening? ho
      split at h
      · contradiction
      · next hclose =>
        obtain ⟨rfl, rfl, rfl⟩ := Reading.unclosed.inj h
        refine ⟨_, .literal (mem_encodings_of_opening? ho) hq (fun hat => ?_)
          ((closeQuote?_eq_none_iff hq).1 hclose)⟩
        rw [if_pos (hs.header_iff.2 hat), hsplit] at hheader
        exact headerName?_eq_none_iff.1 hheader
    · contradiction

/-- The characters that a literal or a block begins with. -/
theorem exists_start (h : LeftOpen read opener category before opened) (hc : opener ≠ .comment) :
    ∃ c rest, before ++ opened = c :: rest ∧
      c ∈ ['u', 'U', 'L', '"', '\x27', '\x7b'] := by
  cases h with
  | comment => contradiction
  | asmBlock => exact ⟨_, _, rfl, by simp⟩
  | literal he hq =>
    simp only [isQuote, Bool.or_eq_true, decide_eq_true_eq] at hq
    simp only [encodings, List.mem_cons, List.not_mem_nil, or_false] at he
    rcases hq with rfl | rfl <;> rcases he with rfl | rfl | rfl | rfl | rfl <;>
      exact ⟨_, _, rfl, by simp⟩

/-- No header name stands where something else is left open. -/
theorem headerName?_of_leftOpen (hs : Stands read context)
    (h : LeftOpen read opener category before opened) (hc : opener ≠ .comment) :
    (if context = .header then headerName? (before ++ opened) else none) = none := by
  cases h with
  | comment => contradiction
  | asmBlock => split <;> rfl
  | literal _ _ hh =>
    split
    · next hi => exact headerName?_eq_none_iff.2 (hh (hs.header_iff.1 hi))
    · rfl

theorem readText_of_leftOpen (hs : Stands read context)
    (h : LeftOpen read opener category before opened) (hc : opener ≠ .comment)
    (he : before ++ opened = c :: rest) :
    readText context c rest = .unclosed opener before opened := by
  cases h with
  | comment => contradiction
  | asmBlock ha hb =>
    obtain ⟨rfl, rfl⟩ := List.cons.inj he
    rw [readText, hs.afterAsm_iff.2 ha, Bool.true_and, decide_eq_true rfl, if_pos rfl,
      closeBrace?_eq_none_iff.2 hb]
  | @literal _ behind quote hencoding hq _ hclose =>
    have hopen : opening? (c :: rest) = some ⟨before, quote, behind⟩ := by
      rw [← he]
      exact opening?_eq_some hencoding hq behind
    have hbrace : c ≠ '\x7b' := by
      rintro rfl
      contradiction
    rw [readText_of_not_block fun _ => hbrace, readLiteral, hopen]
    dsimp only
    rw [(closeQuote?_eq_none_iff hq).2 hclose]

/-- What is left open is read so. -/
theorem read_of_leftOpen (hs : Stands read context)
    (h : LeftOpen read opener category before opened) (hc : opener ≠ .comment)
    (he : before ++ opened = c :: rest) :
    Lexeme.read directives context c rest = .unclosed opener before opened := by
  have hheader := headerName?_of_leftOpen hs h hc
  obtain ⟨d, more, hstart, hm⟩ := exists_start h hc
  obtain ⟨rfl, rfl⟩ := List.cons.inj (hstart.symm.trans he)
  have hline : d ≠ '\n' := by
    rintro rfl
    simp at hm
  have hhash : (if directives then directiveHash? context (d :: more) else none) = none := by
    split
    · rw [directiveHash?]
      all_goals
        rintro _ ⟨rfl, rfl⟩
        simp at hm
    · rfl
  rw [he] at hheader
  rw [Lexeme.read, if_neg hline, hhash, hheader]
  exact readText_of_leftOpen hs h hc he

/-! ## Places -/

/-- Where nothing more is read because something is left open, its beginning stands there, blanks
and comments aside. -/
theorem leftOpen_of_divide (hs : Stands read context)
    (h : divide directives context chars = ⟨[], .unclosed opener before opened⟩) :
    ∃ gap encoding category, before = gap ++ encoding ∧ chars = gap ++ (encoding ++ opened) ∧
      Skipped gap (encoding ++ opened) ∧ LeftOpen read opener category encoding opened := by
  have hwhole := whole_skip chars
  rw [divide] at h
  split at h
  · next front behind hskip =>
    obtain ⟨-, he⟩ := Division.mk.inj h
    obtain ⟨rfl, rfl, rfl⟩ := Ending.unclosed.inj he
    obtain ⟨hskipped, body, rfl, hopen⟩ := exists_of_skip_unclosed hskip
    rw [hskip] at hwhole
    exact ⟨front, [], .unterminatedComment, (List.append_nil front).symm, hwhole.symm, hskipped,
      .comment (closeComment?_eq_none_iff.1 hopen)⟩
  · obtain ⟨-, he⟩ := Division.mk.inj h
    contradiction
  · next gap c rest hskip =>
    rw [hskip] at hwhole
    split at h
    · next encoding behind hread =>
      obtain ⟨-, he⟩ := Division.mk.inj h
      obtain ⟨rfl, rfl, rfl⟩ := Ending.unclosed.inj he
      obtain ⟨hsplit, category, hopen⟩ := leftOpen_of_read hs hread
      have hskipped := skipped_of_skip hskip
      rw [hsplit] at hwhole hskipped
      exact ⟨gap, encoding, category, rfl, hwhole.symm, hskipped, hopen⟩
    · cases (Division.mk.inj h).1

/-- Where the beginning of something stands that has no end, nothing more is read. -/
theorem divide_of_leftOpen (hs : Stands read context) (hskipped : Skipped gap (before ++ opened))
    (hopen : LeftOpen read opener category before opened) :
    divide directives context (gap ++ (before ++ opened)) =
      ⟨[], .unclosed opener (gap ++ before) opened⟩ := by
  have hskip := skip_of_skipped hskipped
  have hlexeme (hc : opener ≠ .comment) : divide directives context (gap ++ (before ++ opened)) =
      ⟨[], .unclosed opener (gap ++ before) opened⟩ := by
    obtain ⟨c, rest, hstart, hm⟩ := exists_start hopen hc
    have hstops : skip (c :: rest) = .skipped [] (c :: rest) := by
      simp only [List.mem_cons, List.not_mem_nil, or_false] at hm
      rcases hm with rfl | rfl | rfl | rfl | rfl | rfl <;> exact skip_of_cons rfl (by decide)
    rw [hstart, hstops, Gap.prepend, List.append_nil] at hskip
    rw [hstart]
    exact divide_of_open hskip (read_of_leftOpen hs hopen hc hstart)
  cases hopen with
  | comment hn =>
    rw [List.nil_append, skip_of_open (closeComment?_eq_none_iff.2 hn)] at hskip
    exact divide_of_unclosed hskip
  | asmBlock => exact hlexeme (by decide)
  | literal => exact hlexeme (by split <;> decide)

/-! ## The whole source -/

/-- The reading has come to something that is left open, which is the issue. -/
inductive Stopped (file : String) (chars : List Located) (read : List Token) : Issue → Prop where
  | intro {opener : Opener} {category : Category} {before opened : List Located} {first : Located}
      {issue : Issue} (hr : Lexed.Reached file chars read (before ++ opened))
      (ho : LeftOpen read opener category (Lexed.spelling before) (Lexed.spelling opened))
      (hf : first ∈ opened.head?) (hi : issue = .placed (.unclosed opener) (first.position file))
      (hc : issue.fault.category = category) : Stopped file chars read issue

namespace Lexed

variable {file : String} {finish : Nat × Nat} {chars : List Located} {tokens : List Token}
  {issue : Issue}

theorem nodup_of_increasing
    (h : (chars.map (Located.position file)).Pairwise Position.Before) :
    (chars.map (Located.position file)).Nodup := by
  refine h.imp fun hb he => ?_
  subst he
  rcases hb with hb | ⟨-, hb⟩ <;> exact Nat.lt_irrefl _ hb

/-- The issue stands at the first character of what is left open. -/
theorem locate_open {before opened : List Located} {first : Located} {text : List Char}
    (hf : first ∈ opened.head?) :
    locate file finish (.unclosed opener (spelling before) text) (before ++ opened) [] =
      ⟨[], some (.placed (.unclosed opener) (first.position file))⟩ := by
  obtain ⟨rest, rfl⟩ := List.head?_eq_some_iff.1 hf
  rw [locate, length_spelling, List.drop_left]
  rfl

/-- Where there is an issue, the reading has stopped behind all tokens. -/
theorem stopped_of_issue {division : Division}
    (hd : divide directives (.lineStart false) (spelling chars) = division)
    (hi : (locate file finish division.ending chars division.lexemes).issue = some issue) :
    Stopped file chars (locate file finish division.ending chars division.lexemes).tokens
      issue := by
  obtain ⟨lexemes, ending⟩ := division
  rw [← List.append_nil lexemes] at hd
  obtain ⟨pieces, tokens, place, rest, hc, hp, -, hs, hdivide, hlocate⟩ :=
    exists_place file finish hd stands_nil
  rw [List.append_nil] at hlocate
  dsimp only at hi ⊢
  rw [hlocate] at hi ⊢
  cases ending with
  | complete gap midLine => contradiction
  | unclosed opener before opened =>
    obtain ⟨gap, encoding, category, rfl, hsplit, hskipped, hopen⟩ := leftOpen_of_divide hs hdivide
    obtain ⟨front, behind, rfl, rfl, hbehind⟩ := exists_of_spelling_append hsplit
    obtain ⟨lead, mark, rfl, rfl, rfl⟩ := exists_of_spelling_append hbehind
    obtain ⟨first, hf⟩ : ∃ first, first ∈ mark.head? := by
      obtain ⟨c, more, he⟩ := hopen.exists_cons
      obtain ⟨first, others, rfl, -⟩ := List.map_eq_cons_iff.1 he
      exact ⟨first, rfl⟩
    rw [← spelling_append, ← List.append_assoc, locate_open hf] at hi ⊢
    obtain rfl := Option.some.inj hi
    rw [List.append_nil]
    refine .intro ⟨pieces, front, hc, hp, ?_⟩ hopen hf rfl hopen.category_eq
    rwa [spelling_append]

/-- Where something is left open behind tokens there are no others, and it is the issue. -/
theorem issue_of_stopped {division : Division} {more : List Token}
    (hu : (chars.map (Located.position file)).Nodup)
    (hd : divide directives (.lineStart false) (spelling chars) = division)
    (hl : (locate file finish division.ending chars division.lexemes).tokens = tokens ++ more)
    (hs : Stopped file chars tokens issue) :
    more = [] ∧ (locate file finish division.ending chars division.lexemes).issue = some issue := by
  obtain ⟨⟨pieces, gap, hc, hp, hskipped⟩, hopen, hf, rfl, -⟩ := hs
  obtain ⟨place, other, hstands, hdivide, hmore, hissue⟩ :=
    place_of_reached hu hc hp hd hl stands_nil
  rw [spelling_append] at hskipped
  rw [spelling_append, spelling_append, divide_of_leftOpen hstands hskipped hopen,
    ← spelling_append] at hdivide
  subst hdivide
  rw [← List.append_assoc, locate_open hf] at hmore hissue
  exact ⟨hmore.symm, hissue.symm⟩

end Lexed

/-- The reading of a source stops just where something is left open behind the tokens so far, and it
is the issue. Otherwise it comes to the end of the file. -/
theorem lex_stops_iff (directives trigraphs : Bool) (file source : String) :
    (∀ issue, (lex directives trigraphs file source).issue = some issue ↔
      ∃ read, read <+: (lex directives trigraphs file source).tokens ∧
        Stopped file (splice trigraphs source.toList) read issue) ∧
    (∀ read issue, read <+: (lex directives trigraphs file source).tokens →
      Stopped file (splice trigraphs source.toList) read issue →
        read = (lex directives trigraphs file source).tokens) ∧
    ((lex directives trigraphs file source).issue = none →
      ∃ front last, (lex directives trigraphs file source).tokens = front ++ [last] ∧
        last.kind = .endOfFile ∧ ∀ token ∈ front, token.kind ≠ .endOfFile) := by
  have hu := Lexed.nodup_of_increasing (increasing_spliceFrom trigraphs file 1 1 source.toList)
  have hstops {read : List Token} {issue : Issue}
      (hp : read <+: (lex directives trigraphs file source).tokens)
      (hs : Stopped file (splice trigraphs source.toList) read issue) :
      read = (lex directives trigraphs file source).tokens ∧
        (lex directives trigraphs file source).issue = some issue := by
    obtain ⟨more, hm⟩ := hp
    obtain ⟨rfl, hissue⟩ := Lexed.issue_of_stopped hu rfl hm.symm hs
    exact ⟨(List.append_nil read).symm.trans hm, hissue⟩
  refine ⟨fun issue => ⟨fun hi => ?_, ?_⟩, fun read issue hp hs => (hstops hp hs).1, fun hi => ?_⟩
  · exact ⟨_, List.prefix_refl _, Lexed.stopped_of_issue rfl hi⟩
  · rintro ⟨read, hp, hs⟩
    exact (hstops hp hs).2
  · obtain ⟨account⟩ := Lexed.account_locate rfl hi
    refine ⟨_, _, account.tokens_eq, rfl, fun token hm => ?_⟩
    rcases List.mem_append.1 hm with hm | hm
    · exact Lexed.inner_of_covers account.covers token hm
    · unfold Lexed.closing at hm
      split at hm
      · simp [List.mem_singleton.1 hm]
      · contradiction

end CPreprocessor

import CPreprocessor.Proofs.IncludeLine
import CPreprocessor.Proofs.Lexeme.Front
import CPreprocessor.Proofs.Reader
import CPreprocessor.Proofs.Source.Lines
import Mathlib.Data.List.DropRight

/-!
# Files that are not finished

A file in which something is left open is read up to the line that it begins on, as if it ended
there, and one issue is raised behind that.

* `kept`: the text of the lines that are read.
* `lex_kept`: the tokens of these lines are all that count of the tokens of the file.
* `CutShort`, `cut_short`: what is read of the file, and how the reading goes on.
-/

namespace CPreprocessor

open Source Lexeme Include

variable {files : Files.Tree} {options : Options} {trigraphs : Bool} {file source : String}
  {issue : Issue}

namespace Lexed

/-- The physical line that the last newline stands on, or none if there is no newline. -/
def lastLine (lexed : Lexed) : Nat :=
  ((lexed.tokens.filter (·.kind = .newline)).getLast?.map (·.position.line)).getD 0

/-! ## Tokens in their places -/

/-- Lexemes in front of others have the same tokens whatever stands behind them. -/
theorem exists_locate_append (file : String) {lexemes : List Lexeme} {chars : List Located}
    (hc : spelling chars = lexemes.flatMap Lexeme.whole)
    (hn : ∀ lexeme ∈ lexemes, lexeme.text ≠ []) :
    ∃ tokens : List Token, ∀ finish ending behind more,
      locate file finish ending (chars ++ behind) (lexemes ++ more) =
        ⟨tokens ++ (locate file finish ending behind more).tokens,
          (locate file finish ending behind more).issue⟩ := by
  induction lexemes generalizing chars with
  | nil =>
    obtain rfl : chars = [] := List.map_eq_nil_iff.1 hc
    exact ⟨[], fun _ _ _ _ => rfl⟩
  | cons lexeme lexemes ih =>
    obtain ⟨gap, kind, text⟩ := lexeme
    obtain ⟨hne, hrest⟩ := List.forall_mem_cons.1 hn
    rw [List.flatMap_cons, Lexeme.whole, List.append_assoc] at hc
    obtain ⟨before, after, rfl, rfl, hafter⟩ := exists_of_spelling_append hc
    obtain ⟨inner, chars, rfl, rfl, hchars⟩ := exists_of_spelling_append hafter
    obtain ⟨tokens, hlocate⟩ := ih hchars hrest
    obtain ⟨first, inner, rfl⟩ : ∃ first others, inner = first :: others :=
      List.exists_cons_of_ne_nil fun he => hne (congrArg spelling he)
    let token : Token :=
      { kind
        text := String.ofList (spelling (first :: inner))
        position := first.position file
        space := !before.isEmpty }
    refine ⟨token :: tokens, fun finish ending behind more => ?_⟩
    have hsplit : before ++ first :: (inner ++ chars) ++ behind =
        before ++ (first :: inner ++ (chars ++ behind)) := by
      simp only [List.append_assoc, List.cons_append]
    rw [List.cons_append, List.cons_append, hsplit, locate_cons, hlocate]
    rfl

/-- The token of a newline stands where the character does that ends the lexemes. -/
theorem exists_locate_newline (file : String) {lexemes : List Lexeme} {last : Lexeme}
    {chars : List Located} (hc : spelling chars = (lexemes ++ [last]).flatMap Lexeme.whole)
    (hn : ∀ lexeme ∈ lexemes, lexeme.text ≠ []) (ht : last.text = ['\n']) :
    ∃ (tokens : List Token) (token : Token) (front : List Located) (newline : Located),
      token.kind = last.kind ∧ chars = front ++ [newline] ∧ newline.char = '\n' ∧
      token.position.line = newline.line ∧
      ∀ finish ending behind more,
        locate file finish ending (chars ++ behind) (lexemes ++ [last] ++ more) =
          ⟨tokens ++ [token] ++ (locate file finish ending behind more).tokens,
            (locate file finish ending behind more).issue⟩ := by
  obtain ⟨gap, kind, text⟩ := last
  obtain rfl : text = ['\n'] := ht
  rw [List.flatMap_append, List.flatMap_singleton, Lexeme.whole] at hc
  obtain ⟨chars, ending, rfl, hchars, hending⟩ := exists_of_spelling_append hc
  obtain ⟨gap, mark, rfl, rfl, hmark⟩ := exists_of_spelling_append hending
  obtain ⟨newline, rfl, hchar⟩ := List.map_eq_singleton_iff.1 hmark
  obtain ⟨tokens, hlocate⟩ := exists_locate_append file hchars hn
  let token : Token :=
    { kind
      text := "\n"
      position := newline.position file
      space := !gap.isEmpty }
  refine ⟨tokens, token, chars ++ gap, newline, rfl, (List.append_assoc _ _ _).symm, hchar, rfl,
    fun finish ending behind more => ?_⟩
  have hcons := locate_cons file finish ending gap [newline] behind kind more
  rw [hmark] at hcons
  simp only [List.append_assoc, hlocate, List.singleton_append] at hcons ⊢
  rw [hcons]
  rfl

/-- An issue is that something is left open. -/
theorem unclosed_of_issue {finish : Nat × Nat} {ending : Ending} {chars : List Located}
    {lexemes : List Lexeme} (h : (locate file finish ending chars lexemes).issue = some issue) :
    ∃ opener before rest place, ending = .unclosed opener before rest ∧
      issue = .placed (.unclosed opener) place ∧ place.file = file := by
  induction lexemes generalizing chars with
  | nil =>
    cases ending with
    | complete gap midLine => contradiction
    | unclosed opener before rest =>
      refine ⟨opener, before, rest, _, rfl, (Option.some.inj h).symm, ?_⟩
      cases chars.drop before.length <;> rfl
  | cons lexeme lexemes ih => exact ih h

/-- Where something is left open, there is a token for each lexeme and no other one. -/
theorem kind_of_mem_locate {finish : Nat × Nat} {opener : Opener} {before rest : List Char}
    {chars : List Located} {lexemes : List Lexeme} :
    ∀ token ∈ (locate file finish (.unclosed opener before rest) chars lexemes).tokens,
      ∃ lexeme ∈ lexemes, token.kind = lexeme.kind := by
  intro token hm
  have hunplaced :=
    (unplaced_locate file finish (.unclosed opener before rest) chars lexemes).1
  have hin : token.unplaced ∈ _ := List.mem_map_of_mem hm
  rw [hunplaced, Ending.tokens, List.append_nil] at hin
  obtain ⟨lexeme, hl, he⟩ := List.mem_map.1 hin
  exact ⟨lexeme, hl, (congrArg Token.kind he).symm⟩

end Lexed

/-! ## The lines that are read -/

/-- The text of the lines whose newlines are read. -/
def kept (trigraphs : Bool) (file source : String) : String :=
  .ofList (takeLines (lex true trigraphs file source).lastLine source.toList)

/-- The tokens of a text that stops somewhere are those of a shorter one, which has an end, and
others that belong to no line. -/
structure Lexed.StopsBehind (lexed shorter : Lexed) (front tail : List Token) (stop : Token) :
    Prop where
  tokens : lexed.tokens = front ++ tail
  shorter : shorter = ⟨front ++ [stop], none⟩
  inner : ∀ token ∈ front, token.kind ≠ .endOfFile
  newline : ∀ last ∈ front.getLast?, last.kind = .newline
  tail : ∀ token ∈ tail, token.kind ≠ .newline ∧ token.kind ≠ .endOfFile
  stop : stop.kind = .endOfFile

theorem Lexed.lastLine_of_tail {lexed : Lexed} {front tail : List Token} {last : Token}
    (h : lexed.tokens = front ++ [last] ++ tail) (hl : last.kind = .newline)
    (ht : ∀ token ∈ tail, token.kind ≠ .newline) : lexed.lastLine = last.position.line := by
  have htail : tail.filter (·.kind = .newline) = [] :=
    List.filter_eq_nil_iff.2 fun token hm => by simpa using ht token hm
  rw [lastLine, h, List.filter_append, htail, List.append_nil, List.filter_append,
    List.filter_cons_of_pos (by simp [hl]), List.filter_nil, List.getLast?_concat]
  rfl

theorem Lexed.lastLine_of_none {lexed : Lexed} (h : ∀ token ∈ lexed.tokens, token.kind ≠ .newline) :
    lexed.lastLine = 0 := by
  have hnone : lexed.tokens.filter (·.kind = .newline) = [] :=
    List.filter_eq_nil_iff.2 fun token hm => by simpa using h token hm
  rw [lastLine, hnone]
  rfl

theorem lex_eq {directives : Bool} {chars : List Located} {division : Division}
    (hs : splice trigraphs source.toList = chars)
    (hd : divide directives (.lineStart false) (Lexed.spelling chars) = division) :
    lex directives trigraphs file source =
      Lexed.locate file (finish chars) division.ending chars division.lexemes := by
  subst hs hd
  rfl

theorem lex_empty (directives trigraphs : Bool) (file : String) :
    lex directives trigraphs file (.ofList []) =
      ⟨[.endOfFile ⟨file, 1, 1⟩ false], none⟩ := by
  have hs : splice trigraphs (String.ofList []).toList = [] := by
    rw [String.toList_ofList, splice, spliceFrom_nil]
  rw [lex_eq hs (divide_nil directives (.lineStart false))]
  rfl

/-- The lexemes of a text up to the last newline, and the others. -/
theorem exists_split (lexemes : List Lexeme) :
    ∃ front tail, lexemes = front ++ tail ∧ (∀ last ∈ front.getLast?, last.kind = .newline) ∧
      ∀ lexeme ∈ tail, lexeme.kind ≠ .newline := by
  let inner (lexeme : Lexeme) : Bool := lexeme.kind ≠ .newline
  refine ⟨lexemes.rdropWhile inner, lexemes.rtakeWhile inner,
    List.rdropWhile_append_rtakeWhile.symm, fun last hm => ?_, fun lexeme hm => ?_⟩
  · have hne : lexemes.rdropWhile inner ≠ [] := by
      intro he
      rw [he] at hm
      contradiction
    have hlast := List.rdropWhile_last_not inner lexemes hne
    rw [List.getLast?_eq_some_getLast hne] at hm
    rw [Option.some.inj hm] at hlast
    simpa [inner] using hlast
  · simpa [inner] using List.mem_rtakeWhile_imp hm

/-- A text without a newline stops in front of its first line. -/
theorem stopsBehind_nil (h : ∀ token ∈ (lex true trigraphs file source).tokens,
    token.kind ≠ .newline ∧ token.kind ≠ .endOfFile) :
    (lex true trigraphs file source).StopsBehind
      (lex true trigraphs file (kept trigraphs file source)) []
      (lex true trigraphs file source).tokens (.endOfFile ⟨file, 1, 1⟩ false) := by
  refine ⟨rfl, ?_, List.forall_mem_nil _, fun _ hm => absurd hm (Option.not_mem_none _), h, rfl⟩
  rw [kept, Lexed.lastLine_of_none fun token hm => (h token hm).1, takeLines_zero]
  exact lex_empty true trigraphs file

/-- What is read of a text in which something is left open is read of the lines whose newlines are
read. -/
theorem lex_kept (h : (lex true trigraphs file source).issue = some issue) :
    ∃ front tail stop, (lex true trigraphs file source).StopsBehind
      (lex true trigraphs file (kept trigraphs file source)) front tail stop := by
  obtain ⟨chars, hchars⟩ : ∃ chars, splice trigraphs source.toList = chars := ⟨_, rfl⟩
  obtain ⟨⟨lexemes, ending⟩, hd⟩ :
    ∃ division, divide true (.lineStart false) (Lexed.spelling chars) = division := ⟨_, rfl⟩
  have hlex : lex true trigraphs file source =
      Lexed.locate file (finish chars) ending chars lexemes := lex_eq hchars hd
  have hends := @kind_ne_of_mem_divide true (.lineStart false) (Lexed.spelling chars)
  have htext := @text_ne_nil_of_mem_divide true (.lineStart false) (Lexed.spelling chars)
  have hnewline := @newline_of_mem_divide true (.lineStart false) (Lexed.spelling chars)
  rw [hd] at hends htext hnewline
  rw [hlex] at h
  obtain ⟨opener, before, rest, -, rfl, -⟩ := Lexed.unclosed_of_issue h
  have hinner : ∀ token ∈ (lex true trigraphs file source).tokens, token.kind ≠ .endOfFile := by
    intro token hm
    rw [hlex] at hm
    obtain ⟨lexeme, hl, hk⟩ := Lexed.kind_of_mem_locate token hm
    exact hk ▸ hends lexeme hl
  obtain ⟨front, tail, rfl, hfront, htail⟩ := exists_split lexemes
  obtain ⟨behind, hb, hdivide, -⟩ := divide_front hd hfront
  obtain ⟨chars, more, rfl, hspelling, -⟩ := Lexed.exists_of_spelling_append hb
  have hrest : ∀ token ∈ (Lexed.locate file (finish (chars ++ more)) (.unclosed opener before rest)
      more tail).tokens, token.kind ≠ .newline := by
    intro token hm
    obtain ⟨lexeme, hl, hk⟩ := Lexed.kind_of_mem_locate token hm
    exact hk ▸ htail lexeme hl
  rcases List.eq_nil_or_concat front with rfl | ⟨init, last, rfl⟩
  · obtain rfl : chars = [] := List.map_eq_nil_iff.1 hspelling
    exact ⟨_, _, _, stopsBehind_nil fun token hm => ⟨hrest token (hlex ▸ hm), hinner token hm⟩⟩
  · rw [List.concat_eq_append] at *
    have hlast : last.kind = .newline := hfront last List.getLast?_concat
    obtain ⟨tokens, token, front, newline, hkind, rfl, hn, hline, hlocate⟩ :=
      Lexed.exists_locate_newline file hspelling (fun lexeme hm => htext lexeme (by simp [hm]))
        (hnewline last (by simp) hlast)
    have htoken : token.kind = .newline := hkind.trans hlast
    rw [hlocate] at hlex
    have htokens := congrArg Lexed.tokens hlex
    rw [htokens] at hinner
    -- The newline stands at the end of a line, and the lines up to there have its logical text.
    have hshort : splice trigraphs (kept trigraphs file source).toList = front ++ [newline] := by
      rw [kept, Lexed.lastLine_of_tail htokens htoken hrest, hline, String.toList_ofList]
      exact splice_takeLines hn (hchars.trans (List.append_assoc front [newline] more))
    have hcontext : ((Context.lineStart false).behind (init ++ [last])).midLine = false := by
      rw [Context.behind_concat, hlast]
      rfl
    rw [hcontext, ← hspelling] at hdivide
    have hend := hlocate (finish (front ++ [newline])) (.complete [] false) [] []
    rw [List.append_nil, List.append_nil] at hend
    refine ⟨tokens ++ [token], _, _, ⟨htokens, (lex_eq hshort hdivide).trans hend,
      fun other hm => hinner other (List.mem_append_left _ hm), fun other hm => ?_,
      fun other hm => ⟨hrest other hm, hinner other (List.mem_append_right _ hm)⟩, rfl⟩⟩
    rw [List.getLast?_concat] at hm
    exact Option.some.inj hm ▸ htoken

/-! ## What is read of the file -/

/-- The lines of a text that stops somewhere are those of the shorter one. -/
theorem Lexed.StopsBehind.lines {lexed shorter : Lexed} {front tail : List Token} {stop : Token}
    (h : lexed.StopsBehind shorter front tail stop) :
    Lines.ofTokens lexed.tokens = ⟨(Lines.ofTokens shorter.tokens).lines, none⟩ ∧
      (Lines.ofTokens shorter.tokens).finish = some stop.position := by
  obtain ⟨htokens, hshorter, hinner, hnewline, htail, hstop⟩ := h
  have hlines := Lines.divideFrom_append (fun _ => rfl) hinner hnewline stop hstop tail
  have hrest := Lines.divideFrom_inner [] htail []
  rw [List.append_nil] at hrest
  rw [hrest, Lines.divideFrom, List.append_nil, ← htokens] at hlines
  have hfront : front.find? (·.kind = .endOfFile) = none :=
    List.find?_eq_none.2 fun token hm => by simpa using hinner token hm
  have hnone : lexed.tokens.find? (·.kind = .endOfFile) = none := by
    rw [htokens, List.find?_append, hfront]
    exact List.find?_eq_none.2 fun token hm => by simpa using (htail token hm).2
  have hfinish := finish_divideFrom [] lexed.tokens
  rw [hnone] at hfinish
  subst hshorter
  refine ⟨congrArg₂ Lines.mk hlines hfinish, ?_⟩
  rw [Lines.ofTokens, finish_divideFrom, List.find?_append, hfront,
    List.find?_cons_of_pos (by simp [hstop])]
  rfl

variable {frame : Frame}

/-- As a whole the file is what it is without the lines that are not finished, but for its end. -/
theorem ofSource_kept
    (h : (lex true options.trigraphs frame.filename source).issue = some issue) :
    ∃ lines place, Remainder.ofSource options frame source = ⟨lines, some issue, none⟩ ∧
      Remainder.ofSource options frame (kept options.trigraphs frame.filename source) =
        ⟨lines, none, some place⟩ := by
  obtain ⟨front, tail, stop, hstops⟩ := lex_kept h
  obtain ⟨hlines, hfinish⟩ := hstops.lines
  refine ⟨(Lines.ofTokens (lex true options.trigraphs frame.filename
    (kept options.trigraphs frame.filename source)).tokens).lines, stop.position, ?_, ?_⟩
  · rw [Remainder.ofSource, hlines, h]
  · rw [Remainder.ofSource, hfinish, hstops.shorter]

/-- What is read where a line includes a file. -/
theorem readLines_included {enter : SourceFile.Enter} {session : Session} {line : Line}
    {hash keyword : Token} {operands : List Token} {top : Frame} {included : Included}
    (ht : line.tokens = hash :: keyword :: operands) (hk : hash.kind = .directiveHash)
    (htop : (session.moveTo line.stop).stack.top? = some top) {outcome : Outcome}
    (ho : Directive.execute files options (session.moveTo line.stop) top hash keyword operands =
      outcome) (hr : outcome.result = .ok (some included)) (rest : List Line) :
    let inner := enter outcome.session included.frame included.source
    inner.halt = none →
    SourceFile.readLines files options enter session (line :: rest) =
      (SourceFile.readLines files options enter inner.session.leave rest).after
        (outcome.raised.map .issue ++ inner.items) := by
  intro inner hn
  simp only [SourceFile.readLines, SourceFile.readLine, ht, htop, if_pos hk, ho,
    SourceFile.follow, hr]
  let left := Reading.raising outcome.raised { inner with session := inner.session.leave }
  have hleft : left.halt = none := hn
  exact Reading.andThen_of_none hleft _

/-- Either reading is broken off in the lines that are finished, or it comes to the issue behind
them. -/
theorem readFile_kept (files : Files.Tree)
    (h : (lex true options.trigraphs frame.filename source).issue = some issue) (room : Nat)
    (session : Session) :
    let whole := SourceFile.readFile files options (room + 1) session frame source
    let alone := SourceFile.readFile files options (room + 1) session frame
      (kept options.trigraphs frame.filename source)
    (∃ fault, alone.halt = some fault ∧ whole = alone) ∨
      ∃ items final place, whole = ⟨items ++ [.issue issue], final, none⟩ ∧
        alone = ⟨items, final.moveTo place, none⟩ := by
  obtain ⟨lines, place, hwhole, hkept⟩ := ofSource_kept h
  rw [readFile_succ, readFile_succ, hwhole, hkept]
  dsimp only
  generalize SourceFile.readLines files options (SourceFile.readFile files options room)
    (session.enter frame) lines = body
  cases hh : body.halt with
  | some fault =>
    simp only [Reading.andThen_of_some hh]
    exact .inl ⟨fault, hh, trivial⟩
  | none =>
    simp only [Reading.andThen_of_none hh]
    exact .inr ⟨body.items, body.session, place, rfl,
      congrArg (fun items => Reading.mk items _ none) (List.append_nil _)⟩

/-- What is read of a file in which something is left open: of the lines whose newlines are read,
what is read if there are no others, and one issue behind that. Where reading is broken off in those
lines it does not come to the issue. -/
structure CutShort (files : Files.Tree) (options : Options) (frame : Frame) (source : String)
    (issue : Issue) : Prop where
  /-- The issue is that something is left open in the file. -/
  lexical : ∃ opener place, issue = .placed (.unclosed opener) place ∧ place.file = frame.filename
  /-- The lines are the first ones of the file. -/
  front : ∃ behind, source = kept options.trigraphs frame.filename source ++ behind
  /-- They have all newlines of the file, and can be read to their end. -/
  tokens : ∃ front tail stop, (lex true options.trigraphs frame.filename source).StopsBehind
    (lex true options.trigraphs frame.filename
      (kept options.trigraphs frame.filename source)) front tail stop
  items : ∀ room session,
    (SourceFile.readFile files options (room + 1) session frame
      (kept options.trigraphs frame.filename source)).halt = none →
    (SourceFile.readFile files options (room + 1) session frame source).items =
      (SourceFile.readFile files options (room + 1) session frame
        (kept options.trigraphs frame.filename source)).items ++ [.issue issue]
  session : ∀ room session,
    (SourceFile.readFile files options (room + 1) session frame source).session.leave =
      (SourceFile.readFile files options (room + 1) session frame
        (kept options.trigraphs frame.filename source)).session.leave
  halt : ∀ room session,
    (SourceFile.readFile files options (room + 1) session frame source).halt =
      (SourceFile.readFile files options (room + 1) session frame
        (kept options.trigraphs frame.filename source)).halt
  broken : ∀ room session fault,
    (SourceFile.readFile files options (room + 1) session frame
      (kept options.trigraphs frame.filename source)).halt = some fault →
    SourceFile.readFile files options (room + 1) session frame source =
      SourceFile.readFile files options (room + 1) session frame
        (kept options.trigraphs frame.filename source)
  /-- As a main file it ends as the lines alone do. -/
  main : ∀ session,
    let alone :=
      SourceFile.read files options session frame (kept options.trigraphs frame.filename source)
    (alone.halt = none → ∃ items final place reached,
      alone = ⟨items ++ [.text final [.endOfFile place]], final, none⟩ ∧
        SourceFile.read files options session frame source =
          ⟨items ++ [.issue issue, .text final [.endOfFile reached]], final, none⟩) ∧
      ∀ fault, alone.halt = some fault →
        SourceFile.read files options session frame source = alone
  /-- A file that includes it is read on behind the line of the include. -/
  included : ∀ (included : Included) (room : Nat) (session : Session) (line : Line)
    (rest : List Line) (hash keyword : Token) (operands : List Token) (top : Frame),
    included.frame = frame → included.source = source →
    line.tokens = hash :: keyword :: operands → hash.kind = .directiveHash →
    (session.moveTo line.stop).stack.top? = some top →
    let outcome :=
      Directive.execute files options (session.moveTo line.stop) top hash keyword operands
    let enter := SourceFile.readFile files options (room + 1)
    let inner := enter outcome.session frame (kept options.trigraphs frame.filename source)
    outcome.result = .ok (some included) → inner.halt = none →
    SourceFile.readLines files options enter session (line :: rest) =
      (SourceFile.readLines files options enter inner.session.leave rest).after
        (outcome.raised.map .issue ++ inner.items ++ [.issue issue])

/-- A lexical error costs the line that is not finished and the rest of its file. -/
theorem cut_short (files : Files.Tree)
    (h : (lex true options.trigraphs frame.filename source).issue = some issue) :
    CutShort files options frame source issue := by
  have hread := readFile_kept files h
  have hitems (room : Nat) (session : Session)
      (hn : (SourceFile.readFile files options (room + 1) session frame
        (kept options.trigraphs frame.filename source)).halt = none) :
      (SourceFile.readFile files options (room + 1) session frame source).items =
        (SourceFile.readFile files options (room + 1) session frame
          (kept options.trigraphs frame.filename source)).items ++ [.issue issue] := by
    obtain ⟨fault, hh, -⟩ | ⟨items, final, place, hwhole, halone⟩ := hread room session
    · exact absurd (hn.symm.trans hh) nofun
    · rw [hwhole, halone]
  have hsession (room : Nat) (session : Session) :
      (SourceFile.readFile files options (room + 1) session frame source).session.leave =
        (SourceFile.readFile files options (room + 1) session frame
          (kept options.trigraphs frame.filename source)).session.leave := by
    obtain ⟨-, -, he⟩ | ⟨items, final, place, hwhole, halone⟩ := hread room session
    · rw [he]
    · rw [hwhole, halone]
      exact (Session.leave_reachEnd final (some place)).symm
  have hhalt (room : Nat) (session : Session) :
      (SourceFile.readFile files options (room + 1) session frame source).halt =
        (SourceFile.readFile files options (room + 1) session frame
          (kept options.trigraphs frame.filename source)).halt := by
    obtain ⟨-, -, he⟩ | ⟨items, final, place, hwhole, halone⟩ := hread room session
    · rw [he]
    · rw [hwhole, halone]
  refine ⟨?_, ?_, lex_kept h, hitems, hsession, hhalt, fun room session fault hh => ?_,
    fun session => ?_, ?_⟩
  · obtain ⟨opener, _, _, place, -, hissue⟩ := Lexed.unclosed_of_issue h
    exact ⟨opener, place, hissue⟩
  · obtain ⟨behind, hb⟩ := takeLines_prefix
      (lex true options.trigraphs frame.filename source).lastLine source.toList
    refine ⟨.ofList behind, ?_⟩
    rw [kept, ← String.ofList_append, hb, String.ofList_toList]
  · obtain ⟨-, -, he⟩ | ⟨items, final, place, -, halone⟩ := hread room session
    · exact he
    · rw [halone] at hh
      contradiction
  · obtain ⟨room, hroom⟩ := Nat.exists_eq_add_one.2 options.depthLimit_pos
    unfold SourceFile.read
    rw [hroom]
    have hr := hread room session
    dsimp only at hr ⊢
    generalize SourceFile.readFile files options (room + 1) session frame source = whole at hr ⊢
    generalize SourceFile.readFile files options (room + 1) session frame
      (kept options.trigraphs frame.filename source) = alone at hr ⊢
    obtain ⟨fault, hh, rfl⟩ | ⟨items, final, place, rfl, rfl⟩ := hr
    · have hleft : ({ whole with session := whole.session.leave } : Reading).halt = some fault := hh
      rw [Reading.andThen_of_some hleft]
      exact ⟨fun hn => absurd (hn.symm.trans hh) nofun, fun _ _ => rfl⟩
    · have hleave : (final.moveTo place).leave = final.leave :=
        Session.leave_reachEnd final (some place)
      rw [Reading.andThen_of_none rfl, Reading.andThen_of_none rfl, hleave]
      refine ⟨fun _ => ⟨items, final.leave, SourceFile.reached (final.moveTo place) frame,
        SourceFile.reached final frame, rfl, ?_⟩, nofun⟩
      exact congrArg (fun items => Reading.mk items final.leave none) (List.append_assoc _ _ _)
  · rintro included room session line rest hash keyword operands top rfl rfl ht hk htop outcome
      enter inner hr hn
    have hwhole := (hhalt room outcome.session).trans hn
    rw [readLines_included ht hk htop rfl hr rest hwhole, hitems _ _ hn, hsession,
      ← List.append_assoc]

/-- A string that is open at the end of its line costs the definition it stands in. -/
theorem cut_short_directive :
    let source := "a\n#define B \"x\nb\n"
    let issue := Issue.placed (.unclosed .string) ⟨"m", 2, 11⟩
    (lex true false "m" source).issue = some issue ∧
      CutShort ⟨.directory [], []⟩ {} ⟨"m", "m", none, .start "m"⟩ source issue := by
  intro source issue
  have hissue : (lex true false "m" source).issue = some issue := by decide +kernel
  exact ⟨hissue, cut_short ⟨.directory [], []⟩ hissue⟩

end CPreprocessor

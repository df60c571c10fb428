import CPreprocessor.Proofs.Interleaving
import CPreprocessor.Proofs.Lexeme.Cover
import CPreprocessor.Proofs.Literal.Normal
import CPreprocessor.Proofs.Macro.Equivalent
import CPreprocessor.Proofs.Pipeline
import CPreprocessor.Proofs.Unplaced.Run

/-!
# Text that passes through

A source without directives, none of whose names is replaced, comes out as the scanner gives it, its
string literals merged.

* `expand_of_passes`: tokens that are passed on one by one are passed on together.
* `exists_lines`: the lines of a file that leaves nothing open hold all its tokens, the last line
  too if no newline ends it.
* `stretchesFrom_plain`, `leave_readLines_plain`: lines of text are one stretch and change nothing.
* `read_plain`, `ofFrame_plain`: what a file of text is expanded to, and what comes out of it.
* `plain_text_passes`: all of it, for a run.
-/

namespace CPreprocessor

open Expansion Include Interleaving

/-! ## Tokens -/

theorem Macro.Table.find?_eq_none {table : Macro.Table} {name : String} (h : name ∉ table.names) :
    table.find? name = none := by
  refine List.find?_eq_none.2 fun definition hm hn => h ?_
  rw [← of_decide_eq_true hn]
  exact List.mem_map_of_mem hm

/-- A name that stands for nothing is passed on. -/
theorem Expansion.passes_of_name {table : Macro.Table} {token : Token}
    (hb : token.text ∉ Macro.builtinNames) (hn : token.text ∉ table.names) :
    Passes table token := by
  have hsame : builtin token = token := by
    have hf : token.text ≠ "__FILE__" := fun h => hb (by simp [h, Macro.builtinNames])
    have hl : token.text ≠ "__LINE__" := fun h => hb (by simp [h, Macro.builtinNames])
    rw [builtin, if_neg hf, if_neg hl]
  intro more rest
  rw [step, Macro.Table.find?_eq_none hn]
  split
  · rw [hsame]
  · rfl

theorem Expansion.expand_of_passes {table : Macro.Table} {tokens : List Token}
    (h : ∀ token ∈ tokens, Passes table token) : expand table tokens = tokens.map .token := by
  induction tokens with
  | nil =>
    unfold expand
    rw [drain_nil]
    rfl
  | cons token rest ih =>
    obtain ⟨hfirst, hrest⟩ := List.forall_mem_cons.1 h
    rw [expand_cons_of_passes hfirst, ih hrest]
    rfl

theorem Emission.filterMap_token?_eq (emissions : List Emission) :
    emissions.filterMap Emission.token? =
      (emissions.map Emission.event).filterMap Event.token? := by
  rw [List.filterMap_map]
  congr
  funext emission
  cases emission <;> rfl

/-- Literals that are merged hide what the first of them hides. -/
theorem Literal.hide_of_mem_mergeFrom {held : Option Token} {tokens : List Token}
    (hh : ∀ left ∈ held, left.hide = ∅) (ht : ∀ token ∈ tokens, token.hide = ∅) :
    ∀ token ∈ mergeFrom held tokens, token.hide = ∅ := by
  induction tokens generalizing held with
  | nil => exact fun token hm => hh token (Option.mem_toList.1 hm)
  | cons first rest ih =>
    obtain ⟨hfirst, hrest⟩ := List.forall_mem_cons.1 ht
    have hboth : (∀ token ∈ (absorb held first).1, token.hide = ∅) ∧
        ∀ left ∈ (absorb held first).2, left.hide = ∅ := by
      unfold absorb
      split
      · split
        · simpa using hfirst
        · next left =>
          have hleft := hh left rfl
          split
          · next joined hj =>
            unfold join? at hj
            grind
          · simpa using ⟨hleft, hfirst⟩
      · refine ⟨fun token hm => ?_, by simp⟩
        rcases List.mem_append.1 hm with hm | hm
        · exact hh token (Option.mem_toList.1 hm)
        · exact List.mem_singleton.1 hm ▸ hfirst
    intro token hm
    rcases List.mem_append.1 hm with hm | hm
    · exact hboth.1 token hm
    · exact ih hboth.2 hrest token hm

/-! ## Lines -/

/-- The lines of tokens hold all of them if a newline is put behind a line that has begun. -/
theorem tokens_divideFrom (current : List Token) (midLine : Bool) {real : List Token}
    (hc : midLine = false → current = []) (he : ∀ token ∈ real, token.kind ≠ .endOfFile)
    (stop : Position) (space : Bool) :
    let lines := Lines.divideFrom current
      (real ++ Lexed.closing stop (Lexed.midLineBehind midLine real) ++ [.endOfFile stop space])
    lines.lines.flatMap Line.tokens = current ++ real.filter (·.kind ≠ .newline) ∧
      lines.finish = some stop := by
  induction real generalizing current midLine with
  | nil =>
    cases midLine with
    | true => exact ⟨rfl, rfl⟩
    | false =>
      obtain rfl := hc rfl
      exact ⟨rfl, rfl⟩
  | cons token rest ih =>
    obtain ⟨hfirst, hrest⟩ := List.forall_mem_cons.1 he
    rw [Lexed.midLineBehind_cons, List.cons_append, List.cons_append, Lines.divideFrom]
    split
    · next hk =>
      obtain ⟨hl, hf⟩ := ih [] (token.kind ≠ .newline) (fun _ => rfl) hrest
      refine ⟨?_, hf⟩
      rw [List.filter_cons_of_neg (by simp [hk])]
      exact congrArg (current ++ ·) hl
    · next hk => exact absurd hk hfirst
    · next hk _ =>
      have hword : token.kind ≠ .newline := hk
      obtain ⟨hl, hf⟩ := ih (current ++ [token]) (token.kind ≠ .newline)
        (fun h => absurd hword (of_decide_eq_false h)) hrest
      refine ⟨?_, hf⟩
      rw [List.filter_cons_of_pos (by simp [hword]), hl, List.append_assoc]
      rfl

/-- The lines of a file that leaves nothing open hold its words, and its end is where its last
token stands. -/
theorem exists_lines {options : Options} {frame : Frame} {source : String}
    (h : (lex true options.trigraphs frame.filename source).issue = none) :
    ∃ stop, (lex true options.trigraphs frame.filename source).tokens.getLast? = some stop ∧
      stop.kind = .endOfFile ∧ (linesOf options frame source).finish = some stop.position ∧
      (linesOf options frame source).lines.flatMap Line.tokens =
        (lex true options.trigraphs frame.filename source).words := by
  obtain ⟨account⟩ : Nonempty (Lexed.Account frame.filename false
      (Source.splice options.trigraphs source.toList)
      (lex true options.trigraphs frame.filename source).tokens) := Lexed.account_locate rfl h
  unfold linesOf Lines.ofTokens Lexed.words
  rw [account.tokens_eq]
  have hinner := Lexed.inner_of_covers account.covers
  obtain ⟨hl, hf⟩ := tokens_divideFrom [] false (fun _ => rfl) hinner account.stop
    (!account.tail.isEmpty)
  refine ⟨_, List.getLast?_concat, rfl, hf, hl.trans ?_⟩
  have hclosing : (Lexed.closing account.stop (Lexed.midLineBehind false account.real) ++
      [Token.endOfFile account.stop !account.tail.isEmpty]).filter
        (fun token => token.kind ≠ .newline && token.kind ≠ .endOfFile) = [] := by
    unfold Lexed.closing
    split <;> rfl
  rw [List.append_assoc, List.filter_append, hclosing, List.append_nil]
  exact List.filter_congr fun token hm => by simp [hinner token hm]

/-! ## Runs -/

section Plain

variable {files : Files.Tree} {options : Options} {frame : Frame} {lines : List Line}

variable (files options frame) in
theorem stretchesFrom_plain (session : Session) (reported : List Issue) (current : List Token)
    (h : ∀ line ∈ lines, ¬line.isDirective) :
    stretchesFrom files options frame session reported current lines =
      [⟨reported, session.macros, current ++ lines.flatMap Line.tokens⟩] := by
  induction lines generalizing current with
  | nil => rw [stretchesFrom, List.flatMap_nil, List.append_nil]
  | cons line rest ih =>
    obtain ⟨hfirst, hrest⟩ := List.forall_mem_cons.1 h
    rw [stretchesFrom, if_neg hfirst, ih _ hrest, List.flatMap_cons, List.append_assoc]

theorem leave_moveTo (session : Session) (position : Position) :
    (session.moveTo position).leave = session.leave := by
  obtain ⟨macros, ⟨limit, frames⟩, trace, pragmas, once⟩ := session
  cases frames <;> rfl

/-- A line of text is left in the session that it is read in. -/
theorem readLine_plain (enter : SourceFile.Enter) (session : Session) {line : Line}
    (h : ¬line.isDirective) :
    SourceFile.readLine files options enter session line.tokens =
      ⟨[.text session line.tokens], session, none⟩ := by
  unfold SourceFile.readLine
  split
  · next hash operands frame htokens _ =>
    rw [if_neg]
    simpa [Line.isDirective, htokens] using h
  · rfl

theorem leave_readLines_plain (enter : SourceFile.Enter) (session : Session)
    (h : ∀ line ∈ lines, ¬line.isDirective) :
    (SourceFile.readLines files options enter session lines).session.leave = session.leave := by
  induction lines generalizing session with
  | nil => rfl
  | cons line rest ih =>
    obtain ⟨hfirst, hrest⟩ := List.forall_mem_cons.1 h
    rw [SourceFile.readLines, readLine_plain enter _ hfirst]
    exact (ih _ hrest).trans (leave_moveTo session line.stop)

/-- A file of text, in which nothing is replaced, is expanded to its words and its end, and leaves
the session as it is. -/
theorem read_plain (files : Files.Tree) (session : Session) {source : String}
    (hl : (lex true options.trigraphs frame.filename source).issue = none)
    (hd : ∀ line ∈ (linesOf options frame source).lines, ¬line.isDirective)
    (hp : ∀ word ∈ (lex true options.trigraphs frame.filename source).words,
      Passes session.macros word) :
    ∃ stop, (lex true options.trigraphs frame.filename source).tokens.getLast? = some stop ∧
      stop.kind = .endOfFile ∧
      (Emission.expandFrom none (SourceFile.read files options session frame source).items).map
          Emission.event =
        (lex true options.trigraphs frame.filename source).words.map .token ++
          [.token (.endOfFile stop.position)] ∧
      (SourceFile.read files options session frame source).session = session ∧
      (SourceFile.read files options session frame source).halt = none := by
  have hi : ∀ line ∈ (linesOf options frame source).lines, ¬line.isInclude :=
    fun line hm => mt Line.isDirective_of_isInclude (hd line hm)
  obtain ⟨stop, hlast, hk, hf, hwords⟩ := exists_lines hl
  obtain ⟨enter, place, hplace, hread⟩ := exists_read files session hl hi
  obtain rfl : stop.position = place := Option.some.inj (hf.symm.trans hplace)
  let reading := SourceFile.readLines files options enter (session.enter frame)
    (linesOf options frame source).lines
  have hfinal : (reading.session.moveTo stop.position).leave = session :=
    (leave_moveTo _ _).trans (leave_readLines_plain enter (session.enter frame) hd)
  have hlone := stretchesFrom_plain files options frame session [] [] hd
  rw [List.nil_append, hwords] at hlone
  have hsettled : ∀ stretch ∈ (stretchesFrom files options frame session [] []
      (linesOf options frame source).lines).dropLast,
        Settled stretch.macros stretch.tokens := by
    rw [hlone]
    exact List.forall_mem_nil _
  have hevents := events_readLines enter (reading.session.moveTo stop.position).leave
    (.endOfFile stop.position) [] [] (moved_enter session frame) hi hsettled rfl
    (macros_moveTo_leave _ _)
  rw [hlone, drain_nil, List.flatMap_singleton, Stretch.events, expand_of_passes hp] at hevents
  rw [hread]
  exact ⟨stop, hlast, hk, hevents, hfinal, rfl⟩

/-- A run over such a file gives its words, merged, and its end, and reports nothing. -/
theorem ofFrame_plain (files : Files.Tree) (session : Session) {source : String}
    (hl : (lex true options.trigraphs frame.filename source).issue = none)
    (hd : ∀ line ∈ (linesOf options frame source).lines, ¬line.isDirective)
    (hp : ∀ word ∈ (lex true options.trigraphs frame.filename source).words,
      Passes session.macros word) :
    ∃ stop, (lex true options.trigraphs frame.filename source).tokens.getLast? = some stop ∧
      stop.kind = .endOfFile ∧
      (Run.ofFrame files options session frame source).tokens =
        Literal.merge (lex true options.trigraphs frame.filename source).words ++
          [.endOfFile stop.position] ∧
      (Run.ofFrame files options session frame source).issues = [] ∧
      (Run.ofFrame files options session frame source).session = session ∧
      (Run.ofFrame files options session frame source).halt = none := by
  obtain ⟨stop, hlast, hk, hout, hsession, hhalt⟩ := read_plain files session hl hd hp
  refine ⟨stop, hlast, hk, ?_, ?_, hsession, hhalt⟩
  · rw [Run.ofFrame, Run.tokens_ofReading, hhalt, Emission.filterMap_token?_eq, hout,
      List.filterMap_append, List.filterMap_map, Option.isNone_none, Literal.mergePart_true]
    refine (Literal.mergeFrom_append_cons none _ (by simp [Token.endOfFile]) []).trans ?_
    exact congrArg (Literal.merge · ++ _) List.filterMap_some
  · rw [Run.issues, Run.ofFrame, Run.ofReading]
    dsimp only
    rw [Emission.filterMap_issue?_mergeFrom, Emission.filterMap_issue?_eq, hout,
      List.filterMap_append, List.filterMap_map]
    exact (List.append_nil _).trans (List.filterMap_eq_nil_iff.2 fun _ _ => rfl)

/-- Without the mark of a directive among the tokens no line is one. -/
theorem not_isDirective_of_mark {source : String}
    (hl : (lex true options.trigraphs frame.filename source).issue = none)
    (hd : ∀ word ∈ (lex true options.trigraphs frame.filename source).words,
      word.kind ≠ .directiveHash) :
    ∀ line ∈ (linesOf options frame source).lines, ¬line.isDirective := by
  obtain ⟨-, -, -, -, hwords⟩ := exists_lines hl
  intro line hline hdirective
  obtain ⟨hash, hh, hk⟩ := (Option.any_eq_true _ _).1 hdirective
  have hin := List.mem_flatMap.2 ⟨line, hline, List.mem_of_mem_head? hh⟩
  exact hd hash (hwords ▸ hin) (of_decide_eq_true hk)

/-- A run starts without a trace and without pragmas. -/
theorem trace_of_initial {session : Session} (h : Session.initial options = .ok session) :
    session.trace = [] ∧ session.pragmas = [] := by
  rw [(ready_of_initial h).2]
  exact ⟨rfl, rfl⟩

end Plain

theorem filename_of_mainFrame {files : Files.Tree} {filename : String} {frame : Frame}
    (h : SourceFile.mainFrame files filename = .ok frame) : frame.filename = filename := by
  unfold SourceFile.mainFrame at h
  split at h
  · obtain rfl := Except.ok.inj h
    rfl
  · cases hn : (Files.Path.ofString filename).nameable with
    | error fault => simp [hn, bind, Except.bind] at h
    | ok path =>
      simp only [hn, bind, Except.bind, pure, Except.pure, Except.ok.injEq] at h
      subst h
      rfl

/-- Input without macros passes through: a source without directives, none of whose names stands
for anything, comes out as its tokens but for the newlines and the end, string literals merged, and
then the end of the file; nothing is reported, included or recorded. -/
theorem plain_text_passes (files : Files.Tree) (options : Options) (session : Session)
    (filename source : String) (hs : Session.initial options = .ok session)
    (hn : '\x00' ∉ filename.toList)
    (hl : (lex true options.trigraphs filename source).issue = none)
    (hd : ∀ token ∈ (lex true options.trigraphs filename source).tokens,
      token.kind ≠ .directiveHash)
    (hm : ∀ token ∈ (lex true options.trigraphs filename source).tokens,
      token.kind = .identifier →
        token.text ∉ Macro.builtinNames ∧ token.text ∉ session.macros.names) :
    let lexed := lex true options.trigraphs filename source
    ∃ run stop, Run.ofSource files options session filename source = .ok run ∧
      lexed.tokens.getLast? = some stop ∧ stop.kind = .endOfFile ∧
      run.tokens = Literal.merge lexed.words ++ [.endOfFile stop.position] ∧
      (∀ token ∈ run.tokens, token.hide = ∅) ∧
      run.issues = [] ∧ run.session.trace = [] ∧ run.session.pragmas = [] ∧ run.halt = none := by
  intro lexed
  obtain ⟨frame, hframe⟩ := exists_mainFrame files hn
  obtain rfl := filename_of_mainFrame hframe
  have hword : ∀ word ∈ lexed.words, word ∈ lexed.tokens := fun word hw => (List.mem_filter.1 hw).1
  have hpasses : ∀ word ∈ lexed.words, Passes session.macros word := by
    intro word hw
    by_cases hk : word.kind = .identifier
    · obtain ⟨hb, hnames⟩ := hm word (hword word hw) hk
      exact passes_of_name hb hnames
    · exact passes_of_kind hk
  have hlines := not_isDirective_of_mark hl fun word hw => hd word (hword word hw)
  obtain ⟨stop, hlast, hk, htokens, hissues, hsession, hhalt⟩ :=
    ofFrame_plain files session hl hlines hpasses
  obtain ⟨htrace, hpragmas⟩ := trace_of_initial hs
  refine ⟨Run.ofFrame files options session frame source, stop, ?_, hlast, hk, htokens, ?_,
    hissues, (congrArg Session.trace hsession).trans htrace,
    (congrArg Session.pragmas hsession).trans hpragmas, hhalt⟩
  · rw [Run.ofSource, hframe]
    rfl
  · rw [htokens]
    intro token hin
    rcases List.mem_append.1 hin with hin | hin
    · refine Literal.hide_of_mem_mergeFrom (fun left hleft => ?_) (fun word hw => ?_) token hin
      · contradiction
      · exact hide_of_mem_lex (hword word hw)
    · rw [List.mem_singleton.1 hin]
      rfl

/-- A file with an assembly block, literals on two lines, a stray character and no newline behind
its last line. -/
def plainSource : String := "asm \x7b a \x7d f(\"x\" /* and */\n  \"y\") @"

/-- Its two literals come out as one, where the first of them stands. -/
theorem plain_text_passes_literals :
    Session.initial {} = .ok standardSession ∧ '\x00' ∉ "main.c".toList ∧
      (lex true ({} : Options).trigraphs "main.c" plainSource).issue = none ∧
      (∀ token ∈ (lex true ({} : Options).trigraphs "main.c" plainSource).tokens,
        token.kind ≠ .directiveHash) ∧
      (∀ token ∈ (lex true ({} : Options).trigraphs "main.c" plainSource).tokens,
        token.kind = .identifier →
          token.text ∉ Macro.builtinNames ∧ token.text ∉ standardSession.macros.names) ∧
      ∃ run, Run.ofSource ⟨.directory [], []⟩ {} standardSession "main.c" plainSource = .ok run ∧
        run.tokens.map Token.text = ["asm", "\x7b a \x7d", "f", "(", "\"xy\"", ")", "@", ""] ∧
        run.issues = [] := by
  have hs : Session.initial {} = .ok standardSession := initial_standardSession
  have hn : '\x00' ∉ "main.c".toList := by decide
  have hl : (lex true ({} : Options).trigraphs "main.c" plainSource).issue = none := by
    decide +kernel
  have hd : ∀ token ∈ (lex true ({} : Options).trigraphs "main.c" plainSource).tokens,
      token.kind ≠ .directiveHash := by decide +kernel
  have hm : ∀ token ∈ (lex true ({} : Options).trigraphs "main.c" plainSource).tokens,
      token.kind = .identifier →
        token.text ∉ Macro.builtinNames ∧ token.text ∉ standardSession.macros.names := by
    decide +kernel
  obtain ⟨run, stop, hrun, -, -, htokens, -, hissues, -⟩ :=
    plain_text_passes ⟨.directory [], []⟩ {} standardSession "main.c" plainSource hs hn hl hd hm
  refine ⟨hs, hn, hl, hd, hm, run, hrun, ?_, hissues⟩
  have hmerged : (Literal.merge (lex true ({} : Options).trigraphs "main.c"
      plainSource).words).map Token.text =
        ["asm", "\x7b a \x7d", "f", "(", "\"xy\"", ")", "@"] := by decide +kernel
  rw [htokens, List.map_append, hmerged]
  rfl

end CPreprocessor

import CPreprocessor.Proofs.IncludeLine
import CPreprocessor.Proofs.Interleaving
import CPreprocessor.Proofs.Lexeme.Operands
import CPreprocessor.Proofs.Unplaced.Directive

/-!
# Definitions on the command line and in a source

A definition on the command line is read as a text of its own, the same definition in a source as
the operands of a directive. Both make the same macro or none, unless a brace stands directly behind
an asm keyword: on the command line the braces are taken as an assembly block, in a directive they
are punctuators.

* `OnLine`: what fits on one line of a source. `OnLine.ofCommandLine`: how it is read on the command
  line.
* `OnLine.scan_defineLine`, `OnLine.lexemes_operands`: the operands of the line are the lexemes that
  the command line has.
* `rows_of_mark`, `macros_of_lines`: a source that is one directive, and what a run does with it.
* `ofCommandLine_agrees`: both ways make the same macro or none.
-/

namespace CPreprocessor

open Source Lexeme Include Interleaving

namespace Macro

/-! ## The two forms -/

/-- The text of a definition. -/
def definitionText (name parameters value : String) : String :=
  name ++ parameters ++ " " ++ value

/-- The line of a source that defines a macro. -/
def defineLine (name parameters value : String) : String :=
  "#define " ++ definitionText name parameters value

/-- The argument of the command line that defines it. -/
def defineArgument (name parameters value : String) : String :=
  name ++ parameters ++ "=" ++ value

/-- A macro name, behind it something that begins with an opening parenthesis or nothing, and a
value, all on one line. -/
structure OnLine (name parameters value : String) : Prop where
  isName : isName name.toList
  opens : parameters = "" ∨ parameters.toList.head? = some '('
  unsplit : '=' ∉ parameters.toList
  inner : ∀ c ∈ (parameters ++ value).toList, Inner c

variable {name parameters value : String}

theorem exists_of_isName {text : List Char} (h : isName text) :
    ∃ c rest, text = c :: rest ∧ startsName c ∧ ∀ d ∈ rest, Unicode.isWord d := by
  unfold isName afterName? at h
  rw [decide_eq_true_eq] at h
  split at h
  · contradiction
  · next c rest =>
    split at h
    · next hc =>
      refine ⟨c, rest, rfl, hc, fun d hd => ?_⟩
      exact List.dropWhile_eq_nil_iff.1 (Option.some.inj h) d hd
    · contradiction

theorem OnLine.toList_name (h : OnLine name parameters value) :
    ∃ c rest, name.toList = c :: rest ∧ startsName c ∧ ∀ d ∈ rest, Unicode.isWord d :=
  exists_of_isName h.isName

theorem OnLine.isHead (h : OnLine name parameters value) :
    isHead (name ++ parameters).toList := by
  obtain ⟨c, rest, hname, hc, hrest⟩ := h.toList_name
  have hdrop : parameters.toList.dropWhile Unicode.isWord = parameters.toList := by
    rcases h.opens with rfl | hp
    · rfl
    · obtain ⟨more, hp⟩ := List.head?_eq_some_iff.1 hp
      have hword : Unicode.isWord '(' = false := by decide +kernel
      rw [hp, List.dropWhile_cons_of_neg (by simp [hword])]
  rw [Macro.isHead, String.toList_append, hname, List.cons_append, afterName?, if_pos hc,
    List.dropWhile_append_of_pos hrest, hdrop]
  rcases h.opens with rfl | hp
  · rfl
  · simp [hp]

theorem OnLine.splitDefinition (h : OnLine name parameters value) :
    splitDefinition (defineArgument name parameters value).toList =
      ((name ++ parameters).toList, value.toList) := by
  obtain ⟨c, rest, hname, hc, hrest⟩ := h.toList_name
  have hkeep : ∀ d ∈ (name ++ parameters).toList, decide (d ≠ '=') = true := by
    intro d hd
    refine decide_eq_true ?_
    rintro rfl
    rw [String.toList_append, hname] at hd
    rcases List.mem_append.1 hd with hd | hd
    · rcases List.mem_cons.1 hd with rfl | hd
      · contradiction
      · exact absurd (hrest _ hd) (by decide +kernel)
    · exact h.unsplit hd
  have htext : (defineArgument name parameters value).toList =
      (name ++ parameters).toList ++ '=' :: value.toList := by
    simp [defineArgument, String.toList_append]
  rw [Macro.splitDefinition, htext, List.dropWhile_append_of_pos hkeep,
    List.takeWhile_append_of_pos hkeep]
  simp

theorem OnLine.inner_toList (h : OnLine name parameters value) :
    ∀ c ∈ (definitionText name parameters value).toList, Inner c := by
  obtain ⟨c, rest, hname, hc, hrest⟩ := h.toList_name
  have hword {d : Char} (hd : Unicode.isWord d) : Inner d := by
    constructor
    · rintro rfl
      exact absurd hd (by decide +kernel)
    · rintro rfl
      exact absurd hd (by decide +kernel)
  have hstart : Inner c := by
    constructor
    · rintro rfl
      exact absurd hc (by decide)
    · rintro rfl
      exact absurd hc (by decide)
  have hinner := h.inner
  simp only [definitionText, String.toList_append, List.mem_append, hname] at hinner ⊢
  rintro d (((hd | hd) | hd) | hd)
  · rcases List.mem_cons.1 hd with rfl | hd
    · exact hstart
    · exact hword (hrest d hd)
  · exact hinner d (.inl hd)
  · obtain rfl := List.mem_singleton.1 hd
    decide
  · exact hinner d (.inr hd)

/-- On the command line the text is read as a fragment, with a blank for the equals sign. -/
theorem OnLine.ofCommandLine (h : OnLine name parameters value) :
    ((scan false false (definitionText name parameters value)).ending.IsComplete →
      ∃ tokens : List Token, tokens.map Token.unplaced =
          (scan false false (definitionText name parameters value)).lexemes.map Lexeme.token ∧
        Definition.ofCommandLine (defineArgument name parameters value) =
          Definition.parse commandLine tokens) ∧
      (¬(scan false false (definitionText name parameters value)).ending.IsComplete →
        ∃ issue, Definition.ofCommandLine (defineArgument name parameters value) =
          .error issue) := by
  have htext : String.ofList ((name ++ parameters).toList ++ ' ' :: value.toList) =
      definitionText name parameters value := by
    rw [← String.toList_inj]
    simp [definitionText, String.toList_append]
  have hhead : ¬(!Macro.isHead (name ++ parameters).toList) = true := by rw [h.isHead]; decide
  have hissue := issue_lex false false commandLine.file (definitionText name parameters value)
  unfold Definition.ofCommandLine
  rw [h.splitDefinition]
  dsimp only
  rw [if_neg hhead, htext]
  refine ⟨fun hc => ?_, fun hc => ?_⟩
  · have hl := lexFragment_eq_ok_iff.2 ⟨hissue.2 hc, rfl⟩
    have hnewline : '\n' ∉ phases false (definitionText name parameters value).toList := by
      rw [phases_of_inner h.inner_toList]
      exact fun hm => (h.inner_toList _ hm).2 rfl
    exact ⟨_, unplaced_words_of_inner hnewline, by rw [hl]⟩
  · cases hl : lexFragment commandLine.file (definitionText name parameters value) with
    | error other => exact ⟨_, rfl⟩
    | ok tokens => exact absurd (hissue.1 (lexFragment_eq_ok_iff.1 hl).1) hc

/-! ## How the line is divided -/

/-- The word behind the mark. -/
def defineKeyword : Lexeme := ⟨[], .identifier, ['d', 'e', 'f', 'i', 'n', 'e']⟩

/-- The operands of the line. -/
def operandsOf (name parameters value : String) : Division :=
  divide true .operands (' ' :: (definitionText name parameters value).toList)

/-- The line is a mark, its keyword, and operands. -/
theorem OnLine.scan_defineLine (h : OnLine name parameters value) :
    scan true false (defineLine name parameters value) =
      ((operandsOf name parameters value).cons defineKeyword).cons Inclusion.mark := by
  have htext : (defineLine name parameters value).toList =
      '#' :: (defineKeyword.text ++ ' ' :: (definitionText name parameters value).toList) := by
    simp [defineLine, defineKeyword, String.toList_append]
  have hfront : ∀ c ∈ '#' :: defineKeyword.text ++ [' '], Inner c := by
    simp [defineKeyword, Source.Inner]
  have hinner : ∀ c ∈ (defineLine name parameters value).toList, Inner c := by
    rw [htext, ← List.cons_append, List.append_cons]
    intro c hc
    exact (List.mem_append.1 hc).elim (hfront c) (h.inner_toList c)
  have hread : read true .keyword 'd' (defineKeyword.text.tail ++
      ' ' :: (definitionText name parameters value).toList) = .lexeme defineKeyword.kind
        ⟨defineKeyword.text, ' ' :: (definitionText name parameters value).toList⟩ := rfl
  have hskip : skip (defineKeyword.text ++ ' ' :: (definitionText name parameters value).toList) =
      .skipped [] _ := skip_of_cons (by decide) (by decide)
  rw [scan, phases_of_inner hinner, htext]
  exact (Inclusion.divide_mark _).trans (congrArg (Division.cons _) (divide_cons hskip hread))

/-- The operands are the lexemes of the text on its own, if no brace opens a block there. -/
theorem OnLine.lexemes_operands (h : OnLine name parameters value)
    (hb : (operandsOf name parameters value).lexemes.IsChain NoBlock) :
    (operandsOf name parameters value).lexemes =
        behindBlank (scan false false (definitionText name parameters value)).lexemes ∧
      ((operandsOf name parameters value).ending.IsComplete ↔
        (scan false false (definitionText name parameters value)).ending.IsComplete) := by
  have hinner := h.inner_toList
  obtain ⟨c, rest, hname, hc, -⟩ := h.toList_name
  obtain ⟨more, htext⟩ : ∃ more, (definitionText name parameters value).toList = c :: more :=
    ⟨_, by rw [definitionText, String.append_assoc, String.append_assoc, String.toList_append,
      hname, List.cons_append]⟩
  have hskip : skip (c :: more) = .skipped [] (c :: more) := by
    refine skip_of_cons (Bool.eq_false_iff.2 fun hb => ?_) ?_
    · simp only [isBlank, Bool.or_eq_true, decide_eq_true_eq] at hb
      rcases hb with ((rfl | rfl) | rfl) | rfl <;> contradiction
    · rintro rfl
      contradiction
  have hnewline : '\n' ∉ ' ' :: c :: more := by
    rw [← htext]
    intro hm
    rcases List.mem_cons.1 hm with he | hm
    · contradiction
    · exact (hinner _ hm).2 rfl
  have hplain : Context.Plain false (.lineStart false) := rfl
  unfold operandsOf scan at *
  rw [phases_of_inner hinner]
  rw [htext] at hb ⊢
  obtain ⟨hl, he⟩ := divide_operands hnewline hplain (fun ha => absurd ha (by decide)) hb
  -- The blank behind the keyword goes to the name, which has none in front of it on its own.
  obtain ⟨hl', he'⟩ := divide_blank false (.lineStart false) hskip
  exact ⟨hl.trans hl', he.trans he'⟩

theorem OnLine.newline_not_mem (h : OnLine name parameters value) :
    ∀ lexeme ∈ (operandsOf name parameters value).lexemes, lexeme.kind ≠ .newline := by
  intro lexeme hm hk
  have hin : '\n' ∈ lexeme.text := newline_of_mem_divide lexeme hm hk ▸ List.mem_cons_self
  rcases List.mem_cons.1 (mem_of_mem_divide lexeme hm hin) with he | hin
  · contradiction
  · exact (h.inner_toList _ hin).2 rfl

/-! ## A source that is one directive -/

/-- The line of a directive that no newline ends has begun at the end of the text. -/
theorem ending_of_mark {trigraphs : Bool} {source : String} {inner : List Lexeme} {ending : Ending}
    (hs : scan true trigraphs source = ⟨Inclusion.mark :: inner, ending⟩)
    (hn : ∀ lexeme ∈ inner, lexeme.kind ≠ .newline) (hc : ending.IsComplete) :
    ∃ gap, ending = .complete gap true := by
  unfold scan at hs
  have hcomplete : (divide true (.lineStart false)
      (phases trigraphs source.toList)).ending.IsComplete := by
    rw [hs]
    exact hc
  obtain ⟨gap, he⟩ := ending_eq hcomplete
  have hmid : ((Context.lineStart false).behind (Inclusion.mark :: inner)).midLine = true := by
    change (Context.keyword.behind inner).midLine = true
    obtain hb | hb | hb := Context.behind_directive (.inl rfl) hn <;> rw [hb] <;> rfl
  rw [hs] at he
  exact ⟨gap, he.trans (congrArg (Ending.complete gap) hmid)⟩

/-- A directive that no newline ends is one line, and none if it leaves something open. -/
theorem rows_of_mark {trigraphs : Bool} {source : String} {inner : List Lexeme} {ending : Ending}
    (hs : scan true trigraphs source = ⟨Inclusion.mark :: inner, ending⟩)
    (hn : ∀ lexeme ∈ inner, lexeme.kind ≠ .newline) :
    (ending.IsComplete → rows trigraphs source = [(Inclusion.mark :: inner).map Lexeme.token]) ∧
      (¬ending.IsComplete → rows trigraphs source = []) := by
  have hend : ∀ lexeme ∈ (scan true trigraphs source).lexemes, lexeme.kind ≠ .endOfFile :=
    kind_ne_of_mem_divide
  rw [hs] at hend
  have hline : ∀ token ∈ (Inclusion.mark :: inner).map Lexeme.token,
      token.kind ≠ .newline ∧ token.kind ≠ .endOfFile := by
    intro token hm
    obtain ⟨lexeme, hl, rfl⟩ := List.mem_map.1 hm
    refine ⟨?_, hend lexeme hl⟩
    rcases List.mem_cons.1 hl with rfl | hl
    · decide
    · exact hn lexeme hl
  have hsplit := Lines.divideFrom_inner [] hline ending.tokens
  rw [List.nil_append] at hsplit
  rw [rows, hs, Division.tokens, Lines.ofTokens, hsplit]
  refine ⟨fun hc => ?_, fun hc => ?_⟩
  · obtain ⟨gap, rfl⟩ := ending_of_mark hs hn hc
    rfl
  · -- What is left open has no newline behind it, so that its line does not count.
    cases ending with
    | complete gap midLine => exact absurd trivial hc
    | unclosed opener before rest => rfl

/-! ## Runs -/

variable {files : Files.Tree} {options : Options} {session : Session} {frame : Frame}

/-- The macros behind a run are those behind the lines of its file. -/
theorem exists_macros_ofFrame (files : Files.Tree) (options : Options) (session : Session)
    (frame : Frame) (source : String) :
    ∃ enter, (Run.ofFrame files options session frame source).session.macros =
      (SourceFile.readLines files options enter (session.enter frame)
        (linesOf options frame source).lines).session.macros := by
  obtain ⟨room, hr⟩ := Nat.exists_eq_add_one.2 options.depthLimit_pos
  refine ⟨SourceFile.readFile files options room, ?_⟩
  rw [Run.ofFrame, SourceFile.read, hr, SourceFile.readFile, linesOf]
  generalize Lines.ofTokens (lex true options.trigraphs frame.filename source).tokens = lines
  generalize SourceFile.readLines files options (SourceFile.readFile files options room)
    (session.enter frame) lines.lines = reading
  obtain ⟨items, final, halt⟩ := reading
  cases halt with
  | some fault => rfl
  | none => cases lines.finish <;> rfl

/-- The table that holds what was read, if anything was. -/
def Table.ofRead : Except Issue Definition → Table
  | .ok definition => ⟨[definition]⟩
  | .error _ => ∅

/-- A definition in a session without macros. -/
theorem obey_define (hm : session.macros = ∅) {hash keyword : Token} {operands : List Token}
    (hk : keyword.kind = .identifier) (ht : keyword.text = "define") (stop : Position) :
    (obey files options frame session ⟨hash :: keyword :: operands, stop⟩).2.macros =
      Table.ofRead (Definition.parse keyword.position operands) := by
  unfold obey Directive.execute Directive.define
  simp only [hk, ht, if_true, hm]
  cases Definition.parse keyword.position operands with
  | error issue => exact hm
  | ok definition => rfl

/-- The line of a definition is carried out as that definition. -/
theorem macros_of_lines (hm : session.macros = ∅) {source : String} {hash keyword : Token}
    {operands : List Token} {stop : Position}
    (hl : (linesOf options frame source).lines = [⟨hash :: keyword :: operands, stop⟩])
    (hh : hash.kind = .directiveHash) (hk : keyword.kind = .identifier)
    (ht : keyword.text = "define") :
    (Run.ofFrame files options session frame source).session.macros =
      Table.ofRead (Definition.parse keyword.position operands) := by
  obtain ⟨enter, hmacros⟩ := exists_macros_ofFrame files options session frame source
  let line : Line := ⟨hash :: keyword :: operands, stop⟩
  have hi : ¬line.isInclude := by simp [line, Line.isInclude, hh, hk, ht]
  have hd : line.isDirective := by simp [line, Line.isDirective, hh]
  have hline := readLine_moved files options enter ((moved_enter session frame).moveTo stop) hi
  rw [if_pos hd] at hline
  obtain ⟨next, hn, hread⟩ := hline
  rw [hmacros, hl, SourceFile.readLines, hread, ← obey_define hm hk ht stop, ← hn.macros]
  rfl

variable (files frame) in
/-- A run over the line does what it says, if it leaves nothing open. -/
theorem OnLine.macros_ofFrame (h : OnLine name parameters value)
    (ht : options.trigraphs = false) (hm : session.macros = ∅) :
    ((operandsOf name parameters value).ending.IsComplete →
      ∃ (site : Position) (tokens : List Token), tokens.map Token.unplaced =
          (operandsOf name parameters value).lexemes.map Lexeme.token ∧
        (Run.ofFrame files options session frame
          (defineLine name parameters value)).session.macros =
            Table.ofRead (Definition.parse site tokens)) ∧
      (¬(operandsOf name parameters value).ending.IsComplete →
        (Run.ofFrame files options session frame
          (defineLine name parameters value)).session.macros = ∅) := by
  have hnewline : ∀ lexeme ∈ defineKeyword :: (operandsOf name parameters value).lexemes,
      lexeme.kind ≠ .newline := List.forall_mem_cons.2 ⟨by decide, h.newline_not_mem⟩
  obtain ⟨hcomplete, hopen⟩ := rows_of_mark h.scan_defineLine hnewline
  have hrows : (linesOf options frame (defineLine name parameters value)).lines.map Line.unplaced =
      rows false (defineLine name parameters value) := by
    rw [linesOf, ht]
    exact unplaced_ofTokens false frame.filename _
  refine ⟨fun hc => ?_, fun hc => ?_⟩
  · rw [hcomplete hc] at hrows
    obtain ⟨⟨tokens, stop⟩, hlines, hline⟩ := List.map_eq_singleton_iff.1 hrows
    obtain ⟨hash, _, rfl, hh, hrest⟩ := List.map_eq_cons_iff.1 hline
    obtain ⟨keyword, operands, rfl, hk, hoperands⟩ := List.map_eq_cons_iff.1 hrest
    have hhash : hash.unplaced.kind = .directiveHash := congrArg Token.kind hh
    have hkind : keyword.unplaced.kind = .identifier := congrArg Token.kind hk
    have htext : keyword.unplaced.text = "define" := congrArg Token.text hk
    exact ⟨keyword.position, operands, hoperands,
      macros_of_lines hm hlines hhash hkind htext⟩
  · rw [hopen hc] at hrows
    obtain ⟨enter, hmacros⟩ := exists_macros_ofFrame files options session frame
      (defineLine name parameters value)
    rw [hmacros, List.map_eq_nil_iff.1 hrows]
    exact hm

/-! ## The two ways -/

/-- The table holds the definition that was read, its places aside, or nothing if it could not be
read. -/
def Table.Holds (table : Table) : Except Issue Definition → Prop
  | .error _ => table = ∅
  | .ok left => ∃ right, table = ⟨[right]⟩ ∧ left.name = right.name ∧ left.isEquivalent right

theorem space_behindBlank (lexemes : List Lexeme) :
    ∀ first ∈ ((behindBlank lexemes).map Lexeme.token).head?, first.space := by
  cases lexemes <;> simp [behindBlank, Lexeme.token]

theorem trimStart_behindBlank (lexemes : List Lexeme) :
    trimStart ((behindBlank lexemes).map Lexeme.token) = trimStart (lexemes.map Lexeme.token) := by
  cases lexemes <;> rfl

/-- The blank in front of the name of a definition does not count. -/
theorem parse_behindBlank (site : Position) (lexemes : List Lexeme) :
    Definition.parse site ((behindBlank lexemes).map Lexeme.token) =
      Definition.parse site (lexemes.map Lexeme.token) := by
  cases lexemes <;> rfl

/-- What is read from the same tokens, at other places, is the same but for its places. -/
theorem holds_ofRead {leftSite rightSite : Position} {left right : List Token}
    {lexemes : List Lexeme} (hl : left.map Token.unplaced = lexemes.map Lexeme.token)
    (hr : right.map Token.unplaced = (behindBlank lexemes).map Lexeme.token) :
    (Table.ofRead (Definition.parse rightSite right)).Holds (Definition.parse leftSite left) := by
  have hleft := parse_unplaced leftSite nowhere left
  have hright := parse_unplaced rightSite nowhere right
  rw [hl] at hleft
  rw [hr, parse_behindBlank, hleft] at hright
  cases hpl : Definition.parse leftSite left with
  | error issue =>
    cases hpr : Definition.parse rightSite right with
    | error issue' => rfl
    | ok other =>
      rw [hpl, hpr] at hright
      contradiction
  | ok definition =>
    cases hpr : Definition.parse rightSite right with
    | error issue' =>
      rw [hpl, hpr] at hright
      contradiction
    | ok other =>
      rw [hpl, hpr] at hright
      have hsame : definition.unplaced = other.unplaced := Option.some.inj hright
      have hname : definition.unplaced.name = other.unplaced.name := congrArg _ hsame
      refine ⟨other, rfl, hname, ?_⟩
      rw [← Definition.isEquivalent_unplaced, hsame]
      simp [Definition.isEquivalent]

/-- No asm keyword stands directly in front of a brace. -/
def Blockless (tokens : List Token) : Prop :=
  tokens.IsChain fun left right => left.IsAsm → right.text ≠ "\x7b"

instance (tokens : List Token) : Decidable (Blockless tokens) :=
  inferInstanceAs (Decidable (tokens.IsChain _))

theorem OnLine.isChain_operands (h : OnLine name parameters value) {file : String}
    (hb : Blockless (lex true false file (defineLine name parameters value)).tokens) :
    (operandsOf name parameters value).lexemes.IsChain NoBlock := by
  have hscan : Blockless (scan true false (defineLine name parameters value)).tokens := by
    rw [← unplaced_lex true false file]
    exact (List.isChain_map Token.unplaced).2 hb
  rw [h.scan_defineLine] at hscan
  have hlexemes := (List.isChain_map Lexeme.token).1 hscan.left_of_append
  exact hlexemes.tail.tail.imp fun left right hlr ha ht => hlr ha (congrArg String.ofList ht)

/-- Definitions on the command line and in a source agree: a macro name, with or without something
in parentheses behind it, and a value on one line make the same macro or none both ways, provided
that no asm keyword of the line stands directly in front of a brace. -/
theorem ofCommandLine_agrees (files : Files.Tree) (options : Options) (session : Session)
    (frame : Frame) (name parameters value : String) (h : OnLine name parameters value)
    (ht : options.trigraphs = false) (hm : session.macros = ∅)
    (hb : Blockless (lex true false frame.filename (defineLine name parameters value)).tokens) :
    (Run.ofFrame files options session frame
      (defineLine name parameters value)).session.macros.Holds
        (Definition.ofCommandLine (defineArgument name parameters value)) := by
  obtain ⟨hlexemes, hcomplete⟩ := h.lexemes_operands (h.isChain_operands hb)
  obtain ⟨hread, hinvalid⟩ := h.ofCommandLine
  obtain ⟨hdefined, hnothing⟩ := h.macros_ofFrame files frame ht hm
  by_cases hc : (operandsOf name parameters value).ending.IsComplete
  · obtain ⟨left, hl, hargument⟩ := hread (hcomplete.1 hc)
    obtain ⟨site, right, hr, hmacros⟩ := hdefined hc
    rw [hargument, hmacros]
    exact holds_ofRead hl (hlexemes ▸ hr)
  · obtain ⟨issue, hargument⟩ := hinvalid (mt hcomplete.2 hc)
    rw [hargument]
    exact hnothing hc

/-- A session without macros. -/
def emptySession : Session := { macros := ∅, stack := .empty 200 }

/-- A value with an asm keyword in it, and with braces behind other tokens. -/
def bracedValue : String := "#x asm(\"nop\") /* \x7b */ \x7b"

/-- Where a token of that definition stands on the command line. -/
def argumentToken (kind : Token.Kind) (text : String) (column : Nat) (space : Bool) : Token :=
  { kind, text, position := ⟨"<command line>", 1, column⟩, space }

/-- The definition on the command line. -/
def bracedMacro : Definition :=
  { name := "F"
    parameters := some ⟨["x"], true⟩
    body :=
      [argumentToken .punctuator "#" 11 false, argumentToken .identifier "x" 12 false,
       argumentToken .identifier "asm" 14 true, argumentToken .punctuator "(" 17 false,
       argumentToken .string "\"nop\"" 18 false, argumentToken .punctuator ")" 23 false,
       argumentToken .punctuator "\x7b" 33 true]
    position := ⟨"<command line>", 1, 1⟩ }

theorem inner_of_all {text : List Char} (h : text.all (Inner ·)) : ∀ c ∈ text, Inner c :=
  forall_of_all h

/-- The line of a source makes the same macro of it. -/
theorem ofCommandLine_agrees_braces :
    OnLine "F" "(x, ...)" bracedValue ∧ ({} : Options).trigraphs = false ∧
      emptySession.macros = ∅ ∧
      Blockless (lex true false sampleFrame.filename
        (defineLine "F" "(x, ...)" bracedValue)).tokens ∧
      Definition.ofCommandLine (defineArgument "F" "(x, ...)" bracedValue) = .ok bracedMacro ∧
      ∃ right, (Run.ofFrame ⟨.directory [], []⟩ {} emptySession sampleFrame
          (defineLine "F" "(x, ...)" bracedValue)).session.macros = ⟨[right]⟩ ∧
        bracedMacro.name = right.name ∧ bracedMacro.isEquivalent right := by
  have h : OnLine "F" "(x, ...)" bracedValue :=
    ⟨by decide +kernel, by decide, by decide, inner_of_all (by decide)⟩
  have hb : Blockless (lex true false sampleFrame.filename
      (defineLine "F" "(x, ...)" bracedValue)).tokens := by decide +kernel
  have hd : Definition.ofCommandLine (defineArgument "F" "(x, ...)" bracedValue) =
      .ok bracedMacro := by decide +kernel
  have hholds := ofCommandLine_agrees ⟨.directory [], []⟩ {} emptySession sampleFrame "F"
    "(x, ...)" bracedValue h rfl rfl hb
  rw [hd] at hholds
  exact ⟨h, rfl, rfl, hb, hd, hholds⟩

/-- A brace directly behind an asm keyword is read in two ways: on the command line it opens a block
that is left open, and in a source it is a punctuator. -/
theorem not_holds_of_asm_brace :
    OnLine "A" "" "asm \x7b" ∧ ({} : Options).trigraphs = false ∧ emptySession.macros = ∅ ∧
      ¬(Run.ofFrame ⟨.directory [], []⟩ {} emptySession sampleFrame
        (defineLine "A" "" "asm \x7b")).session.macros.Holds
          (Definition.ofCommandLine (defineArgument "A" "" "asm \x7b")) := by
  have hd : Definition.ofCommandLine (defineArgument "A" "" "asm \x7b") =
      .error ⟨.commandLineDefinition "A=asm \x7b", none⟩ := by decide +kernel
  have hm : (Run.ofFrame ⟨.directory [], []⟩ {} emptySession sampleFrame
      (defineLine "A" "" "asm \x7b")).session.macros ≠ ∅ := by decide +kernel
  refine ⟨⟨by decide +kernel, by decide, by decide, inner_of_all (by decide)⟩, rfl, rfl, ?_⟩
  rw [hd]
  exact hm

end Macro

end CPreprocessor

import CPreprocessor.Proofs.IncludeLine
import CPreprocessor.Proofs.Interleaving

/-!
# The lines of an include and of its macro

A header can be included by its name, in one line, and by way of a macro, which takes two: one that
defines the macro, and one that uses it.

* `literalSource`, `macroSource`: these sources. `scan_literalSource`, `scan_macroSource`: the
  lexemes that they are divided into.
* `lastReference?`: what the include on the last line of a source names, with the issues of its
  operand. `lastReference?_literalSource`: an include that names a header names that one.
* `exists_define_use`: what is read of the two lines of a macro.
-/

namespace CPreprocessor

open Source Lexeme Include Interleaving Macro

namespace Expanded

variable {reference : Reference} {name : String} {lexemes : List Lexeme}

/-! ## The lines of an include and of a macro -/

/-- An include that names a header. -/
def literalSource (reference : Reference) : String := "#include " ++ reference.render ++ "\n"

/-- The same include by way of a macro. -/
def macroSource (name : String) (reference : Reference) : String :=
  "#define " ++ name ++ " " ++ reference.render ++ "\n#include " ++ name ++ "\n"

theorem toList_render (reference : Reference) :
    reference.render.toList = enclose reference.angled reference.name.toList := by
  unfold Reference.render enclose
  split <;> simp [String.toList_append]

/-- The rows of a source that is divided into lines. -/
theorem rows_of_scan {source : String} {lines : List (List Lexeme)}
    (hl : ∀ line ∈ lines, OneLine line)
    (hs : scan true false source = ⟨lines.flatMap (· ++ [lineEnd]), .complete [] false⟩) :
    rows false source = lines.map (List.map Lexeme.token) := by
  have hrows : ∀ row ∈ lines.map (List.map Lexeme.token),
      ∀ token ∈ row, token.kind ≠ .newline ∧ token.kind ≠ .endOfFile := by
    intro row hr token hm
    obtain ⟨line, hline, rfl⟩ := List.mem_map.1 hr
    obtain ⟨lexeme, hlexeme, rfl⟩ := List.mem_map.1 hm
    exact hl line hline lexeme hlexeme
  have htokens : (scan true false source).tokens =
      (lines.map (List.map Lexeme.token)).flatMap (· ++ [lineEnd.token]) ++
        [.endOfFile nowhere] := by
    rw [hs, Division.tokens, List.map_flatMap, List.flatMap_map]
    simp only [List.map_append]
    rfl
  rw [rows, htokens]
  exact Lines.ofTokens_rows hrows rfl rfl

/-- The text is on one line, and does not end in a backslash. -/
structure Unspliced (text : List Char) : Prop where
  inner : ∀ c ∈ text, Inner c
  last : text.getLast? ≠ some '\\'

theorem Unspliced.phases_eq {text : List Char} (h : Unspliced text) (behind : List Char) :
    phases false (text ++ '\n' :: behind) = text ++ '\n' :: phases false behind :=
  phases_line h.inner h.last behind

theorem Unspliced.append {front text : List Char} (h : Unspliced text) (hn : text ≠ [])
    (hf : ∀ c ∈ front, Inner c) : Unspliced (front ++ text) where
  inner := List.forall_mem_append.2 ⟨hf, h.inner⟩
  last := by
    rw [List.getLast?_append_of_ne_nil front hn]
    exact h.last

theorem unspliced_word {text : List Char} (hw : IsWord text) : Unspliced text := by
  have hnot : ∀ d ∈ ['\r', '\n', '\\'], Unicode.isWord d = false :=
    forall_of_all (by decide +kernel)
  obtain ⟨c, rest, rfl, -, hstart, hrest⟩ := hw
  have hword : ∀ d ∈ c :: rest, Unicode.isWord d :=
    List.forall_mem_cons.2 ⟨Unicode.isWord_of_isWordStart hstart, hrest⟩
  have hne {d e : Char} (hd : d ∈ c :: rest) (he : e ∈ ['\r', '\n', '\\']) : d ≠ e := by
    rintro rfl
    exact absurd (hword d hd) (by simp [hnot d he])
  exact ⟨fun d hd => ⟨hne hd (by simp), hne hd (by simp)⟩, fun hl =>
    hne (List.mem_of_getLast? hl) (by simp) rfl⟩

theorem unspliced_enclose {angled : Bool} {text : List Char} (hi : ∀ c ∈ text, Inner c) :
    Unspliced (enclose angled text) := by
  have hsplit : enclose angled text = opener angled :: text ++ [closer angled] := by
    cases angled <;> rfl
  have hmarks : Inner (opener angled) ∧ Inner (closer angled) ∧ closer angled ≠ '\\' := by
    cases angled <;> decide
  obtain ⟨hopen, hclose, hback⟩ := hmarks
  rw [hsplit]
  refine Unspliced.append ⟨by simpa using hclose, by simpa using hback⟩ (by simp) ?_
  exact List.forall_mem_cons.2 ⟨hopen, hi⟩

theorem Unspliced.directive {word text : List Char} (h : Unspliced text) (hn : text ≠ [])
    (hw : IsWord word) : Unspliced ('#' :: (word ++ ' ' :: text)) := by
  have hfront : ∀ c ∈ '#' :: (word ++ [' ']), Inner c :=
    List.forall_mem_cons.2 ⟨by decide, List.forall_mem_append.2
      ⟨(unspliced_word hw).inner, List.forall_mem_singleton.2 (by decide)⟩⟩
  have hsplit : '#' :: (word ++ ' ' :: text) = '#' :: (word ++ [' ']) ++ text := by simp
  rw [hsplit]
  exact h.append hn hfront

theorem enclose_ne_nil (angled : Bool) (text : List Char) : enclose angled text ≠ [] := by
  cases angled <;> exact List.cons_ne_nil _ _

theorem scan_literalSource (hi : ∀ c ∈ reference.name.toList, Inner c)
    (h : Operand .header (enclose reference.angled reference.name.toList) lexemes) :
    scan true false (literalSource reference) =
      ⟨[directive includeWord (behindBlank lexemes)].flatMap (· ++ [lineEnd]),
        .complete [] false⟩ := by
  have htext : (literalSource reference).toList = '#' :: (includeWord ++ ' ' ::
      enclose reference.angled reference.name.toList) ++ '\n' :: [] := by
    simp [literalSource, String.toList_append, toList_render, includeWord]
  have hline := (unspliced_enclose hi).directive (enclose_ne_nil reference.angled _)
    isWord_includeWord
  rw [scan, htext, hline.phases_eq]
  simp only [List.cons_append, List.append_assoc]
  rw [divide_directive_operand isWord_includeWord h]
  change (divide true (.lineStart false) []).prepend _ = _
  rw [divide_nil]
  rfl

theorem scan_macroSource (hw : IsWord name.toList) (hi : ∀ c ∈ reference.name.toList, Inner c)
    (h : Operand .operands (enclose reference.angled reference.name.toList) lexemes) :
    scan true false (macroSource name reference) =
      ⟨[directive defineWord (blankWord name.toList :: behindBlank lexemes),
          directive includeWord [blankWord name.toList]].flatMap (· ++ [lineEnd]),
        .complete [] false⟩ := by
  have htext : (macroSource name reference).toList =
      '#' :: (defineWord ++ ' ' :: (name.toList ++ ' ' ::
        enclose reference.angled reference.name.toList)) ++
          '\n' :: ('#' :: (includeWord ++ ' ' :: name.toList) ++ '\n' :: []) := by
    simp [macroSource, String.toList_append, toList_render, includeWord, defineWord]
  have hname : name.toList ≠ [] := by
    obtain ⟨c, rest, he, -⟩ := hw
    exact he ▸ List.cons_ne_nil c rest
  have hfirst : Unspliced ('#' :: (defineWord ++ ' ' :: (name.toList ++ ' ' ::
      enclose reference.angled reference.name.toList))) := by
    have hblank : ∀ c ∈ name.toList ++ [' '], Inner c := List.forall_mem_append.2
      ⟨(unspliced_word hw).inner, List.forall_mem_singleton.2 (by decide)⟩
    have htail := (unspliced_enclose hi).append (enclose_ne_nil reference.angled _) hblank
    rw [List.append_assoc, List.singleton_append] at htail
    exact htail.directive (by simp) isWord_defineWord
  have hlast := (unspliced_word hw).directive hname isWord_includeWord
  rw [scan, htext, hfirst.phases_eq, hlast.phases_eq]
  simp only [List.cons_append, List.append_assoc]
  rw [divide_define hw h, divide_directive_operand isWord_includeWord (operand_word hw rfl)]
  change ((divide true (.lineStart false) []).prepend _).prepend _ = _
  rw [divide_nil]
  simp only [Division.prepend, List.append_nil, List.flatMap_cons, List.flatMap_nil]
  rfl

/-! ## What an include names -/

variable {files : Files.Tree} {options : Options} {enter : SourceFile.Enter} {session : Session}
  {frame : Frame}

/-- What is read of a source up to its last line. -/
def front (files : Files.Tree) (options : Options) (enter : SourceFile.Enter) (session : Session)
    (frame : Frame) (source : String) : Reading :=
  SourceFile.readLines files options enter (session.enter frame)
    (linesOf options frame source).lines.dropLast

/-- The issues that the operand of an include on the last line of a source raises there, and the
header it names. -/
def lastReference? (files : Files.Tree) (options : Options) (enter : SourceFile.Enter)
    (session : Session) (frame : Frame) (source : String) :
    Option (List Issue × Option Reference) :=
  match (linesOf options frame source).lines.getLast?.map Line.tokens with
  | some (hash :: keyword :: operands) =>
    if hash.kind = .directiveHash ∧ Directive.Includes keyword then
      let table := (front files options enter session frame source).session.macros
      some (Directive.reference? table operands)
    else none
  | _ => none

/-- The operand of an include on the last line. -/
theorem lastReference?_eq {source : String} {last : Line} {operands : List Lexeme}
    (hl : (linesOf options frame source).lines.getLast? = some last)
    (ht : last.unplaced = (directive includeWord operands).map Lexeme.token) :
    ∃ tokens, tokens.map Token.unplaced = operands.map Lexeme.token ∧
      lastReference? files options enter session frame source =
        some (Directive.reference?
          (front files options enter session frame source).session.macros tokens) := by
  obtain ⟨hash, rest, hsplit, hhash, hrest⟩ := List.map_eq_cons_iff.1 ht
  obtain ⟨keyword, tokens, rfl, hkeyword, htokens⟩ := List.map_eq_cons_iff.1 hrest
  have hkind : hash.kind = .directiveHash := congrArg Token.kind hhash
  have hincludes : Directive.Includes keyword :=
    ⟨congrArg Token.kind hkeyword, congrArg Token.text hkeyword⟩
  refine ⟨tokens, htokens, ?_⟩
  rw [lastReference?, hl, Option.map_some, hsplit]
  exact if_pos ⟨hkind, hincludes⟩

theorem inner_enclose (angled : Bool) (name : List Char) :
    Reference.inner (String.ofList (enclose angled name)) = String.ofList name := by
  cases angled <;> simp [Reference.inner, enclose]

theorem ofHeaderName_enclose (reference : Reference) :
    Reference.ofHeaderName
      (String.ofList (enclose reference.angled reference.name.toList)) = reference := by
  obtain ⟨name, angled⟩ := reference
  rw [Reference.ofHeaderName, inner_enclose, String.ofList_toList, String.toList_ofList]
  cases angled <;> rfl

theorem unplaced_linesOf (ht : options.trigraphs = false) (source : String) :
    (linesOf options frame source).lines.map Line.unplaced = rows false source := by
  rw [linesOf, ht]
  exact unplaced_ofTokens false frame.filename source

variable (frame) in
/-- An include that names a header is a line of three tokens, the last of which spells it. -/
theorem exists_literalLine (ht : options.trigraphs = false)
    (hi : ∀ c ∈ reference.name.toList, Inner c ∧ c ≠ closer reference.angled) :
    ∃ (line : Line) (hash keyword header : Token),
      (linesOf options frame (literalSource reference)).lines = [line] ∧
      line.tokens = [hash, keyword, header] ∧ hash.kind = .directiveHash ∧
      Directive.Includes keyword ∧
      ∀ table, Directive.reference? table [header] = ([], some reference) := by
  have hoperand := operand_headerName fun c hc => ⟨(hi c hc).1.2, (hi c hc).2⟩
  have hline := oneLine_directive includeWord hoperand.oneLine.behindBlank
  have hrows := rows_of_scan (List.forall_mem_singleton.2 hline)
    (scan_literalSource (fun c hc => (hi c hc).1) hoperand)
  have hunplaced : (linesOf options frame (literalSource reference)).lines.map Line.unplaced = _ :=
    (unplaced_linesOf ht _).trans hrows
  obtain ⟨line, rest, hlines, hfirst, hrest⟩ := List.map_eq_cons_iff.1 hunplaced
  obtain rfl := List.map_eq_nil_iff.1 hrest
  obtain ⟨hash, rest, hsplit, hhash, hrest⟩ := List.map_eq_cons_iff.1 hfirst
  obtain ⟨keyword, rest, rfl, hkeyword, hrest⟩ := List.map_eq_cons_iff.1 hrest
  obtain ⟨header, rest, rfl, hheader, hrest⟩ := List.map_eq_cons_iff.1 hrest
  obtain rfl := List.map_eq_nil_iff.1 hrest
  have hkind : header.kind = .headerName := congrArg Token.kind hheader
  have htext : header.text = String.ofList (enclose reference.angled reference.name.toList) :=
    congrArg Token.text hheader
  refine ⟨line, hash, keyword, header, hlines, hsplit, congrArg Token.kind hhash,
    ⟨congrArg Token.kind hkeyword, congrArg Token.text hkeyword⟩, fun table => ?_⟩
  simp only [Directive.reference?, hkind, if_true, htext, ofHeaderName_enclose]

/-- An include that names a header names it. -/
theorem lastReference?_literalSource (ht : options.trigraphs = false)
    (hi : ∀ c ∈ reference.name.toList, Inner c ∧ c ≠ closer reference.angled) :
    lastReference? files options enter session frame (literalSource reference) =
      some ([], some reference) := by
  obtain ⟨line, hash, keyword, header, hlines, hsplit, hkind, hincludes, hreference⟩ :=
    exists_literalLine frame ht hi
  rw [lastReference?, hlines, List.getLast?_singleton, Option.map_some, hsplit]
  dsimp only
  rw [if_pos ⟨hkind, hincludes⟩, hreference]

/-! ## What the macro is -/

/-- A line that defines a macro: what is read of it, and the tokens of the definition. -/
theorem front_eq {source : String} {first last : Line} {operands : List Lexeme}
    (hl : (linesOf options frame source).lines = [first, last])
    (ht : first.unplaced = (directive defineWord operands).map Lexeme.token) :
    ∃ keyword tokens, tokens.map Token.unplaced = operands.map Lexeme.token ∧
      front files options enter session frame source = SourceFile.follow enter
        (Directive.define ((session.enter frame).moveTo first.stop) keyword tokens) := by
  obtain ⟨hash, rest, hsplit, hhash, hrest⟩ := List.map_eq_cons_iff.1 ht
  obtain ⟨keyword, tokens, rfl, hkeyword, htokens⟩ := List.map_eq_cons_iff.1 hrest
  have hkind : hash.kind = .directiveHash := congrArg Token.kind hhash
  have hidentifier : keyword.kind = .identifier := congrArg Token.kind hkeyword
  have htext : keyword.text = "define" := congrArg Token.text hkeyword
  refine ⟨keyword, tokens, htokens, ?_⟩
  let place : Frame := { frame with position := first.stop }
  have hexecute : Directive.execute files options ((session.enter frame).moveTo first.stop) place
      hash keyword tokens =
        Directive.define ((session.enter frame).moveTo first.stop) keyword tokens := by
    simp [Directive.execute, hidentifier, htext]
  have hraised : (Directive.define ((session.enter frame).moveTo first.stop) keyword
      tokens).raised = [] := by
    unfold Directive.define
    dsimp only
    split <;> rfl
  have htop : ((session.enter frame).moveTo first.stop).stack.top? = some place := rfl
  have hread : SourceFile.readLine files options enter ((session.enter frame).moveTo first.stop)
      first.tokens = SourceFile.follow enter
        (Directive.define ((session.enter frame).moveTo first.stop) keyword tokens) := by
    simp only [SourceFile.readLine, hsplit, htop, if_pos hkind, hexecute, hraised]
    rfl
  rw [front, hl, List.dropLast_cons_of_ne_nil (List.cons_ne_nil _ _), SourceFile.readLines, hread]
  exact Reading.andThen_nil _

theorem macros_follow_define {keyword : Token} {tokens : List Token} {definition : Definition}
    (hp : Definition.parse keyword.position tokens = .ok definition)
    (hf : session.macros.find? definition.name = none) :
    (SourceFile.follow enter (Directive.define session keyword tokens)).session.macros =
      session.macros.install definition := by
  have hdefine : session.macros.define definition = .ok (session.macros.install definition) := by
    rw [Table.define, hf]
  simp only [Directive.define, hp, bind, Except.bind, hdefine]
  rfl

theorem exists_of_follow_define {keyword : Token} {tokens : List Token}
    (h : (SourceFile.follow enter (Directive.define session keyword tokens)).items = []) :
    ∃ definition, Definition.parse keyword.position tokens = .ok definition := by
  cases hp : Definition.parse keyword.position tokens with
  | ok definition => exact ⟨definition, rfl⟩
  | error issue =>
    simp only [Directive.define, hp, bind, Except.bind] at h
    contradiction

/-- What is read of the two lines: the tokens that the macro is defined by, and its use. -/
theorem exists_define_use (ht : options.trigraphs = false) (hw : IsWord name.toList)
    (hi : ∀ c ∈ reference.name.toList, Inner c)
    (h : Operand .operands (enclose reference.angled reference.name.toList) lexemes) :
    ∃ (moved : Session) (keyword defined use : Token) (body : List Token),
      moved.macros = session.macros ∧ defined.unplaced = (blankWord name.toList).token ∧
      body.map Token.unplaced = (behindBlank lexemes).map Lexeme.token ∧
      use.unplaced = (blankWord name.toList).token ∧
      front files options enter session frame (macroSource name reference) =
        SourceFile.follow enter (Directive.define moved keyword (defined :: body)) ∧
      lastReference? files options enter session frame (macroSource name reference) =
        some (Directive.reference? (front files options enter session frame
          (macroSource name reference)).session.macros [use]) := by
  have hname : OneLine [blankWord name.toList] :=
    OneLine.cons (List.forall_mem_nil _) ⟨nofun, nofun⟩
  have hdefine : OneLine (blankWord name.toList :: behindBlank lexemes) :=
    OneLine.cons h.oneLine.behindBlank ⟨nofun, nofun⟩
  have hrows := rows_of_scan (List.forall_mem_cons.2 ⟨oneLine_directive defineWord hdefine,
    List.forall_mem_singleton.2 (oneLine_directive includeWord hname)⟩)
    (scan_macroSource hw hi h)
  have hunplaced :
      (linesOf options frame (macroSource name reference)).lines.map Line.unplaced = _ :=
    (unplaced_linesOf ht _).trans hrows
  obtain ⟨first, rest, hlines, hfirst, hrest⟩ := List.map_eq_cons_iff.1 hunplaced
  obtain ⟨last, rest, rfl, hlast, hrest⟩ := List.map_eq_cons_iff.1 hrest
  obtain rfl := List.map_eq_nil_iff.1 hrest
  obtain ⟨keyword, tokens, htokens, hfront⟩ := front_eq hlines hfirst
  obtain ⟨defined, body, rfl, hdefined, hbody⟩ := List.map_eq_cons_iff.1 htokens
  obtain ⟨operands, hoperands, hreference⟩ :=
    lastReference?_eq (congrArg List.getLast? hlines) hlast
  obtain ⟨use, rest, rfl, huse, hrest⟩ := List.map_eq_cons_iff.1 hoperands
  obtain rfl := List.map_eq_nil_iff.1 hrest
  exact ⟨(session.enter frame).moveTo first.stop, keyword, defined, use, body, rfl, hdefined, hbody,
    huse, hfront, hreference⟩

end Expanded

end CPreprocessor

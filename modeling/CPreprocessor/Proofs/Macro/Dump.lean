import CPreprocessor.Proofs.Macro.CommandLine
import CPreprocessor.Proofs.Macro.Signature
import CPreprocessor.Proofs.Token.Render

/-!
# Dumped macros

A macro is dumped as its signature, an equals sign and its rendered body. Given back on the command
line, that line makes the same macro, wherever its definition came from.

* `parameterLexemes`: what stands between the name and the body. `divide_parameterLexemes`,
  `parseTail_parameterLexemes`: its text is divided into them, and they are read as the parameters.
* `BodyOf definition lexemes`: the body was read from these lexemes, on one line.
  `divide_blank_respace`: rendered behind a blank, they are divided again.
* `Dumpable`: all that is needed of a definition. `dumpable_of_ofCommandLine`: every definition on
  the command line is dumpable. `Dumpable.ofCommandLine_render`: what is dumped of it is read back.
* `dump_is_read_back`: so the macro comes back.
-/

namespace CPreprocessor

open Source Lexeme

namespace Lexeme

variable {context : Context} {chars : List Char} {ending : Ending}

/-- What stands behind a sign is divided on its own. -/
theorem exists_behind_sign {front behind : List Lexeme} {closing : Lexeme}
    (hp : Context.Plain false context) (hn : '\n' ∉ chars) (hk : closing.kind = .punctuator)
    (h : divide false context chars = ⟨front ++ closing :: behind, ending⟩) :
    ∃ rest, '\n' ∉ rest ∧ divide false (.text false) rest = ⟨behind, ending⟩ := by
  induction front generalizing context chars with
  | nil =>
    obtain ⟨rest, hf, hd⟩ := first_of_divide hp hn h
    have hnext : context.next closing.kind closing.text = .text false := by
      rw [hk]
      cases context <;> first | rfl | contradiction
    exact ⟨rest, hf.inner, hnext ▸ hd⟩
  | cons first front ih =>
    obtain ⟨rest, hf, hd⟩ := first_of_divide hp hn h
    exact ih hf.plain hf.inner hd

/-- The text of lexemes on a line of their own, behind a blank, is divided into them. -/
theorem divide_blank_respace {lexemes : List Lexeme} {gap : List Char} {midLine : Bool}
    (hp : Context.Plain false context) (hn : '\n' ∉ chars)
    (h : divide false context chars = ⟨lexemes, .complete gap midLine⟩) :
    ∃ gap, divide false context (' ' :: (respace lexemes).flatMap whole) =
      ⟨behindBlank (respace lexemes), .complete gap midLine⟩ := by
  cases lexemes with
  | nil =>
    obtain ⟨tail, -, he⟩ := eq_of_divide_nil h trivial
    obtain ⟨-, rfl⟩ := Ending.complete.inj he
    have hskip : skip [' '] = .skipped [' '] [] := by simp [skip, isBlank, Gap.prepend]
    exact ⟨[' '], divide_of_end hskip⟩
  | cons lexeme lexemes =>
    obtain ⟨behind, first, hd⟩ := first_of_divide hp hn h
    obtain ⟨ha, hdivide⟩ := divide_map_respaced first.plain first.inner hd
    have hread := first.again ha (List.forall_mem_singleton.2 (rfl : isBlank ' '))
    rw [hdivide] at hread
    exact ⟨[], hread⟩

theorem trimStart_respace (lexemes : List Lexeme) :
    Macro.trimStart ((respace lexemes).map token) = Macro.trimStart (lexemes.map token) := by
  cases lexemes with
  | nil => rfl
  | cons lexeme lexemes =>
    rw [respace, List.map_cons, map_token_respaced]
    rfl

end Lexeme

theorem Token.render_trimStart (tokens : List Token) :
    Token.render (Macro.trimStart tokens) = Token.render tokens := by
  cases tokens <;> rfl

namespace Macro

variable {definition : Definition}

/-! ## Signatures -/

/-- What stands between the name of a macro and its body. -/
def parameterText : Option Parameters → String
  | none => ""
  | some parameters =>
    "(" ++ String.intercalate ","
      (parameters.names ++ if parameters.variadic then ["..."] else []) ++ ")"

/-- The lexemes of it. -/
def parameterLexemes : Option Parameters → List Lexeme
  | none => []
  | some parameters => sign ['('] :: separated parameters.lexemes

theorem render_eq (definition : Definition) :
    definition.render = defineArgument definition.name (parameterText definition.parameters)
      (Token.render definition.body) := by
  unfold Definition.render Definition.signature defineArgument parameterText
  cases definition.parameters with
  | none => rw [String.append_empty]
  | some parameters => simp [String.append_assoc]

/-- The names of the parameters are words. -/
def Worded (parameters : Option Parameters) : Prop :=
  ∀ found ∈ parameters, ∀ name ∈ found.names, IsWord name.toList

theorem toList_parameterText {parameters : Option Parameters} (hw : Worded parameters) :
    (parameterText parameters).toList = (parameterLexemes parameters).flatMap whole := by
  cases parameters with
  | none => rfl
  | some parameters =>
    rw [parameterLexemes, List.flatMap_cons,
      whole_separated (parameters.inSignature_lexemes (hw _ rfl)), parameters.map_text_lexemes]
    simp [parameterText, sign, whole]

theorem mem_parameterText {parameters : Option Parameters} (hw : Worded parameters) {c : Char}
    (hm : c ∈ (parameterText parameters).toList) :
    Unicode.isWord c ∨ c ∈ ['(', ',', ')', '.'] := by
  rw [toList_parameterText hw] at hm
  obtain ⟨lexeme, hl, hc⟩ := List.mem_flatMap.1 hm
  cases parameters with
  | none => contradiction
  | some parameters =>
    rcases List.mem_cons.1 hl with rfl | hl
    · exact InSignature.isWord_or (.sign (by decide)) hc
    · exact (inSignature_separated (parameters.inSignature_lexemes (hw _ rfl)) _ hl).isWord_or hc

/-- The place behind the parameters, if `context` is the one behind the name. -/
def behindParameters (context : Context) : Option Parameters → Context
  | none => context
  | some _ => .text false

theorem divide_parameterLexemes {parameters : Option Parameters} (hw : Worded parameters)
    {context : Context} (hp : Context.Plain false context) (other : List Char) :
    divide false context ((parameterLexemes parameters).flatMap whole ++ other) =
      (divide false (behindParameters context parameters) other).prepend
        (parameterLexemes parameters) := by
  cases parameters with
  | none => rfl
  | some parameters =>
    have hsign := divide_sign hp (show ['('] ∈ signs by decide)
      ((separated parameters.lexemes).flatMap whole ++ other)
    have hplain : Context.Plain false (.text false) := trivial
    rw [divide_separated (parameters.inSignature_lexemes (hw _ rfl)) hplain] at hsign
    exact hsign

/-- The parameters are read from their lexemes, in front of a body that does not touch the name. -/
theorem parseTail_parameterLexemes {parameters : Option Parameters}
    (hp : ∀ found ∈ parameters, found.WellFormed) (place : Position) {body : List Token}
    (hb : ∀ first ∈ body.head?, first.space) :
    parseTail place ((parameterLexemes parameters).map Lexeme.token ++ body) =
      .ok (parameters, body) := by
  cases parameters with
  | none => exact parseTail_of_space hb place
  | some parameters =>
    have hread := parseParameterList_separated (hp _ rfl) place body
    rw [parameterLexemes, List.map_cons, List.cons_append, parseTail, if_pos (by decide), hread]
    rfl

/-! ## Bodies -/

/-- The place behind the name and the parameters of a macro. -/
def Definition.behindSignature (definition : Definition) : Context :=
  behindParameters ((Context.lineStart false).next .identifier definition.name.toList)
    definition.parameters

theorem plain_behindParameters {context : Context} (hp : Context.Plain false context)
    (parameters : Option Parameters) :
    Context.Plain false (behindParameters context parameters) := by
  cases parameters with
  | none => exact hp
  | some => trivial

/-- The body of a macro was read from these lexemes, which stood on one line behind its
signature. -/
structure BodyOf (definition : Definition) (lexemes : List Lexeme) : Prop where
  body : definition.body.map Token.unplaced = trimStart (lexemes.map Lexeme.token)
  inner : ∀ lexeme ∈ lexemes, ∀ c ∈ lexeme.text, Inner c
  divided : ∃ chars gap midLine, '\n' ∉ chars ∧
    divide false definition.behindSignature chars = ⟨lexemes, .complete gap midLine⟩

theorem BodyOf.toList_render {lexemes : List Lexeme} (h : BodyOf definition lexemes) :
    (Token.render definition.body).toList = (respace lexemes).flatMap whole := by
  rw [← Token.render_unplaced, h.body, Token.render_trimStart, Lexeme.toList_render]

/-- What is known of a macro that was defined on the command line, in one line. -/
structure Dumpable (definition : Definition) : Prop where
  name : isName definition.name.toList
  word : IsWord definition.name.toList
  free : isReserved definition.name = false
  words : Worded definition.parameters
  parameters : ∀ found ∈ definition.parameters, found.WellFormed
  checked : bodyIssue? definition.parameters definition.body = none
  body : ∃ lexemes, BodyOf definition lexemes

/-- What is dumped has the form of a definition on the command line. -/
theorem Dumpable.onLine (h : Dumpable definition) :
    OnLine definition.name (parameterText definition.parameters)
      (Token.render definition.body) := by
  have hword {c : Char} (hm : c ∈ (parameterText definition.parameters).toList) :
      c ≠ '=' ∧ Inner c := by
    have hnot : ∀ d ∈ ['=', '\r', '\n'],
        Unicode.isWord d = false ∧ d ∉ ['(', ',', ')', '.'] := forall_of_all (by decide +kernel)
    have hne : ∀ d ∈ ['=', '\r', '\n'], c ≠ d := by
      rintro d hd rfl
      rcases mem_parameterText h.words hm with hw | hs
      · rw [(hnot c hd).1] at hw
        exact Bool.false_ne_true hw
      · exact (hnot c hd).2 hs
    exact ⟨hne '=' (by decide), hne '\r' (by decide), hne '\n' (by decide)⟩
  refine ⟨h.name, ?_, fun hm => (hword hm).1 rfl, fun c hm => ?_⟩
  · cases definition.parameters with
    | none => exact .inl rfl
    | some => exact .inr (by simp [parameterText, String.toList_append])
  · rw [String.toList_append] at hm
    rcases List.mem_append.1 hm with hm | hm
    · exact (hword hm).2
    · obtain ⟨lexemes, hb⟩ := h.body
      rw [hb.toList_render] at hm
      obtain rfl | ⟨lexeme, hl, hc⟩ := mem_respace hm
      · decide
      · exact hb.inner lexeme hl c hc

/-- What is dumped, with a blank for the equals sign, is divided into the lexemes of the signature
and those of the body. -/
theorem BodyOf.scan_definitionText {lexemes : List Lexeme} (hb : BodyOf definition lexemes)
    (h : Dumpable definition) :
    ∃ ending, ending.IsComplete ∧
      scan false false (definitionText definition.name (parameterText definition.parameters)
        (Token.render definition.body)) =
          ⟨word definition.name :: (parameterLexemes definition.parameters ++
            behindBlank (respace lexemes)), ending⟩ := by
  obtain ⟨chars, gap, midLine, hn, hd⟩ := hb.divided
  have hplain : Context.Plain false (.lineStart false) := rfl
  have hnext : Context.Plain false
      ((Context.lineStart false).next .identifier definition.name.toList) := trivial
  obtain ⟨last, hbody⟩ := divide_blank_respace (plain_behindParameters hnext _) hn hd
  have hparameters := divide_parameterLexemes h.words hnext
    (' ' :: (respace lexemes).flatMap whole)
  have htext : (definitionText definition.name (parameterText definition.parameters)
      (Token.render definition.body)).toList = definition.name.toList ++
        ((parameterLexemes definition.parameters).flatMap whole ++
          ' ' :: (respace lexemes).flatMap whole) := by
    simp [definitionText, String.toList_append, toList_parameterText h.words, hb.toList_render]
  have hhead : ∀ d ∈ ((parameterLexemes definition.parameters).flatMap whole ++
      ' ' :: (respace lexemes).flatMap whole).head?, d ∈ delimiters := by
    cases definition.parameters with
    | none => simp [parameterLexemes, delimiters]
    | some => simp [parameterLexemes, sign, whole, delimiters]
  refine ⟨.complete last midLine, trivial, ?_⟩
  rw [scan, phases_of_inner h.onLine.inner_toList, htext,
    divide_word h.word fun d hd => endsWord_of_mem_delimiters d (hhead d hd), hparameters]
  change divide false (behindParameters _ _) _ = _ at hbody
  rw [hbody]
  rfl

/-- What is dumped of such a macro is read back. -/
theorem Dumpable.ofCommandLine_render (h : Dumpable definition) :
    ∃ again, Definition.ofCommandLine definition.render = .ok again ∧
      again.unplaced = definition.unplaced := by
  obtain ⟨lexemes, hb⟩ := h.body
  obtain ⟨ending, hc, hscan⟩ := hb.scan_definitionText h
  obtain ⟨tokens, ht, hread⟩ := h.onLine.ofCommandLine.1 (hscan ▸ hc)
  rw [hscan] at ht
  have htail := parseTail_parameterLexemes h.parameters nowhere
    (space_behindBlank (respace lexemes))
  have hchecked :
      bodyIssue? definition.parameters (trimStart (lexemes.map Lexeme.token)) = none := by
    rw [← hb.body, bodyIssue?_unplaced, h.checked]
    rfl
  have hparse : Definition.parse nowhere (tokens.map Token.unplaced) = .ok definition.unplaced := by
    rw [ht, List.map_cons, List.map_append, token_word]
    rw [← trimStart_respace, ← trimStart_behindBlank] at hchecked
    rw [parse_of_parts rfl h.free htail hchecked, trimStart_behindBlank, trimStart_respace,
      ← hb.body]
    rfl
  obtain ⟨_, _, -, hsame⟩ | ⟨again, hagain, hsame⟩ :=
    cases_of_toOption (parse_unplaced commandLine nowhere tokens)
  · rw [hparse] at hsame
    contradiction
  · refine ⟨again, ?_, (Except.ok.inj (hparse.symm.trans hsame)).symm⟩
    rw [render_eq, hread, hagain]

/-! ## Definitions on the command line -/

theorem inner_splitDefinition {text : List Char} (h : ∀ c ∈ text, Inner c) :
    ∀ c ∈ (splitDefinition text).1 ++ ' ' :: (splitDefinition text).2, Inner c := by
  have hblank : Inner ' ' := by decide
  unfold splitDefinition
  split
  · refine List.forall_mem_append.2 ⟨h, List.forall_mem_cons.2 ⟨hblank, ?_⟩⟩
    exact List.forall_mem_singleton.2 (by decide)
  · next sign body hd =>
    have hsuffix := List.dropWhile_suffix (l := text) (· ≠ '=')
    rw [hd] at hsuffix
    refine List.forall_mem_append.2
      ⟨fun c hc => h c ((List.takeWhile_sublist _).subset hc), List.forall_mem_cons.2 ⟨hblank, ?_⟩⟩
    exact fun c hc => h c (hsuffix.subset (List.mem_cons_of_mem sign hc))

theorem exists_startsName_of_isHead {head : List Char} (h : isHead head) :
    ∃ c rest, head = c :: rest ∧ startsName c := by
  cases head with
  | nil => contradiction
  | cons c rest =>
    refine ⟨c, rest, rfl, Bool.of_not_eq_false fun hc => ?_⟩
    rw [isHead, afterName?, hc] at h
    contradiction

/-- A definition on the command line, in one line, is read from the lexemes of a text that begins
as a macro name does. -/
theorem exists_lexemes_of_ofCommandLine {text : String} (hi : ∀ c ∈ text.toList, Inner c)
    (h : Definition.ofCommandLine text = .ok definition) :
    ∃ c rest lexemes gap midLine, startsName c ∧ (∀ d ∈ c :: rest, Inner d) ∧
      divide false (.lineStart false) (c :: rest) = ⟨lexemes, .complete gap midLine⟩ ∧
      Definition.parse nowhere (lexemes.map Lexeme.token) = .ok definition.unplaced := by
  obtain ⟨tokens, hl, hh, hp⟩ := exists_parse_of_ofCommandLine h
  have hinner := inner_splitDefinition hi
  obtain ⟨c, rest, hc, hstart⟩ := exists_startsName_of_isHead hh
  generalize (splitDefinition text.toList).2 = body at hl hinner
  rw [hc, List.cons_append] at hl hinner
  generalize rest ++ ' ' :: body = rest at hl hinner
  obtain ⟨hissue, rfl⟩ := lexFragment_eq_ok_iff.1 hl
  have hphases := phases_of_inner hinner
  rw [← String.toList_ofList (l := c :: rest)] at hphases
  have hnewline : '\n' ∉ phases false (String.ofList (c :: rest)).toList := by
    rw [hphases]
    intro hm
    exact (hinner _ (by simpa using hm)).2 rfl
  have hlexemes := @unplaced_words_of_inner commandLine.file _ hnewline
  have hscan : scan false false (String.ofList (c :: rest)) =
      divide false (.lineStart false) (c :: rest) := by
    rw [scan, hphases, String.toList_ofList]
  obtain ⟨gap, he⟩ := ending_eq (hscan ▸ (issue_lex _ _ _ _).1 hissue)
  refine ⟨c, rest, _, gap, _, hstart, hinner, congrArg (Division.mk _) he, ?_⟩
  have hsame := parse_unplaced commandLine nowhere
    (lex false false commandLine.file (String.ofList (c :: rest))).words
  rw [hp, hlexemes, hscan] at hsame
  obtain ⟨_, _, he, -⟩ | ⟨found, hfound, hparse⟩ := cases_of_toOption hsame
  · contradiction
  · obtain rfl := Except.ok.inj hfound
    exact hparse

/-- The body is read from the lexemes behind the signature. -/
theorem exists_body_of_parseTail {context : Context} {chars : List Char} {lexemes : List Lexeme}
    {ending : Ending} {place : Position} {parameters : Option Parameters} {body : List Token}
    (hp : Context.Plain false context) (hn : '\n' ∉ chars)
    (hd : divide false context chars = ⟨lexemes, ending⟩)
    (ht : parseTail place (lexemes.map Lexeme.token) = .ok (parameters, body)) :
    ∃ inner rest, body = inner.map Lexeme.token ∧ inner ⊆ lexemes ∧ '\n' ∉ rest ∧
      divide false (behindParameters context parameters) rest = ⟨inner, ending⟩ := by
  cases parameters with
  | none =>
    obtain ⟨-, rfl⟩ | ⟨_, _, _, -, hs, -⟩ := parseTail_eq_ok ht
    · exact ⟨lexemes, chars, rfl, List.Subset.refl _, hn, hd⟩
    · contradiction
  | some parameters =>
    obtain ⟨front, closing, hs, hk⟩ := (readFrom_of_parseTail ht).closed
    obtain ⟨front, more, rfl, rfl, hm⟩ := List.map_eq_append_iff.1 hs
    obtain ⟨closing, inner, rfl, rfl, rfl⟩ := List.map_eq_cons_iff.1 hm
    obtain ⟨rest, hn, hd⟩ := exists_behind_sign hp hn hk hd
    exact ⟨inner, rest, rfl, fun _ hm => List.mem_append_right _ (.tail _ hm), hn, hd⟩

theorem worded_of_parseTail {lexemes : List Lexeme} {place : Position}
    {parameters : Option Parameters} {body : List Token}
    (hw : ∀ lexeme ∈ lexemes, lexeme.kind = .identifier → IsWord lexeme.text)
    (ht : parseTail place (lexemes.map Lexeme.token) = .ok (parameters, body)) :
    Worded parameters := by
  rintro found rfl name hm
  obtain ⟨token, htoken, hk, rfl⟩ := (readFrom_of_parseTail ht).names name hm
  obtain ⟨lexeme, hl, rfl⟩ := List.mem_map.1 htoken
  have htext : lexeme.token.text.toList = lexeme.text := String.toList_ofList
  exact htext ▸ hw lexeme hl hk

/-- The first lexeme of a text that begins as a macro name does is not behind anything. -/
theorem gap_eq_nil_of_startsName {context : Context} {c : Char} {rest behind : List Char}
    {lexeme : Lexeme} (hc : startsName c) (h : First context (c :: rest) lexeme behind) :
    lexeme.gap = [] := by
  by_contra hg
  have hbreak := h.skipped.atBreak hg
  rw [← h.chars_eq] at hbreak
  have hnot : ∀ d ∈ breaks, startsName d = false := forall_of_all (by decide)
  rw [hnot c (hbreak c rfl)] at hc
  contradiction

/-- Every definition on the command line can be dumped, if it is one line. -/
theorem dumpable_of_ofCommandLine {text : String} (hi : ∀ c ∈ text.toList, Inner c)
    (h : Definition.ofCommandLine text = .ok definition) : Dumpable definition := by
  obtain ⟨c, rest, lexemes, gap, midLine, hc, hinner, hd, hp⟩ :=
    exists_lexemes_of_ofCommandLine hi h
  obtain ⟨nameToken, tail, body, hs, hk, hr, ht, hb, hn, hchecked⟩ := parse_eq_ok hp
  obtain ⟨name, behindName, rfl, rfl, rfl⟩ := List.map_eq_cons_iff.1 hs
  have hmem : ∀ lexeme ∈ name :: behindName,
      lexeme ∈ (divide false (.lineStart false) (c :: rest)).lexemes := by
    rw [hd]
    exact fun lexeme hm => hm
  have hword : IsWord name.text := isWord_of_mem_divide (hmem name (.head _)) hk
  have hnewline : '\n' ∉ c :: rest := fun hm => (hinner _ hm).2 rfl
  have hplain : Context.Plain false (.lineStart false) := rfl
  obtain ⟨behind, first, hbehind⟩ := first_of_divide hplain hnewline hd
  have hname : definition.name.toList = name.text := by
    rw [← Definition.name_unplaced, hn]
    exact String.toList_ofList
  have hkind : name.kind = .identifier := hk
  have hnext := first.plain
  rw [hkind, ← hname] at hnext hbehind
  obtain ⟨inner, chars, rfl, hsub, hchars, hdivide⟩ :=
    exists_body_of_parseTail hnext first.inner hbehind ht
  refine ⟨?_, hname ▸ hword, ?_, ?_, ?_, ?_, inner, ?_, ?_, ?_⟩
  · -- The name begins where the text does, and so with a character that may begin it.
    have heq := first.chars_eq
    rw [gap_eq_nil_of_startsName hc first] at heq
    obtain ⟨start, more, hstart, -, -, hmore⟩ := hword
    rw [hstart] at heq
    obtain ⟨rfl, -⟩ := List.cons.inj heq
    rw [hname, hstart, isName, afterName?, if_pos hc]
    simpa using hmore
  · exact hn ▸ hr
  · exact worded_of_parseTail (fun lexeme hm => isWord_of_mem_divide (hmem lexeme (.tail _ hm))) ht
  · exact wellFormed_of_parseTail ht
  · have hissue := bodyIssue?_unplaced definition.parameters definition.body
    exact Option.map_eq_none_iff.1 (hissue.symm.trans hchecked)
  · exact hb
  · intro lexeme hm d hd
    exact hinner d (mem_of_mem_divide lexeme (hmem lexeme (.tail _ (hsub hm))) hd)
  · exact ⟨chars, gap, midLine, hchars, hdivide⟩

/-- The macro table can be given back on the command line: what is dumped of a macro that was
defined there, in one line, makes a macro with the same name, the same parameters and a body that is
spelled the same. -/
theorem dump_is_read_back {text : String} {definition : Definition}
    (hi : ∀ c ∈ text.toList, c ≠ '\r' ∧ c ≠ '\n')
    (h : Definition.ofCommandLine text = .ok definition) :
    ∃ again, Definition.ofCommandLine
        (definition.signature ++ "=" ++ Token.render definition.body) = .ok again ∧
      again.name = definition.name ∧ definition.isEquivalent again ∧
      again.parameters = definition.parameters ∧
      Definition.spelling again.body = Definition.spelling definition.body := by
  obtain ⟨again, hread, hsame⟩ := (dumpable_of_ofCommandLine hi h).ofCommandLine_render
  have hequivalent : definition.isEquivalent again := by
    rw [← Definition.isEquivalent_unplaced, hsame]
    simp [Definition.isEquivalent]
  have hparts := hequivalent
  simp only [Definition.isEquivalent, Bool.and_eq_true, decide_eq_true_eq] at hparts
  have hname : again.unplaced.name = definition.unplaced.name := by rw [hsame]
  exact ⟨again, hread, hname, hequivalent, hparts.1.symm, hparts.2.symm⟩

/-- A variadic macro whose body begins with a parenthesis and has an equals sign, tabs and a comment
in it. -/
def spacedArgument : String := "F(x,\t...)=(#x /*=*/ = \t__VA_ARGS__)"

/-- The macro that it defines. -/
def spacedMacro : Definition :=
  { name := "F"
    parameters := some ⟨["x"], true⟩
    body :=
      [argumentToken .punctuator "(" 11 false, argumentToken .punctuator "#" 12 false,
       argumentToken .identifier "x" 13 false, argumentToken .punctuator "=" 21 true,
       argumentToken .identifier "__VA_ARGS__" 24 true, argumentToken .punctuator ")" 35 false]
    position := ⟨"<command line>", 1, 1⟩ }

/-- It is dumped with a blank for each of these, and read back. -/
theorem dump_is_read_back_spaced :
    (∀ c ∈ spacedArgument.toList, c ≠ '\r' ∧ c ≠ '\n') ∧
      Definition.ofCommandLine spacedArgument = .ok spacedMacro ∧
      spacedMacro.render = "F(x,...)=(#x = __VA_ARGS__)" ∧
      ∃ again, Definition.ofCommandLine "F(x,...)=(#x = __VA_ARGS__)" = .ok again ∧
        again.name = "F" ∧ spacedMacro.isEquivalent again := by
  have hi : ∀ c ∈ spacedArgument.toList, c ≠ '\r' ∧ c ≠ '\n' := inner_of_all (by decide)
  have hd : Definition.ofCommandLine spacedArgument = .ok spacedMacro := by decide +kernel
  have hr : spacedMacro.render = "F(x,...)=(#x = __VA_ARGS__)" := by decide +kernel
  obtain ⟨again, hread, hn, he, -⟩ := dump_is_read_back hi hd
  exact ⟨hi, hd, hr, again, hr ▸ hread, hn, he⟩

end Macro

end CPreprocessor

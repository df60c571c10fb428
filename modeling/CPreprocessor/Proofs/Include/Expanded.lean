import CPreprocessor.Proofs.Expansion.Verbatim
import CPreprocessor.Proofs.Include.MacroLine
import CPreprocessor.Proofs.Literal.Normal
import CPreprocessor.Proofs.Macro.CommandLine
import CPreprocessor.Proofs.Macro.Epoch
import CPreprocessor.Proofs.Token.Render

/-!
# Includes by way of a macro

A header whose name is one lexeme on the line of an include is divided like any other text where it
is the body of a macro. Expanded and put together again, that body names the same header.

* `reference?_use`: a macro that stands for its body as it is written names what that spells.
* `lastReference?_quoted`: in quotes the body is one literal.
* `Bracketed.exists_between`: in angle brackets it is divided into the brackets and what is between
  them, with no blank anywhere, so that what is between them is rendered as it was written.
* `macro_include_agrees`: both includes name the same header.
-/

namespace CPreprocessor

open Source Lexeme Expansion Include Interleaving Macro

namespace Expanded

variable {files : Files.Tree} {options : Options} {enter : SourceFile.Enter} {session : Session}
  {frame : Frame} {name : String} {lexemes : List Lexeme}

/-! ## What the macro names -/

/-- A macro that stands for its body as it is written names what its body spells. -/
theorem reference?_name {table : Table} {definition : Definition} {use : Token}
    (hp : definition.parameters = none) (hf : table.find? use.text = some definition)
    (hk : use.kind = .identifier) (hh : use.text ∉ use.hide)
    (hb : ∀ token ∈ definition.body, token.isPaste = false)
    (hn : ∀ token ∈ definition.body, token.kind = .identifier →
      table.find? token.text = none ∧ token.text ∉ builtinNames)
    (hs : ∀ token ∈ definition.body.tail, token.kind ≠ .string) :
    Directive.reference? table [use] =
      ([], Reference.ofTokens? (spaceFirst use.space definition.body)) := by
  obtain ⟨tokens, hexpand, hspelling⟩ := expand_name hp hf hk hh hb hn
  have hmerge : Literal.merge tokens = tokens := by
    have htail : tokens.tail.map Definition.tokenSpelling =
        definition.body.tail.map Definition.tokenSpelling := by
      rw [List.map_tail, hspelling, ← List.map_tail]
      cases definition.body <;> rfl
    refine Literal.merge_of_tail fun token hm hk => ?_
    have hspelled : Definition.tokenSpelling token ∈ tokens.tail.map Definition.tokenSpelling :=
      List.mem_map_of_mem hm
    rw [htail] at hspelled
    obtain ⟨other, ho, he⟩ := List.mem_map.1 hspelled
    exact hs other ho ((Prod.mk.inj he).1.trans hk)
  have hheader : use.kind ≠ .headerName := by
    rw [hk]
    decide
  have hevents : (tokens.map Event.token).filterMap Event.issue? = [] ∧
      (tokens.map Event.token).filterMap Event.token? = tokens := by
    simp [List.filterMap_map, Function.comp_def]
  rw [Directive.reference?]
  simp only [if_neg hheader, hexpand, hevents, hmerge, Reference.ofTokens?_congr hspelling]

theorem spaceFirst_trimStart {body : List Token} (h : ∀ first ∈ body.head?, first.space) :
    spaceFirst true (trimStart body) = body := by
  cases body with
  | nil => rfl
  | cons first rest =>
    have hfirst := h first rfl
    obtain ⟨kind, text, position, hide, space⟩ := first
    obtain rfl : space = true := hfirst
    rfl

section Body

/-! The tokens that a body is read from are those of lexemes behind a blank. -/

variable {body : List Token}
  (hbody : body.map Token.unplaced = (behindBlank lexemes).map Lexeme.token)

include hbody

theorem space_of_body : ∀ first ∈ body.head?, first.space := by
  intro first hf
  have hm : first.unplaced ∈ ((behindBlank lexemes).map Lexeme.token).head? := by
    rw [← hbody, List.head?_map, Option.mem_def.1 hf]
    rfl
  exact space_behindBlank lexemes first.unplaced hm

theorem unplaced_body :
    (trimStart body).map Token.unplaced = trimStart (lexemes.map Lexeme.token) := by
  rw [← trimStart_unplaced, hbody, trimStart_behindBlank]

theorem exists_of_mem_body {token : Token} (hm : token ∈ trimStart body) :
    ∃ lexeme ∈ lexemes, token.kind = lexeme.token.kind ∧ token.text = lexeme.token.text := by
  have hu : token.unplaced ∈ (trimStart body).map Token.unplaced := List.mem_map_of_mem hm
  rw [unplaced_body hbody] at hu
  obtain ⟨read, hr, hkind, htext, -⟩ := mem_trimStart hu
  obtain ⟨lexeme, hl, rfl⟩ := List.mem_map.1 hr
  exact ⟨lexeme, hl, hkind, htext⟩

theorem exists_of_mem_tail {token : Token} (hm : token ∈ (trimStart body).tail) :
    ∃ lexeme ∈ lexemes.tail, token.kind = lexeme.kind := by
  have hu : token.unplaced ∈ (trimStart body).tail.map Token.unplaced := List.mem_map_of_mem hm
  rw [List.map_tail, unplaced_body hbody, tail_trimStart, ← List.map_tail] at hu
  obtain ⟨lexeme, hl, he⟩ := List.mem_map.1 hu
  exact ⟨lexeme, hl, (congrArg Token.kind he).symm⟩

end Body

theorem text_of_blankWord {token : Token} (h : token.unplaced = (blankWord name.toList).token) :
    token.text = name :=
  (congrArg Token.text h).trans String.ofList_toList

/-- The header that the use of a macro names whose body was read from these lexemes. -/
theorem reference?_use {table : Table} {site : Position} {defined use : Token} {body : List Token}
    {definition : Definition} (hd : defined.unplaced = (blankWord name.toList).token)
    (hbody : body.map Token.unplaced = (behindBlank lexemes).map Lexeme.token)
    (hu : use.unplaced = (blankWord name.toList).token)
    (hp : Definition.parse site (defined :: body) = .ok definition)
    (hpaste : ∀ lexeme ∈ lexemes, lexeme.token.isPaste = false)
    (hstring : ∀ lexeme ∈ lexemes.tail, lexeme.kind ≠ .string)
    (hfree : ∀ token ∈ definition.body, token.kind = .identifier →
      table.find? token.text = none ∧ token.text ∉ builtinNames ∧ token.text ≠ name) :
    Directive.reference? (table.install definition) [use] =
      ([], Reference.ofTokens? ((behindBlank lexemes).map Lexeme.token)) := by
  have hspace := space_of_body hbody
  obtain ⟨found, tail, read, hsplit, -, -, htail, hread, hname, -⟩ := parse_eq_ok hp
  obtain ⟨rfl, rfl⟩ := List.cons.inj hsplit
  rw [parseTail_of_space hspace] at htail
  obtain ⟨hparameters, rfl⟩ := Prod.mk.inj (Except.ok.inj htail)
  have hdefined : defined.text = name := text_of_blankWord hd
  have hfind : (table.install definition).find? use.text = some definition := by
    rw [text_of_blankWord hu, ← hdefined, ← hname]
    exact Table.find?_install table definition
  have hhide : use.text ∉ use.hide := by
    rw [show use.hide = ∅ from congrArg Token.hide hu]
    exact HideSet.not_mem_empty _
  have hopaque : ∀ token ∈ definition.body, token.isPaste = false := by
    intro token hm
    obtain ⟨lexeme, hl, hkind, htext⟩ := exists_of_mem_body hbody (hread ▸ hm)
    rw [Token.isPaste, Token.isPunctuator, hkind, htext]
    exact hpaste lexeme hl
  have hnames : ∀ token ∈ definition.body, token.kind = .identifier →
      (table.install definition).find? token.text = none ∧ token.text ∉ builtinNames := by
    intro token hm hk
    obtain ⟨hnone, hbuiltin, hne⟩ := hfree token hm hk
    rw [Table.find?_install_of_ne table (hname.trans hdefined ▸ hne.symm)]
    exact ⟨hnone, hbuiltin⟩
  have htail : ∀ token ∈ definition.body.tail, token.kind ≠ .string := by
    intro token hm
    obtain ⟨lexeme, hl, hkind⟩ := exists_of_mem_tail hbody (hread ▸ hm)
    rw [hkind]
    exact hstring lexeme hl
  rw [reference?_name hparameters.symm hfind (congrArg Token.kind hu) hhide hopaque hnames htail,
    show use.space = true from congrArg Token.space hu, hread, spaceFirst_trimStart hspace,
    ← hbody, Reference.ofTokens?_unplaced]

/-! ## Names in quotes -/

theorem ofTokens?_string (header : String) : Reference.ofTokens?
    ((behindBlank [⟨[], .string, enclose false header.toList⟩]).map Lexeme.token) =
      some ⟨header, false⟩ := by
  have hhead : (enclose false header.toList).head? = some '"' := rfl
  simp [Reference.ofTokens?, behindBlank, Lexeme.token, hhead, inner_enclose]

/-- A definition by one literal is accepted. -/
theorem parse_literal {site : Position} {defined literal : Token}
    (hk : defined.kind = .identifier) (hr : isReserved defined.text = false)
    (hs : literal.space) (hl : literal.kind = .string) :
    Definition.parse site [defined, literal] =
      .ok ⟨defined.text, none, trimStart [literal], defined.position⟩ := by
  have hspace : ∀ first ∈ [literal].head?, first.space := fun first hf =>
    Option.some.inj hf ▸ hs
  refine parse_of_parts hk hr (parseTail_of_space hspace _) (bodyIssue?_eq_none_iff.2 ?_)
  simp [trimStart, Token.isPaste, Token.isPunctuator, tokensIssue?, tokenFault?, hl]

theorem lastReference?_quoted (ht : options.trigraphs = false) (hw : IsWord name.toList)
    (hr : isReserved name = false) (hf : session.macros.find? name = none) {header : String}
    (hn : ∀ c ∈ header.toList, c ≠ '"' ∧ c ≠ '\\' ∧ Inner c) :
    lastReference? files options enter session frame (macroSource name ⟨header, false⟩) =
      some ([], some ⟨header, false⟩) := by
  have hoperand := operand_string fun c hc => ⟨(hn c hc).1, (hn c hc).2.1, (hn c hc).2.2.2⟩
  obtain ⟨moved, keyword, defined, use, body, hmoved, hdefined, hbody, huse, hfront, hlast⟩ :=
    @exists_define_use ⟨header, false⟩ name _ files options enter session frame ht hw
      (fun c hc => (hn c hc).2.2) hoperand
  obtain ⟨literal, rest, rfl, hliteral, hrest⟩ := List.map_eq_cons_iff.1 hbody
  obtain rfl := List.map_eq_nil_iff.1 hrest
  have hname : defined.text = name := text_of_blankWord hdefined
  have hkind : literal.kind = .string := congrArg Token.kind hliteral
  have hparse := @parse_literal keyword.position defined literal (congrArg Token.kind hdefined)
    (hname ▸ hr) (congrArg Token.space hliteral) hkind
  have hmacros := @macros_follow_define enter moved keyword _ _ hparse (hmoved ▸ hname ▸ hf)
  rw [hlast, hfront, hmacros, hmoved]
  rw [reference?_use hdefined hbody huse hparse, ofTokens?_string]
  · exact List.forall_mem_singleton.2 rfl
  · exact List.forall_mem_nil _
  · intro token hm hk
    obtain rfl := List.mem_singleton.1 hm
    rw [hkind] at hk
    contradiction

/-! ## Names in angle brackets -/

/-- The tokens of a name in angle brackets begin with the one bracket and end with the other. -/
def Scanned (file header : String) : Prop :=
  ∃ tokens, lexFragment file ("<" ++ header ++ ">") = .ok tokens ∧
    tokens.head?.any (·.isPunctuator "<") ∧ tokens.getLast?.any (·.isPunctuator ">")

/-- A name that can stand in angle brackets in the body of a macro: on its line it is neither
cut off nor changed. -/
structure Bracketed (header : String) : Prop where
  ne : header ≠ ""
  plain : ∀ c ∈ header.toList, isBlank c = false ∧ isQuote c = false ∧ c ≠ '>' ∧ Inner c
  apart : ∀ mark ∈ [['/', '/'], ['/', '*'], ['#', '#'], ['%', ':', '%', ':']],
    ¬mark <:+: header.toList

theorem infix_of_enclose {mark header : List Char} (hne : mark ≠ [])
    (hm : '<' ∉ mark ∧ '>' ∉ mark) (h : mark <:+: enclose true header) : mark <:+: header := by
  rcases List.infix_cons_iff.1 h with hp | h
  · obtain ⟨c, rest, rfl⟩ := List.exists_cons_of_ne_nil hne
    obtain ⟨rfl, -⟩ := List.cons_prefix_cons.1 hp
    exact absurd List.mem_cons_self hm.1
  · rcases List.infix_concat_iff.1 h with hs | h
    · rcases List.suffix_concat_iff.1 hs with rfl | ⟨front, rfl, -⟩
      · contradiction
      · exact absurd (List.mem_append_right _ List.mem_cons_self) hm.2
    · exact h

namespace Bracketed

variable {header : String}

theorem not_infix (h : Bracketed header) {mark : List Char}
    (hm : mark ∈ [['/', '/'], ['/', '*'], ['#', '#'], ['%', ':', '%', ':']]) :
    ¬mark <:+: enclose true header.toList := by
  have hall : ∀ mark ∈ [['/', '/'], ['/', '*'], ['#', '#'], ['%', ':', '%', ':']],
      mark ≠ [] ∧ '<' ∉ mark ∧ '>' ∉ mark := by decide
  intro hi
  obtain ⟨hne, hopen, hclose⟩ := hall mark hm
  exact h.apart mark hm (infix_of_enclose hne ⟨hopen, hclose⟩ hi)

theorem solid (h : Bracketed header) : Solid (enclose true header.toList) := by
  refine solid_of_not_infix ?_ (h.not_infix (by simp)) (h.not_infix (by simp))
  refine List.forall_mem_cons.2 ⟨by decide, List.forall_mem_append.2 ⟨fun c hc => ?_, ?_⟩⟩
  · obtain ⟨hb, hq, -, -, hn⟩ := h.plain c hc
    exact ⟨hb, hq, hn⟩
  · exact List.forall_mem_singleton.2 (by decide)

end Bracketed

/-- The lexeme of a bracket. -/
def bracket (c : Char) : Lexeme := ⟨[], .punctuator, [c]⟩

theorem eq_bracket {lexeme : Lexeme} {c : Char} (hg : lexeme.gap = [])
    (h : lexeme.token.isPunctuator (String.ofList [c])) (hc : c = '<' ∨ c = '>') :
    lexeme = bracket c := by
  have htext : lexeme.token.text = String.ofList [c] :=
    Token.text_of_isPunctuator h (by rcases hc with rfl | rfl <;> decide)
  obtain ⟨gap, kind, text⟩ := lexeme
  obtain rfl : gap = [] := hg
  obtain rfl : kind = .punctuator := Token.kind_of_isPunctuator h
  obtain rfl : text = [c] := String.ofList_injective htext
  rfl

/-- On its own the name in its brackets begins and ends with a bracket. -/
theorem brackets_of_scanned {file header : String} (hi : ∀ c ∈ header.toList, Inner c)
    (hs : Scanned file header) :
    let alone := divide false (.lineStart false) (enclose true header.toList)
    alone.ending.IsComplete ∧
      (∀ first ∈ alone.lexemes.head?, first.token.isPunctuator "<") ∧
      ∃ front last, alone.lexemes = front ++ [last] ∧ last.token.isPunctuator ">" := by
  intro alone
  obtain ⟨tokens, hfragment, hfirst, hlast⟩ := hs
  obtain ⟨hissue, rfl⟩ := lexFragment_eq_ok_iff.1 hfragment
  have htext : ("<" ++ header ++ ">").toList = enclose true header.toList := by
    simp [String.toList_append, enclose]
  have hinner := (@unspliced_enclose true _ hi).inner
  have hphases : phases false ("<" ++ header ++ ">").toList = enclose true header.toList := by
    rw [htext, phases_of_inner hinner]
  have hscan : scan false false ("<" ++ header ++ ">") = alone := by rw [scan, hphases]
  have hline : '\n' ∉ phases false ("<" ++ header ++ ">").toList := by
    rw [hphases]
    exact fun hm => (hinner _ hm).2 rfl
  have hwords := @unplaced_words_of_inner file _ hline
  rw [hscan] at hwords
  refine ⟨hscan ▸ (issue_lex false false file _).1 hissue, fun first hf => ?_, ?_⟩
  · obtain ⟨token, ht, hp⟩ := (Option.any_eq_true _ _).1 hfirst
    have hsame := congrArg List.head? hwords
    rw [List.head?_map, List.head?_map, ht, Option.mem_def.1 hf] at hsame
    obtain he : token.unplaced = first.token := Option.some.inj hsame
    rwa [← he]
  · obtain ⟨token, ht, hp⟩ := (Option.any_eq_true _ _).1 hlast
    have hsame := congrArg List.getLast? hwords
    rw [List.getLast?_map, List.getLast?_map, ht] at hsame
    obtain ⟨last, hl, he⟩ := Option.map_eq_some_iff.1 hsame.symm
    obtain ⟨front, hfront⟩ := List.getLast?_eq_some_iff.1 hl
    refine ⟨front, last, hfront, ?_⟩
    rwa [he]

theorem Bracketed.not_isPaste {header : String} (h : Bracketed header) :
    ∀ lexeme ∈ (divide true .operands (enclose true header.toList)).lexemes,
      lexeme.token.isPaste = false := by
  obtain ⟨lexemes, hdivide, htext, -⟩ := h.solid.division
  intro lexeme hm
  rw [hdivide] at hm
  refine eq_false_of_ne_true fun hp => ?_
  have hinfix : lexeme.text <:+: enclose true header.toList :=
    htext ▸ List.infix_of_mem_flatten (List.mem_map_of_mem hm)
  rcases Token.text_of_isPaste hp with he | he
  · obtain he : lexeme.text = ['#', '#'] := String.ofList_injective he
    exact h.not_infix (by simp) (he ▸ hinfix)
  · obtain he : lexeme.text = ['%', ':', '%', ':'] := String.ofList_injective he
    exact h.not_infix (by simp) (he ▸ hinfix)

theorem Bracketed.opens {file header : String} (h : Bracketed header) (hs : Scanned file header) :
    ∃ more, (divide true .operands (enclose true header.toList)).lexemes = bracket '<' :: more := by
  obtain ⟨-, hfirst, -⟩ := brackets_of_scanned (fun c hc => (h.plain c hc).2.2.2) hs
  have hsolid := h.solid
  have hread : read false (.lineStart false) '<' (header.toList ++ ['>']) = .lexeme _ _ :=
    (read_operands (plain_lineStart false) (by decide) fun ha => absurd ha (by decide)).symm.trans
      hsolid.read_eq
  have halone := Lexeme.divide_cons hsolid.skip_eq hread
  have hbracket := eq_bracket rfl (hfirst _ (congrArg (·.lexemes.head?) halone)) (.inl rfl)
  exact ⟨_, (congrArg Division.lexemes hsolid.divide_cons).trans (congrArg (· :: _) hbracket)⟩

theorem Bracketed.closes {file header : String} (h : Bracketed header) (hs : Scanned file header) :
    [bracket '>'] <:+ (divide true .operands (enclose true header.toList)).lexemes := by
  obtain ⟨hcomplete, -, front, last, halone, hlast⟩ :=
    brackets_of_scanned (fun c hc => (h.plain c hc).2.2.2) hs
  obtain ⟨lexemes, hdivide, -, hlexemes⟩ := h.solid.division
  have hkind : last.kind ≠ .asmBlock := by
    rw [show last.kind = .punctuator from Token.kind_of_isPunctuator hlast]
    decide
  have hsuffix := h.solid.suffix_operands (plain_lineStart false) hcomplete
    (halone ▸ List.suffix_append _ _) hkind
  rw [hdivide] at hsuffix ⊢
  obtain rfl := eq_bracket (hlexemes last (hsuffix.mem List.mem_cons_self)).1 hlast (.inr rfl)
  exact hsuffix

/-- Among the operands of a directive such a name is divided into its brackets and what is between
them. -/
theorem Bracketed.exists_between {file header : String} (h : Bracketed header)
    (hs : Scanned file header) :
    ∃ between, (divide true .operands (enclose true header.toList)).lexemes =
        bracket '<' :: (between ++ [bracket '>']) ∧
      between ≠ [] ∧ (∀ lexeme ∈ between, lexeme.gap = [] ∧ lexeme.kind ≠ .string) ∧
      between.flatMap Lexeme.text = header.toList := by
  obtain ⟨more, hopens⟩ := h.opens hs
  have hcloses := h.closes hs
  rw [hopens] at hcloses
  obtain ⟨between, rfl⟩ : ∃ between, more = between ++ [bracket '>'] := by
    rcases List.suffix_cons_iff.1 hcloses with he | ⟨between, hb⟩
    · exact absurd (List.cons.inj he).1 (by decide)
    · exact ⟨between, hb.symm⟩
  obtain ⟨lexemes, hdivide, htext, hlexemes⟩ := h.solid.division
  obtain rfl : lexemes = bracket '<' :: (between ++ [bracket '>']) :=
    (congrArg Division.lexemes hdivide).symm.trans hopens
  have hbetween : between.flatMap Lexeme.text = header.toList := by
    have hsame : '<' :: (between.flatMap Lexeme.text ++ ['>']) =
        '<' :: (header.toList ++ ['>']) := by
      rw [List.flatMap_cons, List.flatMap_append] at htext
      exact htext
    exact List.append_cancel_right (List.cons.inj hsame).2
  refine ⟨between, hopens, ?_, fun lexeme hm => ?_, hbetween⟩
  · rintro rfl
    exact h.ne (String.toList_eq_nil_iff.1 hbetween.symm)
  · obtain ⟨hg, -, hk⟩ := hlexemes lexeme (by simp [hm])
    exact ⟨hg, hk⟩

theorem ofTokens?_brackets {between : List Lexeme} {header : String} (hne : between ≠ [])
    (hg : ∀ lexeme ∈ between, lexeme.gap = [])
    (ht : between.flatMap Lexeme.text = header.toList) :
    Reference.ofTokens? ((behindBlank (bracket '<' :: (between ++ [bracket '>']))).map
      Lexeme.token) = some ⟨header, true⟩ := by
  have hrender : Token.render (between.map Lexeme.token) = header := by
    refine String.toList_inj.1 ?_
    rw [Lexeme.toList_render, ← ht]
    rw [respace_eq_self hg]
    refine List.flatMap_congr fun lexeme hm => ?_
    rw [whole, hg lexeme hm, List.nil_append]
  have hopens : (Lexeme.token ⟨[' '], .punctuator, ['<']⟩).isPunctuator "<" := by decide
  have hcloses : (bracket '>').token.isPunctuator ">" := by decide
  have hsplit : (behindBlank (bracket '<' :: (between ++ [bracket '>']))).map Lexeme.token =
      Lexeme.token ⟨[' '], .punctuator, ['<']⟩ ::
        (between.map Lexeme.token ++ [(bracket '>').token]) := by
    simp [behindBlank, bracket]
  rw [hsplit, Reference.ofTokens?]
  simp [hopens, hcloses, hne, hrender]

theorem lastReference?_angled (ht : options.trigraphs = false) (hw : IsWord name.toList)
    (hf : session.macros.find? name = none) {file header : String} (h : Bracketed header)
    (hs : Scanned file header)
    (ha : (front files options enter session frame (macroSource name ⟨header, true⟩)).items = [])
    (hn : ∀ definition ∈ (front files options enter session frame
      (macroSource name ⟨header, true⟩)).session.macros.find? name,
      ∀ token ∈ definition.body, token.kind = .identifier →
        session.macros.find? token.text = none ∧ token.text ∉ builtinNames ∧ token.text ≠ name) :
    lastReference? files options enter session frame (macroSource name ⟨header, true⟩) =
      some ([], some ⟨header, true⟩) := by
  obtain ⟨between, hlexemes, hne, hbetween, htext⟩ := h.exists_between hs
  have hoperand : Operand .operands (enclose true header.toList)
      (bracket '<' :: (between ++ [bracket '>'])) := hlexemes ▸ operand_solid h.solid
  have hpaste := h.not_isPaste
  rw [hlexemes] at hpaste
  obtain ⟨moved, keyword, defined, use, body, hmoved, hdefined, hbody, huse, hfront, hlast⟩ :=
    @exists_define_use ⟨header, true⟩ name _ files options enter session frame ht hw
      (fun c hc => (h.plain c hc).2.2.2) hoperand
  have hname : defined.text = name := text_of_blankWord hdefined
  rw [hfront] at ha hn
  obtain ⟨definition, hparse⟩ := exists_of_follow_define ha
  have hdefinition : definition.name = name := by
    obtain ⟨found, tail, read, hsplit, -, -, -, -, hfound, -⟩ := parse_eq_ok hparse
    rw [hfound, ← (List.cons.inj hsplit).1, hname]
  have hmacros := @macros_follow_define enter moved keyword _ _ hparse
    (hmoved ▸ hdefinition ▸ hf)
  rw [hmoved] at hmacros
  have hfind : (session.macros.install definition).find? name = some definition :=
    hdefinition ▸ Table.find?_install session.macros definition
  have hstring : ∀ lexeme ∈ between ++ [bracket '>'], lexeme.kind ≠ .string :=
    List.forall_mem_append.2 ⟨fun lexeme hm => (hbetween lexeme hm).2,
      List.forall_mem_singleton.2 nofun⟩
  rw [hlast, hfront, hmacros, reference?_use hdefined hbody huse hparse hpaste hstring
    (hn definition (hmacros ▸ hfind)),
    ofTokens?_brackets hne (fun lexeme hm => (hbetween lexeme hm).1) htext]

/-! ## Both includes name the same header -/

/-- The include that names a header and the one by way of a macro name the same one, and nothing is
reported of their operands. -/
structure Agrees (files : Files.Tree) (options : Options) (enter : SourceFile.Enter)
    (session : Session) (frame : Frame) (name : String) (reference : Reference) : Prop where
  literal : lastReference? files options enter session frame (literalSource reference) =
    some ([], some reference)
  expanded : lastReference? files options enter session frame (macroSource name reference) =
    some ([], some reference)

/-- The macro is defined by the name in its brackets, and nothing in that is replaced: no
identifier in it names a macro or has a value of its own, and none is the macro itself. -/
structure Verbatim (files : Files.Tree) (options : Options) (enter : SourceFile.Enter)
    (session : Session) (frame : Frame) (name header : String) : Prop where
  accepted :
    (front files options enter session frame (macroSource name ⟨header, true⟩)).items = []
  free : ∀ definition ∈ (front files options enter session frame
      (macroSource name ⟨header, true⟩)).session.macros.find? name,
    ∀ token ∈ definition.body, token.kind = .identifier →
      session.macros.find? token.text = none ∧ token.text ∉ builtinNames ∧ token.text ≠ name

end Expanded

open Expanded

/-- With trigraphs off, an include by way of a macro means the same as one that names the header,
whatever macros there are. In quotes this holds of any name that has no quote, no backslash and no
line terminator in it. In angle brackets it holds of a name without blanks, quotes, brackets that
close it, comments and paste operators, if its brackets are tokens on their own, the definition is
accepted and nothing in it is replaced. -/
theorem macro_include_agrees (files : Files.Tree) (options : Options) (enter : SourceFile.Enter)
    (session : Session) (frame : Frame) (name : String) (ht : options.trigraphs = false)
    (hw : IsWord name.toList) (hr : isReserved name = false)
    (hf : session.macros.find? name = none) (header : String) :
    ((∀ c ∈ header.toList, c ≠ '"' ∧ c ≠ '\\' ∧ Inner c) →
      Agrees files options enter session frame name ⟨header, false⟩) ∧
    (∀ file, Bracketed header → Scanned file header →
      Verbatim files options enter session frame name header →
      Agrees files options enter session frame name ⟨header, true⟩) := by
  constructor
  · intro hn
    exact ⟨lastReference?_literalSource ht fun c hc => ⟨(hn c hc).2.2, (hn c hc).1⟩,
      lastReference?_quoted ht hw hr hf hn⟩
  · intro file hb hs hp
    exact ⟨lastReference?_literalSource ht fun c hc =>
      ⟨(hb.plain c hc).2.2.2, (hb.plain c hc).2.2.1⟩,
      lastReference?_angled ht hw hf hb hs hp.accepted hp.free⟩

/-- A session at its start. -/
def Expanded.sampleSession : Session := { macros := ∅, stack := .empty 200 }

/-- Files that are not read. -/
def Expanded.sampleEnter : SourceFile.Enter := fun session _ _ => ⟨[], session, none⟩

/-- One name in quotes, with blanks and an apostrophe in it, and one in angle brackets, with a
number and signs. -/
theorem macro_include_agrees_names :
    (∀ c ∈ "Bob's types.h".toList, c ≠ '"' ∧ c ≠ '\\' ∧ Inner c) ∧
      Bracketed "c++17/any.h" ∧ Scanned "<scratch>" "c++17/any.h" ∧
      Verbatim ⟨.directory [], []⟩ {} sampleEnter sampleSession sampleFrame "H" "c++17/any.h" ∧
      Agrees ⟨.directory [], []⟩ {} sampleEnter sampleSession sampleFrame "H"
        ⟨"Bob's types.h", false⟩ ∧
      Agrees ⟨.directory [], []⟩ {} sampleEnter sampleSession sampleFrame "H"
        ⟨"c++17/any.h", true⟩ := by
  have hn : ∀ c ∈ "Bob's types.h".toList, c ≠ '"' ∧ c ≠ '\\' ∧ Inner c :=
    forall_of_all (by decide +kernel)
  have hb : Bracketed "c++17/any.h" :=
    ⟨by decide, forall_of_all (by decide +kernel), by decide +kernel⟩
  have hs : Scanned "<scratch>" "c++17/any.h" := by
    have hissue : (lex false false "<scratch>" "<c++17/any.h>").issue = none := by decide +kernel
    exact ⟨_, lexFragment_eq_ok_iff.2 ⟨hissue, rfl⟩, by decide +kernel, by decide +kernel⟩
  have hp : Verbatim ⟨.directory [], []⟩ {} sampleEnter sampleSession sampleFrame "H"
      "c++17/any.h" := ⟨by decide +kernel, by decide +kernel⟩
  have hw : IsWord "H".toList :=
    ⟨'H', [], rfl, by decide +kernel, by decide +kernel, List.forall_mem_nil _⟩
  have hall := macro_include_agrees ⟨.directory [], []⟩ {} sampleEnter sampleSession sampleFrame
    "H" rfl hw (by decide) rfl
  exact ⟨hn, hb, hs, hp, (hall _).1 hn, (hall _).2 "<scratch>" hb hs hp⟩

end CPreprocessor

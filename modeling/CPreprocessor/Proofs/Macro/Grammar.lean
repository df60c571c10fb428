import CPreprocessor.Proofs.Macro.Equivalent
import CPreprocessor.Proofs.Macro.Signature

/-!
# The grammar of definitions

What may stand behind `define`, said without a reader: a name, perhaps a list of parameters, and a
body. Reading a definition accepts exactly that, and refuses everything else as an invalid
definition.

* `Listed`, `ParameterList`: what may stand between the parentheses. `parseParameters_eq_ok_iff`:
  the loop over the parameters reads it.
* `Divides`: where the body begins. `BodyAllowed`: what may stand in it.
* `Defines`: the grammar as a whole. `parse_iff_defines`: it is what is accepted of a fragment.
-/

namespace CPreprocessor.Macro

open Lexeme

variable {place site : Position} {tokens body : List Token} {parameters : Option Parameters}
  {definition : Definition}

/-! ## Parameters -/

/-- The names between the parentheses, with a comma between two of them, and at the end perhaps an
ellipsis. -/
inductive Listed : List Token → List String → Bool → Prop where
  | ellipsis {dots : Token} (h : dots.isPunctuator "...") : Listed [dots] [] true
  | last {name : Token} (hk : name.kind = .identifier) (hn : name.text ≠ variadicName) :
      Listed [name] [name.text] false
  | next {name comma : Token} {list : List Token} {names : List String} {variadic : Bool}
      (hk : name.kind = .identifier) (hn : name.text ≠ variadicName)
      (hc : comma.isPunctuator ",") (h : Listed list names variadic) :
      Listed (name :: comma :: list) (name.text :: names) variadic

/-- A list of parameters without its parentheses. -/
inductive ParameterList : List Token → Parameters → Prop where
  | empty : ParameterList [] ⟨[], false⟩
  | listed {list : List Token} {parameters : Parameters}
      (h : Listed list parameters.names parameters.variadic) (hd : parameters.names.Nodup) :
      ParameterList list parameters

/-- What the loop has read is a list, and none of its names is repeated or was seen before. -/
theorem listed_of_parseParameters {seen : List String} {found : Parameters}
    (h : parseParameters place seen tokens = .ok (found, body)) (hs : seen.Nodup) :
    ∃ list names closing, tokens = list ++ closing :: body ∧ closing.isPunctuator ")" ∧
      Listed list names found.variadic ∧ found.names = seen ++ names ∧ found.names.Nodup := by
  fun_induction parseParameters place seen tokens with
  | case1 | case3 | case4 | case5 | case6 | case7 | case10 => contradiction
  | case2 seen dots hd closing rest hc =>
    obtain ⟨rfl, rfl⟩ := Prod.mk.inj (Except.ok.inj h)
    exact ⟨[dots], [], closing, rfl, hc, .ellipsis hd, (List.append_nil _).symm, hs⟩
  | case8 seen name _ hk hm closing rest hc =>
    obtain ⟨rfl, rfl⟩ := Prod.mk.inj (Except.ok.inj h)
    obtain ⟨hk, hn⟩ := not_or.1 hk
    exact ⟨[name], [name.text], closing, rfl, hc, .last (not_not.1 hk) hn, rfl,
      hs.append (List.nodup_singleton _) (List.disjoint_singleton.2 hm)⟩
  | case9 seen name _ hk hm comma rest _ hc ih =>
    obtain ⟨hk, hn⟩ := not_or.1 hk
    obtain ⟨list, names, closing, rfl, hclosing, hl, hnames, hd⟩ :=
      ih h (hs.append (List.nodup_singleton _) (List.disjoint_singleton.2 hm))
    refine ⟨name :: comma :: list, name.text :: names, closing, rfl, hclosing,
      .next (not_not.1 hk) hn hc hl, ?_, hd⟩
    rw [hnames, List.append_assoc]
    rfl

/-- A list whose names are not repeated is read up to the parenthesis that closes it. -/
theorem Listed.parseParameters {list : List Token} {names : List String} {variadic : Bool}
    (h : Listed list names variadic) {seen : List String} (hd : (seen ++ names).Nodup)
    {closing : Token} (hc : closing.isPunctuator ")") (place : Position) (body : List Token) :
    parseParameters place seen (list ++ closing :: body) =
      .ok (⟨seen ++ names, variadic⟩, body) := by
  induction h generalizing seen with
  | ellipsis hdots =>
    rw [List.cons_append, List.nil_append, Macro.parseParameters, if_pos hdots]
    simp only [hc, if_true, List.append_nil]
  | last hk hn =>
    have hs := (List.nodup_append.1 hd).2.2
    rw [List.cons_append, List.nil_append,
      parseParameters_name hk hn (fun hm => hs _ hm _ (.head _) rfl), if_pos hc]
  | next hk hn hcomma _ ih =>
    have hs := (List.nodup_append.1 hd).2.2
    rw [List.cons_append, List.cons_append,
      parseParameters_name hk hn (fun hm => hs _ hm _ (.head _) rfl),
      if_neg fun hclose => absurd (Token.eq_of_isPunctuator hcomma hclose) (by decide),
      if_pos hcomma, ih (by rwa [List.append_assoc])]
    rw [List.append_assoc]
    rfl

theorem Listed.exists_cons {list : List Token} {names : List String} {variadic : Bool}
    (h : Listed list names variadic) :
    ∃ first rest, list = first :: rest ∧ first.isPunctuator ")" = false := by
  cases h with
  | ellipsis hd =>
    exact ⟨_, _, rfl, eq_false_of_ne_true fun hc => absurd (Token.eq_of_isPunctuator hd hc)
      (by decide)⟩
  | last hk _ | next hk _ _ _ => exact ⟨_, _, rfl, by simp [Token.isPunctuator, hk]⟩

/-- Behind the opening parenthesis a list of parameters is read, up to its closing parenthesis. -/
theorem parseParameterList_eq_ok_iff {found : Parameters} :
    parseParameterList place tokens = .ok (found, body) ↔
      ∃ list closing, tokens = list ++ closing :: body ∧ ParameterList list found ∧
        closing.isPunctuator ")" := by
  constructor
  · intro h
    unfold parseParameterList at h
    split at h
    · contradiction
    · next first rest =>
      split at h
      · next hc =>
        obtain ⟨rfl, rfl⟩ := Prod.mk.inj (Except.ok.inj h)
        exact ⟨[], first, rfl, .empty, hc⟩
      · obtain ⟨list, names, closing, ht, hc, hl, hn, hd⟩ :=
          listed_of_parseParameters h List.nodup_nil
        obtain rfl : found.names = names := hn
        exact ⟨list, closing, ht, .listed hl hd, hc⟩
  · rintro ⟨list, closing, rfl, hl, hc⟩
    cases hl with
    | empty => exact if_pos hc
    | listed hl hd =>
      obtain ⟨first, rest, hfirst, hne⟩ := hl.exists_cons
      have hread : parseParameters place [] (list ++ closing :: body) = .ok (found, body) :=
        hl.parseParameters (show ([] ++ found.names).Nodup from hd) hc place body
      rw [hfirst] at hread ⊢
      exact (if_neg (by simp [hne])).trans hread

/-! ## Parameters and body -/

/-- A parenthesis that opens a list of parameters: no blank stands before it. -/
def Opens (token : Token) : Prop := token.isPunctuator "(" ∧ token.space = false

/-- The tokens behind the name are the body, or a list of parameters and the body behind it. -/
inductive Divides : List Token → Option Parameters → List Token → Prop where
  | objectLike {tokens : List Token} (h : ∀ first ∈ tokens.head?, ¬Opens first) :
      Divides tokens none tokens
  | functionLike {opening closing : Token} {list body : List Token} {parameters : Parameters}
      (ho : Opens opening) (hl : ParameterList list parameters) (hc : closing.isPunctuator ")") :
      Divides (opening :: (list ++ closing :: body)) (some parameters) body

theorem parseTail_eq_ok_iff :
    parseTail place tokens = .ok (parameters, body) ↔ Divides tokens parameters body := by
  have hopens (token : Token) :
      (token.isPunctuator "(" && !token.space) = true ↔ Opens token := by simp [Opens]
  constructor
  · intro h
    unfold parseTail at h
    split at h
    · obtain ⟨rfl, rfl⟩ := Prod.mk.inj (Except.ok.inj h)
      exact .objectLike (fun first hm => absurd hm (Option.not_mem_none first))
    · next opening rest =>
      split at h
      · next ho =>
        cases hl : parseParameterList place rest with
        | error issue => simp [hl, bind, Except.bind] at h
        | ok found =>
          obtain ⟨found, behind⟩ := found
          simp only [hl, bind, Except.bind, pure, Except.pure] at h
          obtain ⟨rfl, rfl⟩ := Prod.mk.inj (Except.ok.inj h)
          obtain ⟨list, closing, rfl, hlist, hc⟩ := parseParameterList_eq_ok_iff.1 hl
          exact .functionLike ((hopens opening).1 ho) hlist hc
      · next ho =>
        obtain ⟨rfl, rfl⟩ := Prod.mk.inj (Except.ok.inj h)
        refine .objectLike ?_
        rintro _ ⟨⟩
        exact mt (hopens opening).2 ho
  · intro h
    cases h with
    | objectLike hn =>
      cases tokens with
      | nil => rfl
      | cons first rest => exact if_neg (mt (hopens first).1 (hn first rfl))
    | @functionLike opening closing list _ found ho hl hc =>
      have hread : parseParameterList place (list ++ closing :: body) = .ok (found, body) :=
        parseParameterList_eq_ok_iff.2 ⟨list, closing, rfl, hl, hc⟩
      rw [parseTail, if_pos ((hopens opening).2 ho), hread]
      rfl

/-- What may stand in a body. The name for further arguments is one of a variadic macro alone, and
the stringizing operator has an operand where there are parameters. -/
structure BodyAllowed (parameters : Option Parameters) (body : List Token) : Prop where
  first : ∀ token ∈ body.head?, token.isPaste = false
  last : ∀ token ∈ body.getLast?, token.isPaste = false
  variadic : ∀ token ∈ body, token.kind = .identifier → token.text = variadicName →
    parameters.any Parameters.variadic
  stringizes : ∀ found ∈ parameters, ∀ front operator behind, body = front ++ operator :: behind →
    operator.isPunctuator "#" →
      ∃ operand ∈ behind.head?, operand.kind = .identifier ∧ found.contains operand.text

/-- A token that is spelled as a word is an identifier, and the identifiers are spelled so. -/
def SpelledApart (tokens : List Token) : Prop :=
  ∀ token ∈ tokens, token.kind = .identifier ↔ IsWord token.text.toList

theorem isWord_variadicName : IsWord variadicName.toList := by
  have hletters : ∀ c ∈ ['_', 'V', 'A', '_', 'A', 'R', 'G', 'S', '_', '_'], Unicode.isWord c :=
    forall_of_all (by decide +kernel)
  exact ⟨'_', _, rfl, by decide, by decide, hletters⟩

/-- The blank before a body counts for nothing in it. -/
theorem bodyIssue?_trimStart (parameters : Option Parameters) (body : List Token) :
    bodyIssue? parameters (trimStart body) = bodyIssue? parameters body := by
  cases body with
  | nil => rfl
  | cons first rest => cases rest <;> rfl

/-- A body passes all checks if and only if it is allowed. Where all tokens spelled as words
are identifiers, the operand of the stringizing operator is one. -/
theorem bodyIssue?_eq_none_iff_bodyAllowed (hw : SpelledApart body)
    (hp : ∀ found ∈ parameters, ∀ name ∈ found.names, IsWord name.toList) :
    bodyIssue? parameters body = none ↔ BodyAllowed parameters body := by
  have hword {found : Parameters} (hf : found ∈ parameters) {name : String}
      (hn : found.contains name) : IsWord name.toList := by
    simp only [Parameters.contains, Bool.or_eq_true, Bool.and_eq_true, decide_eq_true_eq,
      List.contains_iff_mem] at hn
    obtain hn | ⟨-, rfl⟩ := hn
    · exact hp found hf name hn
    · exact isWord_variadicName
  rw [bodyIssue?_eq_none_iff, tokensIssue?_eq_none_iff]
  simp only [tokenFault?_eq_none_iff]
  constructor
  · rintro ⟨hfirst, hlast, h⟩
    refine ⟨hfirst, hlast, fun token hm => ?_, fun found hf front operator behind hb ho => ?_⟩
    · obtain ⟨front, behind, hb⟩ := List.append_of_mem hm
      exact (h front token behind hb).1
    · obtain ⟨operand, hm, hc⟩ := (h front operator behind hb).2 found hf ho
      have hmem : operand ∈ body := by
        rw [hb]
        exact List.mem_append_right _ (.tail _ (List.mem_of_mem_head? hm))
      exact ⟨operand, hm, (hw operand hmem).2 (hword hf hc), hc⟩
  · intro h
    refine ⟨h.first, h.last, fun front token behind hb => ⟨?_, fun found hf ho => ?_⟩⟩
    · exact h.variadic token (hb ▸ List.mem_append_right _ (.head _))
    · obtain ⟨operand, hm, -, hc⟩ := h.stringizes found hf front token behind hb ho
      exact ⟨operand, hm, hc⟩

/-! ## Definitions -/

/-- The tokens behind `define`, and the definition that they make. -/
inductive Defines : List Token → Definition → Prop where
  | intro {name : Token} {tail body : List Token} {parameters : Option Parameters}
      (hk : name.kind = .identifier) (hn : name.text ∉ ["__FILE__", "__LINE__", "defined"])
      (hd : Divides tail parameters body) (hb : BodyAllowed parameters body) :
      Defines (name :: tail) ⟨name.text, parameters, trimStart body, name.position⟩

theorem isReserved_eq_false_iff {name : String} :
    isReserved name = false ↔ name ∉ ["__FILE__", "__LINE__", "defined"] := by
  simp [isReserved, builtinNames, and_assoc]

/-- In what was read from a text, the identifiers are what is spelled as a word. -/
theorem spelledApart_of_lexFragment {file text : String} (h : lexFragment file text = .ok tokens) :
    SpelledApart tokens := by
  intro token hm
  have hu : token.unplaced ∈ tokens.map Token.unplaced := List.mem_map_of_mem hm
  rw [← (lexFragment_eq_ok_iff.1 h).2, unplaced_words] at hu
  obtain ⟨lexeme, hl, he⟩ := List.mem_map.1 hu
  have hmem := (List.mem_filter.1 hl).1
  have hkind : token.kind = lexeme.kind := congrArg Token.kind he.symm
  have htext : token.text.toList = lexeme.text := by
    rw [← Token.text_unplaced, ← he]
    exact String.toList_ofList
  rw [hkind, htext]
  exact ⟨isWord_of_mem_divide hmem, identifier_of_mem_divide hmem⟩

/-- Reading a definition accepts what the grammar allows, and gives the definition that it says. -/
theorem parse_eq_ok_iff (hw : SpelledApart tokens) :
    Definition.parse site tokens = .ok definition ↔ Defines tokens definition := by
  -- What is known of all tokens is known of the body behind the name and the parameters.
  have hissue {name : Token} {tail body : List Token} {parameters : Option Parameters}
      (hw : SpelledApart (name :: tail))
      (ht : parseTail name.position tail = .ok (parameters, body)) :
      bodyIssue? parameters (trimStart body) = none ↔ BodyAllowed parameters body := by
    rw [bodyIssue?_trimStart]
    refine bodyIssue?_eq_none_iff_bodyAllowed (fun token hm => hw token ?_) ?_
    · exact .tail _ (mem_of_parseTail ht hm)
    · rintro found ⟨⟩ parameter hp
      obtain ⟨token, hm, hk, rfl⟩ := (readFrom_of_parseTail ht).names parameter hp
      exact (hw token (.tail _ hm)).1 hk
  constructor
  · intro h
    obtain ⟨name, tail, body, rfl, hk, hr, ht, hb, -, hi⟩ := parse_eq_ok h
    rw [hb] at hi
    rw [← Except.ok.inj ((parse_of_parts hk hr ht hi).symm.trans h)]
    exact .intro hk (isReserved_eq_false_iff.1 hr) (parseTail_eq_ok_iff.1 ht) ((hissue hw ht).1 hi)
  · intro h
    cases h with
    | @intro name tail body parameters hk hn hd hb =>
      have ht : parseTail name.position tail = .ok (parameters, body) := parseTail_eq_ok_iff.2 hd
      exact parse_of_parts hk (isReserved_eq_false_iff.2 hn) ht ((hissue hw ht).2 hb)

/-- What is read behind `define` is accepted if and only if it makes a definition, and gives that
definition. Otherwise it is refused as an invalid one. -/
theorem parse_iff_defines {file text : String} {tokens : List Token}
    (h : lexFragment file text = .ok tokens) (site : Position) :
    (∀ definition, Definition.parse site tokens = .ok definition ↔ Defines tokens definition) ∧
      ∀ issue, Definition.parse site tokens = .error issue →
        issue.fault.category = .invalidDefinition :=
  ⟨fun _ => parse_eq_ok_iff (spelledApart_of_lexFragment h), fun _ => category_of_parse⟩

/-- A variadic macro whose operators are digraphs, and the parameters of one that are not closed. -/
theorem parse_iff_defines_digraphs :
    let accepted := "F(a, ...) %:a%:%:%:__VA_ARGS__"
    let refused := "F(a, ..."
    let macroF : Definition :=
      { name := "F"
        parameters := some ⟨["a"], true⟩
        body := trimStart ((Expansion.fragment "main.c" accepted).drop 6)
        position := .start "main.c" }
    (lexFragment "main.c" accepted = .ok (Expansion.fragment "main.c" accepted) ∧
      Defines (Expansion.fragment "main.c" accepted) macroF) ∧
    lexFragment "main.c" refused = .ok (Expansion.fragment "main.c" refused) ∧
      ¬∃ definition, Defines (Expansion.fragment "main.c" refused) definition := by
  intro accepted refused macroF
  have haccepted : lexFragment "main.c" accepted = .ok (Expansion.fragment "main.c" accepted) :=
    Expansion.eq_ok_of_toOption (by decide +kernel)
  have hrefused : lexFragment "main.c" refused = .ok (Expansion.fragment "main.c" refused) :=
    Expansion.eq_ok_of_toOption (by decide +kernel)
  refine ⟨⟨haccepted, ?_⟩, hrefused, ?_⟩
  · refine ((parse_iff_defines haccepted (.start "main.c")).1 macroF).1 ?_
    exact Expansion.eq_ok_of_toOption (by decide +kernel)
  · rintro ⟨definition, hd⟩
    have hp := ((parse_iff_defines hrefused (.start "main.c")).1 definition).2 hd
    have hnone : (Definition.parse (.start "main.c")
        (Expansion.fragment "main.c" refused)).toOption = none := by decide +kernel
    rw [hp] at hnone
    contradiction

end CPreprocessor.Macro

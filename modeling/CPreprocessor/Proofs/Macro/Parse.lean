import CPreprocessor.Macro.Parse

/-!
# Definitions that were read

What is known of a definition that was read from the tokens behind `define`: the tokens behind its
name are its parameters and its body (`parseTail_eq_ok`), its body has passed all checks
(`bodyIssue?_of_parse`), and each of its tokens is one of those that were read, with at most the
blank before it dropped (`mem_body_of_parse`). Its parts give it back (`parse_of_parts`). A
definition that is refused is an invalid one, whatever is wrong with it (`category_of_parse`).
-/

namespace CPreprocessor.Macro

variable {place : Position} {tokens : List Token} {definition : Definition}

/-! ## Definitions that are accepted -/

theorem mem_of_parseParameters {seen : List String} {parameters : Parameters} {body : List Token}
    {token : Token} (h : parseParameters place seen tokens = .ok (parameters, body))
    (hm : token ∈ body) : token ∈ tokens := by
  fun_induction parseParameters place seen tokens with
  | case1 | case3 | case4 | case5 | case6 | case7 | case10 => contradiction
  | case2 seen token' _ close rest _ =>
    obtain ⟨-, rfl⟩ := Prod.mk.inj (Except.ok.inj h)
    simp [hm]
  | case8 seen token' _ _ _ separator rest _ =>
    obtain ⟨-, rfl⟩ := Prod.mk.inj (Except.ok.inj h)
    simp [hm]
  | case9 seen token' _ _ _ separator rest _ _ ih =>
    exact List.mem_cons_of_mem _ (List.mem_cons_of_mem _ (ih h))

/-- One more name is read, in front of the sign behind it. -/
theorem parseParameters_name {seen : List String} {name : Token} (hk : name.kind = .identifier)
    (hn : name.text ≠ variadicName) (hs : name.text ∉ seen) (place : Position) (separator : Token)
    (tokens : List Token) :
    parseParameters place seen (name :: separator :: tokens) =
      if separator.isPunctuator ")" then .ok (⟨seen ++ [name.text], false⟩, tokens)
      else if separator.isPunctuator "," then parseParameters place (seen ++ [name.text]) tokens
      else .error (.placed .parameterSeparator separator.position) := by
  rw [parseParameters]
  simp [Token.isPunctuator, hk, hn, hs]

/-- The tokens behind a name are the body, or parameters in parentheses and the body behind
them. -/
theorem parseTail_eq_ok {parameters : Option Parameters} {body : List Token}
    (h : parseTail place tokens = .ok (parameters, body)) :
    parameters = none ∧ body = tokens ∨
      ∃ opening rest found, tokens = opening :: rest ∧ parameters = some found ∧
        ((∃ closing, rest = closing :: body ∧ closing.isPunctuator ")" ∧ found = ⟨[], false⟩) ∨
          parseParameters place [] rest = .ok (found, body)) := by
  unfold parseTail at h
  split at h
  · obtain ⟨rfl, rfl⟩ := Prod.mk.inj (Except.ok.inj h)
    exact .inl ⟨rfl, rfl⟩
  · next opening rest =>
    split at h
    · cases hl : parseParameterList place rest with
      | error issue => simp [hl, bind, Except.bind] at h
      | ok found =>
        obtain ⟨found, behind⟩ := found
        simp only [hl, bind, Except.bind, pure, Except.pure] at h
        obtain ⟨rfl, rfl⟩ := Prod.mk.inj (Except.ok.inj h)
        refine .inr ⟨opening, rest, found, rfl, rfl, ?_⟩
        unfold parseParameterList at hl
        split at hl
        · contradiction
        · next closing rest =>
          split at hl
          · next hc =>
            obtain ⟨rfl, rfl⟩ := Prod.mk.inj (Except.ok.inj hl)
            exact .inl ⟨closing, rfl, hc, rfl⟩
          · exact .inr hl
    · obtain ⟨rfl, rfl⟩ := Prod.mk.inj (Except.ok.inj h)
      exact .inl ⟨rfl, rfl⟩

/-- What stands behind a name and a blank is the body. -/
theorem parseTail_of_space {body : List Token} (hb : ∀ first ∈ body.head?, first.space)
    (place : Position) : parseTail place body = .ok (none, body) := by
  cases body with
  | nil => rfl
  | cons first rest => rw [parseTail, if_neg (by simp [hb first rfl])]

theorem mem_of_parseTail {parameters : Option Parameters} {body : List Token} {token : Token}
    (h : parseTail place tokens = .ok (parameters, body)) (hm : token ∈ body) :
    token ∈ tokens := by
  obtain ⟨-, rfl⟩ | ⟨opening, rest, found, rfl, -, ⟨closing, rfl, -, -⟩ | hr⟩ := parseTail_eq_ok h
  · exact hm
  · simp [hm]
  · exact List.mem_cons_of_mem _ (mem_of_parseParameters hr hm)

/-- The parts that a definition was read from. -/
theorem parse_eq_ok (h : Definition.parse place tokens = .ok definition) :
    ∃ name tail body, tokens = name :: tail ∧ name.kind = .identifier ∧
      isReserved name.text = false ∧
      parseTail name.position tail = .ok (definition.parameters, body) ∧
      definition.body = trimStart body ∧ definition.name = name.text ∧
      bodyIssue? definition.parameters definition.body = none := by
  unfold Definition.parse at h
  split at h
  · contradiction
  · next name tail =>
    split at h
    · contradiction
    · next hk =>
      split at h
      · contradiction
      · next hr =>
        cases ht : parseTail name.position tail with
        | error issue => simp [ht, bind, Except.bind] at h
        | ok found =>
          obtain ⟨parameters, body⟩ := found
          simp only [ht, bind, Except.bind] at h
          split at h
          · contradiction
          · next hi =>
            obtain rfl := Except.ok.inj h
            exact ⟨name, tail, body, rfl, by simpa using hk, by simpa using hr, ht, rfl, rfl, hi⟩

/-- The parts of a definition give it back. -/
theorem parse_of_parts {site : Position} {name : Token} {tail body : List Token}
    {parameters : Option Parameters} (hk : name.kind = .identifier)
    (hr : isReserved name.text = false)
    (ht : parseTail name.position tail = .ok (parameters, body))
    (hb : bodyIssue? parameters (trimStart body) = none) :
    Definition.parse site (name :: tail) =
      .ok ⟨name.text, parameters, trimStart body, name.position⟩ := by
  rw [Definition.parse, if_neg (by simp [hk]), if_neg (by simp [hr]), ht]
  simp only [bind, Except.bind, hb]
  rfl

theorem bodyIssue?_of_parse (h : Definition.parse place tokens = .ok definition) :
    bodyIssue? definition.parameters definition.body = none := by
  obtain ⟨-, -, -, -, -, -, -, -, -, hi⟩ := parse_eq_ok h
  exact hi

theorem mem_trimStart {body : List Token} {token : Token} (hm : token ∈ trimStart body) :
    ∃ read ∈ body, token.kind = read.kind ∧ token.text = read.text ∧ token.hide = read.hide := by
  cases body with
  | nil => contradiction
  | cons first rest =>
    rcases List.mem_cons.1 hm with rfl | hr
    · exact ⟨first, List.mem_cons_self, rfl, rfl, rfl⟩
    · exact ⟨token, List.mem_cons_of_mem _ hr, rfl, rfl, rfl⟩

theorem tail_trimStart (tokens : List Token) : (trimStart tokens).tail = tokens.tail := by
  cases tokens <;> rfl

theorem mem_body_of_parse {token : Token} (h : Definition.parse place tokens = .ok definition)
    (hm : token ∈ definition.body) :
    ∃ read ∈ tokens, token.kind = read.kind ∧ token.text = read.text ∧
      token.hide = read.hide := by
  obtain ⟨name, tail, body, rfl, -, -, ht, hb, -⟩ := parse_eq_ok h
  rw [hb] at hm
  obtain ⟨read, hr, he⟩ := mem_trimStart hm
  exact ⟨read, List.mem_cons_of_mem _ (mem_of_parseTail ht hr), he⟩

/-- A body is as it should be if it does not begin or end with the paste operator, and its tokens
have no fault. -/
theorem bodyIssue?_eq_none_iff {parameters : Option Parameters} {body : List Token} :
    bodyIssue? parameters body = none ↔
      (∀ first ∈ body.head?, first.isPaste = false) ∧
        (∀ last ∈ body.getLast?, last.isPaste = false) ∧ tokensIssue? parameters body = none := by
  cases body with
  | nil => simp [bodyIssue?, tokensIssue?]
  | cons first rest =>
    rw [bodyIssue?]
    split
    · next hp =>
      refine iff_of_false nofun ?_
      rintro ⟨hfirst, hlast, -⟩
      rw [hfirst first rfl, Bool.false_or, Option.any_eq_true] at hp
      obtain ⟨last, hm, hl⟩ := hp
      exact absurd (hlast last hm) (by simp [hl])
    · next hp =>
      simp only [Bool.or_eq_true, not_or, Bool.not_eq_true, Option.any_eq_false] at hp
      refine ⟨fun h => ⟨?_, hp.2, h⟩, fun h => h.2.2⟩
      rintro _ ⟨⟩
      exact hp.1

/-- No body that was read begins or ends with the paste operator. -/
theorem not_isPaste_edge_of_parse (h : Definition.parse place tokens = .ok definition) :
    (∀ first ∈ definition.body.head?, first.isPaste = false) ∧
      ∀ last ∈ definition.body.getLast?, last.isPaste = false :=
  have hi := bodyIssue?_eq_none_iff.1 (bodyIssue?_of_parse h)
  ⟨hi.1, hi.2.1⟩

/-! ## Definitions that are refused -/

theorem category_of_parseParameters {place : Position} {seen : List String} {tokens : List Token}
    {issue : Issue} (h : parseParameters place seen tokens = .error issue) :
    issue.fault.category = .invalidDefinition := by
  fun_induction parseParameters place seen tokens with
  | case9 _ _ _ _ _ _ _ _ _ ih => exact ih h
  | case2 | case8 => contradiction
  | case1 | case3 | case4 | case5 | case6 | case7 | case10 =>
    obtain rfl := Except.error.inj h
    rfl

theorem category_of_parseTail {place : Position} {tokens : List Token} {issue : Issue}
    (h : parseTail place tokens = .error issue) : issue.fault.category = .invalidDefinition := by
  unfold parseTail at h
  split at h
  · contradiction
  · next first rest =>
    split at h
    · cases hl : parseParameterList place rest with
      | ok found => simp [hl, bind, Except.bind, pure, Except.pure] at h
      | error issue' =>
        simp only [hl, bind, Except.bind, Except.error.injEq] at h
        subst h
        unfold parseParameterList at hl
        split at hl
        · obtain rfl := Except.error.inj hl
          rfl
        · split at hl
          · contradiction
          · exact category_of_parseParameters hl
    · contradiction

theorem category_of_bodyIssue? {parameters : Option Parameters} {body : List Token} {issue : Issue}
    (h : bodyIssue? parameters body = some issue) :
    issue.fault.category = .invalidDefinition := by
  have htoken {token : Token} {behind : List Token} {fault : Fault}
      (hf : tokenFault? parameters token behind = some fault) :
      fault.category = .invalidDefinition := by
    unfold tokenFault? at hf
    grind [Fault.category]
  have htokens (tokens : List Token) (ht : tokensIssue? parameters tokens = some issue) :
      issue.fault.category = .invalidDefinition := by
    induction tokens with
    | nil => contradiction
    | cons token rest ih =>
      unfold tokensIssue? at ht
      split at ht
      · next fault hf =>
        obtain rfl := Option.some.inj ht
        exact htoken hf
      · exact ih ht
  unfold bodyIssue? at h
  split at h
  · contradiction
  · split at h
    · obtain rfl := Option.some.inj h
      rfl
    · exact htokens _ h

/-- What is wrong with a definition is an error of one family. -/
theorem category_of_parse {site : Position} {tokens : List Token} {issue : Issue}
    (h : Definition.parse site tokens = .error issue) :
    issue.fault.category = .invalidDefinition := by
  unfold Definition.parse at h
  split at h
  · obtain rfl := Except.error.inj h
    rfl
  · next name tail =>
    split at h
    · obtain rfl := Except.error.inj h
      rfl
    split at h
    · obtain rfl := Except.error.inj h
      rfl
    cases ht : parseTail name.position tail with
    | error issue' =>
      simp only [ht, bind, Except.bind, Except.error.injEq] at h
      subst h
      exact category_of_parseTail ht
    | ok found =>
      simp only [ht, bind, Except.bind] at h
      split at h
      · next hb =>
        obtain rfl := Except.error.inj h
        exact category_of_bodyIssue? hb
      · contradiction

end CPreprocessor.Macro

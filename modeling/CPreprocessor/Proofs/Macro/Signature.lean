import CPreprocessor.Proofs.Lexeme.Words
import CPreprocessor.Proofs.Macro.WellFormed

/-!
# Signatures

The signature of a macro is its name and, for a function-like macro, its parameters in parentheses.
Read again, in front of a blank and the body, it gives the same parameters.

* `ReadFrom`: parameters whose names stand among some tokens, and a body behind the parenthesis that
  closes them. `readFrom_of_parseTail`: those that were read.
* `Parameters.lexemes`, `separated`: the words of a list of parameters, and the list with its commas
  and its closing parenthesis.
* `divide_separated`: its text is divided into these lexemes. `parseParameterList_separated`: the
  parameters are read from them.
-/

namespace CPreprocessor.Macro

open Lexeme

variable {place : Position} {tokens body : List Token} {parameters : Parameters}

/-! ## Parameters that were read -/

/-- The parameters stand among the tokens that were read, and the body behind a closing parenthesis
among them. -/
structure ReadFrom (tokens : List Token) (parameters : Parameters) (body : List Token) : Prop where
  closed : ∃ front closing, tokens = front ++ closing :: body ∧ closing.kind = .punctuator
  names : ∀ name ∈ parameters.names, ∃ token ∈ tokens, token.kind = .identifier ∧ token.text = name

theorem ReadFrom.cons (token : Token) (h : ReadFrom tokens parameters body) :
    ReadFrom (token :: tokens) parameters body := by
  obtain ⟨front, closing, rfl, hc⟩ := h.closed
  refine ⟨⟨token :: front, closing, rfl, hc⟩, fun name hm => ?_⟩
  obtain ⟨read, hr, h⟩ := h.names name hm
  exact ⟨read, .tail _ hr, h⟩

/-- The names seen so far aside. -/
theorem readFrom_of_parseParameters {seen : List String}
    (h : parseParameters place seen tokens = .ok (parameters, body)) :
    ∃ names, parameters.names = seen ++ names ∧
      ReadFrom tokens ⟨names, parameters.variadic⟩ body := by
  fun_induction parseParameters place seen tokens with
  | case1 | case3 | case4 | case5 | case6 | case7 | case10 => contradiction
  | case2 seen token _ close rest hc =>
    obtain ⟨rfl, rfl⟩ := Prod.mk.inj (Except.ok.inj h)
    exact ⟨[], (List.append_nil _).symm, ⟨[token], close, rfl, Token.kind_of_isPunctuator hc⟩,
      fun name hm => absurd hm List.not_mem_nil⟩
  | case8 seen token _ hk _ separator rest hs =>
    obtain ⟨rfl, rfl⟩ := Prod.mk.inj (Except.ok.inj h)
    refine ⟨[token.text], rfl, ⟨[token], separator, rfl, Token.kind_of_isPunctuator hs⟩, ?_⟩
    rintro name hm
    obtain rfl := List.mem_singleton.1 hm
    exact ⟨token, .head _, by simpa using (not_or.1 hk).1, rfl⟩
  | case9 seen token _ hk _ separator rest _ _ ih =>
    obtain ⟨names, hn, hr⟩ := ih h
    refine ⟨token.text :: names, by simp [hn], (hr.cons separator).cons token |>.closed, ?_⟩
    intro name hm
    rcases List.mem_cons.1 hm with rfl | hm
    · exact ⟨token, .head _, by simpa using (not_or.1 hk).1, rfl⟩
    · exact ((hr.cons separator).cons token).names name hm

theorem readFrom_of_parseTail
    (h : parseTail place tokens = .ok (some parameters, body)) :
    ReadFrom tokens parameters body := by
  obtain ⟨hn, -⟩ | ⟨opening, rest, found, rfl, hp, hr⟩ := parseTail_eq_ok h
  · contradiction
  · obtain rfl := Option.some.inj hp
    refine .cons opening ?_
    obtain ⟨closing, rfl, hc, rfl⟩ | hr := hr
    · exact ⟨⟨[], closing, rfl, Token.kind_of_isPunctuator hc⟩,
        fun name hm => absurd hm List.not_mem_nil⟩
    · obtain ⟨names, hn, hr⟩ := readFrom_of_parseParameters hr
      rw [List.nil_append] at hn
      subst hn
      exact hr

/-! ## The lexemes of a list of parameters -/

/-- A word of a signature. -/
def word (name : String) : Lexeme := ⟨[], .identifier, name.toList⟩

/-- A sign of a signature. -/
def sign (text : List Char) : Lexeme := ⟨[], .punctuator, text⟩

/-- Lexemes with commas between them, up to a closing parenthesis. -/
def separated : List Lexeme → List Lexeme
  | [] => [sign [')']]
  | [last] => [last, sign [')']]
  | first :: next :: more => first :: sign [','] :: separated (next :: more)

/-- The names of the parameters, and an ellipsis if there can be further arguments. -/
def Parameters.lexemes (parameters : Parameters) : List Lexeme :=
  parameters.names.map word ++ if parameters.variadic then [sign ['.', '.', '.']] else []

/-- A word or a sign with nothing in front of it. -/
inductive InSignature : Lexeme → Prop where
  | word {name : String} (h : IsWord name.toList) : InSignature (word name)
  | sign {text : List Char} (h : text ∈ signs) : InSignature (sign text)

theorem InSignature.gap {lexeme : Lexeme} (h : InSignature lexeme) : lexeme.gap = [] := by
  cases h <;> rfl

theorem Parameters.inSignature_lexemes (hw : ∀ name ∈ parameters.names, IsWord name.toList) :
    ∀ lexeme ∈ parameters.lexemes, InSignature lexeme := by
  intro lexeme hm
  rcases List.mem_append.1 hm with hm | hm
  · obtain ⟨name, hn, rfl⟩ := List.mem_map.1 hm
    exact .word (hw name hn)
  · split at hm
    · rw [List.mem_singleton.1 hm]
      exact .sign (by decide)
    · contradiction

theorem inSignature_separated {lexemes : List Lexeme} (h : ∀ lexeme ∈ lexemes, InSignature lexeme) :
    ∀ lexeme ∈ separated lexemes, InSignature lexeme := by
  have hclosing : InSignature (sign [')']) := .sign (by decide)
  have hcomma : InSignature (sign [',']) := .sign (by decide)
  fun_induction separated lexemes with
  | case1 => exact List.forall_mem_singleton.2 hclosing
  | case2 last =>
    exact List.forall_mem_cons.2 ⟨h last (.head _), List.forall_mem_singleton.2 hclosing⟩
  | case3 first next more ih =>
    obtain ⟨hf, hr⟩ := List.forall_mem_cons.1 h
    exact List.forall_mem_cons.2 ⟨hf, List.forall_mem_cons.2 ⟨hcomma, ih hr⟩⟩

/-- A signature is made of the characters of words and signs. -/
theorem InSignature.isWord_or {lexeme : Lexeme} (h : InSignature lexeme) {c : Char}
    (hm : c ∈ lexeme.whole) : Unicode.isWord c ∨ c ∈ ['(', ',', ')', '.'] := by
  cases h with
  | word hw =>
    obtain ⟨first, rest, ht, -, hs, hr⟩ := hw
    left
    have hc : c ∈ first :: rest := ht ▸ hm
    rcases List.mem_cons.1 hc with rfl | hc
    · exact Unicode.isWord_of_isWordStart hs
    · exact hr c hc
  | sign hs =>
    right
    have hall : ∀ text ∈ signs, text.all (· ∈ ['(', ',', ')', '.']) := by decide
    exact forall_of_all (hall _ hs) c hm

/-- A lexeme of a signature is read in front of a comma or a parenthesis. -/
theorem InSignature.divide {lexeme : Lexeme} {context : Context} (h : InSignature lexeme)
    (hp : Context.Plain false context) {d : Char} (hd : d ∈ delimiters) (other : List Char) :
    ∃ next, Context.Plain false next ∧ Lexeme.divide false context (lexeme.whole ++ d :: other) =
      (Lexeme.divide false next (d :: other)).cons lexeme := by
  cases h with
  | word hw =>
    refine ⟨_, ?_, divide_word hw fun c hc =>
      endsWord_of_mem_delimiters c (Option.some.inj hc ▸ hd)⟩
    cases context <;> trivial
  | sign hs => exact ⟨.text false, trivial, divide_sign hp hs _⟩

/-- The text of a list of parameters is divided into its lexemes. -/
theorem divide_separated {lexemes : List Lexeme} (h : ∀ lexeme ∈ lexemes, InSignature lexeme)
    {context : Context} (hp : Context.Plain false context) (other : List Char) :
    divide false context ((separated lexemes).flatMap whole ++ other) =
      (divide false (.text false) other).prepend (separated lexemes) := by
  have hclosing : [')'] ∈ signs := by decide
  have hcomma : [','] ∈ signs := by decide
  fun_induction separated lexemes generalizing context with
  | case1 => exact divide_sign hp hclosing other
  | case2 last =>
    obtain ⟨behind, hb, hd⟩ := (h last (.head _)).divide hp (d := ')') (by decide) other
    rw [List.flatMap_cons, List.append_assoc]
    exact hd.trans (congrArg _ (divide_sign hb hclosing other))
  | case3 first next more ih =>
    obtain ⟨hf, hr⟩ := List.forall_mem_cons.1 h
    obtain ⟨behind, hb, hd⟩ := hf.divide hp (d := ',') (by decide)
      ((separated (next :: more)).flatMap whole ++ other)
    have hsign := divide_sign hb hcomma ((separated (next :: more)).flatMap whole ++ other)
    rw [@ih hr (.text false) trivial] at hsign
    rw [List.flatMap_cons, List.append_assoc, List.flatMap_cons, List.append_assoc]
    exact hd.trans (congrArg _ hsign)

/-- The text of a list of parameters. -/
theorem whole_separated {lexemes : List Lexeme} (h : ∀ lexeme ∈ lexemes, InSignature lexeme) :
    (separated lexemes).flatMap whole =
      (String.intercalate "," (lexemes.map fun lexeme => String.ofList lexeme.text)).toList ++
        [')'] := by
  fun_induction separated lexemes with
  | case1 => rfl
  | case2 last =>
    have hgap := (h last (.head _)).gap
    simp [whole, hgap, sign]
  | case3 first next more ih =>
    obtain ⟨hf, hr⟩ := List.forall_mem_cons.1 h
    rw [List.flatMap_cons, List.flatMap_cons, ih hr]
    simp [whole, hf.gap, sign, String.intercalate_cons_cons]

theorem Parameters.map_text_lexemes (parameters : Parameters) :
    (parameters.lexemes.map fun lexeme => String.ofList lexeme.text) =
      parameters.names ++ if parameters.variadic then ["..."] else [] := by
  unfold lexemes
  rw [List.map_append, List.map_map]
  congr 1
  · simp [Function.comp_def, word]
  · cases parameters.variadic <;> rfl

/-! ## Reading them -/

theorem token_word (name : String) :
    (word name).token = { kind := .identifier, text := name, position := nowhere } := by
  simp [word, Lexeme.token]

/-- One more name is read, in front of the sign behind it. -/
theorem parseParameters_word {seen : List String} {name : String} (hv : name ≠ variadicName)
    (hs : name ∉ seen) (place : Position) (separator : Token) (tokens : List Token) :
    parseParameters place seen ((word name).token :: separator :: tokens) =
      if separator.isPunctuator ")" then .ok (⟨seen ++ [name], false⟩, tokens)
      else if separator.isPunctuator "," then parseParameters place (seen ++ [name]) tokens
      else .error (.placed .parameterSeparator separator.position) := by
  rw [token_word]
  exact parseParameters_name rfl hv hs place separator tokens

theorem parseParameters_separated {seen names : List String} {variadic : Bool}
    (hn : (seen ++ names).Nodup) (hv : variadicName ∉ names) (he : names ≠ [] ∨ variadic)
    (place : Position) (body : List Token) :
    parseParameters place seen
      ((separated (Parameters.lexemes ⟨names, variadic⟩)).map Lexeme.token ++ body) =
        .ok (⟨seen ++ names, variadic⟩, body) := by
  induction names generalizing seen with
  | nil =>
    obtain rfl : variadic = true := he.resolve_left (absurd rfl)
    rw [List.append_nil]
    rfl
  | cons name rest ih =>
    have hname : name ≠ variadicName := fun h => hv (h ▸ .head _)
    have hseen : name ∉ seen := fun h => (List.nodup_append.1 hn).2.2 name h name (.head _) rfl
    have hrest : (seen ++ [name] ++ rest).Nodup := by rwa [List.append_assoc]
    have hcons : Parameters.lexemes ⟨name :: rest, variadic⟩ =
        word name :: Parameters.lexemes ⟨rest, variadic⟩ := rfl
    rw [hcons]
    by_cases hmore : rest ≠ [] ∨ variadic
    · have hread := ih hrest (fun h => hv (.tail _ h)) hmore
      obtain ⟨next, more, hl⟩ :
          ∃ next more, Parameters.lexemes ⟨rest, variadic⟩ = next :: more := by
        refine List.exists_cons_of_ne_nil ?_
        simpa [Parameters.lexemes, or_iff_not_imp_left] using hmore
      rw [hl] at hread ⊢
      rw [separated, List.map_cons, List.map_cons, List.cons_append, List.cons_append,
        parseParameters_word hname hseen, hread, List.append_assoc]
      rfl
    · rw [not_or, not_not, Bool.not_eq_true] at hmore
      obtain ⟨rfl, rfl⟩ := hmore
      exact parseParameters_word hname hseen place (sign [')']).token body

theorem exists_separated_cons (first : Lexeme) (more : List Lexeme) :
    ∃ behind, separated (first :: more) = first :: behind := by
  cases more with
  | nil => exact ⟨_, rfl⟩
  | cons => exact ⟨_, rfl⟩

/-- Parameters that can be told apart are read from their list. -/
theorem parseParameterList_separated (hp : parameters.WellFormed) (place : Position)
    (body : List Token) :
    parseParameterList place ((separated parameters.lexemes).map Lexeme.token ++ body) =
      .ok (parameters, body) := by
  obtain ⟨names, variadic⟩ := parameters
  have hnodup : ([] ++ names).Nodup := hp.nodup
  have hread (he : names ≠ [] ∨ variadic) :=
    parseParameters_separated hnodup hp.not_variadicName he place body
  cases names with
  | nil =>
    cases variadic with
    | false => rfl
    | true => exact hread (.inr rfl)
  | cons name rest =>
    have hr := hread (.inl (List.cons_ne_nil _ _))
    obtain ⟨behind, hb⟩ := exists_separated_cons (word name) (Parameters.lexemes ⟨rest, variadic⟩)
    have hcons : Parameters.lexemes ⟨name :: rest, variadic⟩ =
        word name :: Parameters.lexemes ⟨rest, variadic⟩ := rfl
    rw [hcons, hb] at hr ⊢
    rw [List.map_cons, List.cons_append] at hr ⊢
    rwa [parseParameterList, if_neg (by simp [token_word, Token.isPunctuator])]

end CPreprocessor.Macro

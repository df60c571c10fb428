import CPreprocessor.Expansion.Step
import CPreprocessor.Proofs.Expansion.Collect
import CPreprocessor.Proofs.Macro.WellFormed

/-!
# What the further arguments of a call are bound to

The further arguments of a call are cut apart at commas, and joined by new ones to what the
variadic name stands for. So this is the run of tokens between the parentheses that they came from,
up to the commas: a new one never has a blank before it.

* `behindCommas`: what is left of the tokens of a call behind the named arguments. `renew`: the
  comma that stands for one they are cut at.
* `joinArguments_cut`: the arguments that are cut apart give the tokens again when they are joined.
* `variadic_faithful_iff`: what is bound has the kinds and spellings of the run. It has its blanks,
  and gives the same literal behind `#`, just if no blank stands before a comma of the run.
-/

namespace CPreprocessor.Expansion

open Macro

variable {depth : Nat} {tokens read behind tail : List Token} {opening closing token : Token}
  {position : Position} {entries : List (Token × Bool)} {parameters : Parameters}

/-! ## The commas of a call -/

/-- What is left behind so many of the commas that are marked. -/
def behindCommas : (count : Nat) → List (Token × Bool) → List (Token × Bool)
  | 0, entries => entries
  | _ + 1, [] => []
  | count + 1, (_, marked) :: rest =>
    if marked then behindCommas count rest else behindCommas (count + 1) rest

/-- A marked comma is replaced by a new one. -/
def renew (position : Position) (entry : Token × Bool) : Token :=
  if entry.2 then comma position else entry.1

theorem isPunctuator_of_mem_markCommas (h : (token, true) ∈ markCommas depth tokens) :
    token.isPunctuator "," := by
  fun_induction markCommas depth tokens with
  | case1 => contradiction
  | case2 depth first rest _ ih => exact ih (by simpa using h)
  | case3 depth first rest _ _ ih => exact ih (by simpa using h)
  | case4 depth first rest _ _ ih =>
    rcases List.mem_cons.1 h with he | h
    · obtain ⟨rfl, hm⟩ := Prod.mk.inj he
      exact (Bool.and_eq_true _ _ ▸ hm.symm).1
    · exact ih h

theorem behindCommas_suffix (count : Nat) (entries : List (Token × Bool)) :
    behindCommas count entries <:+ entries := by
  fun_induction behindCommas count entries with
  | case1 => exact List.suffix_rfl
  | case2 => exact List.suffix_rfl
  | case3 _ _ _ ih => exact ih.trans (List.suffix_cons _ _)
  | case4 _ _ _ _ _ ih => exact ih.trans (List.suffix_cons _ _)

/-! ## Cutting and joining -/

/-- Without the first arguments, those that are left give the tokens behind as many commas when
they are joined, with new commas between them. -/
theorem joinArguments_cut (position : Position) (count : Nat) (entries : List (Token × Bool)) :
    joinArguments position
        (((cutAtCommas entries).1 :: (cutAtCommas entries).2).drop count) =
      (behindCommas count entries).map (renew position) := by
  induction entries generalizing count with
  | nil =>
    cases count with
    | zero => rfl
    | succ count => rw [List.drop_succ_cons, cutAtCommas, List.drop_nil]; rfl
  | cons entry entries ih =>
    obtain ⟨token, marked⟩ := entry
    have hall := ih 0
    rw [List.drop_zero, behindCommas] at hall
    cases count with
    | zero =>
      rw [List.drop_zero, behindCommas, List.map_cons, ← hall]
      cases marked with
      | true => rfl
      | false => exact joinArguments_cons_cons _ _ _ _
    | succ count =>
      cases marked with
      | true => exact ih count
      | false => exact ih (count + 1)

/-! ## Binding -/

/-- Empty parentheses give no tokens, whether they give no argument or an empty one. -/
theorem joinArguments_givenArguments (position : Position) (parameters : Parameters)
    (arguments : List (List Token)) :
    joinArguments position ((givenArguments parameters arguments).drop parameters.names.length) =
      joinArguments position (arguments.drop parameters.names.length) := by
  unfold givenArguments
  split
  · next h =>
    obtain ⟨hn, ha⟩ := Bool.and_eq_true_iff.1 h
    rw [List.isEmpty_iff.1 hn, of_decide_eq_true ha]
    rfl
  · rfl

theorem get_variadicName (hw : parameters.WellFormed) (arguments : List (List Token))
    (further : List Token) :
    Bindings.get (parameters.names.zip arguments ++ [(variadicName, further)]) variadicName =
      further := by
  have hnone : (parameters.names.zip arguments).lookup variadicName = none := by
    refine List.lookup_eq_none_iff.2 fun pair hm => bne_iff_ne.2 fun he => ?_
    exact hw.not_variadicName (he ▸ (List.of_mem_zip hm).1)
  rw [Bindings.get, List.lookup_append, hnone, List.lookup_cons_self]
  rfl

/-- If a call has arguments enough, the variadic name is bound to those behind the named ones. -/
theorem bindArguments_variadic {arguments : List (List Token)} (name : String)
    (position : Position) (hw : parameters.WellFormed) (hv : parameters.variadic)
    (ht : Takes parameters (givenArguments parameters arguments).length) :
    ∃ bindings, bindArguments name parameters position arguments = .ok bindings ∧
      bindings.get variadicName =
        joinArguments position (arguments.drop parameters.names.length) := by
  rw [Takes, if_pos hv] at ht
  refine ⟨_, ?_, get_variadicName hw (givenArguments parameters arguments) _⟩
  unfold bindArguments
  dsimp only
  rw [if_pos hv, if_neg (Nat.not_lt.2 ht), joinArguments_givenArguments]

/-! ## What is spelled alike -/

theorem text_of_comma (h : token.isPunctuator ",") : token.text = "," :=
  Token.text_of_isPunctuator h (by decide)

/-- What holds of every token that is marked. -/
def ForMarked (property : Token → Prop) (entries : List (Token × Bool)) : Prop :=
  ∀ token, (token, true) ∈ entries → property token

theorem forMarked_nil (property : Token → Prop) : ForMarked property [] :=
  fun _ hm => absurd hm List.not_mem_nil

theorem forMarked_cons {property : Token → Prop} {marked : Bool} :
    ForMarked property ((token, marked) :: entries) ↔
      (marked = true → property token) ∧ ForMarked property entries := by
  constructor
  · intro h
    exact ⟨fun hm => h token (hm ▸ .head _), fun other ho => h other (.tail _ ho)⟩
  · rintro ⟨hf, hr⟩ other ho
    rcases List.mem_cons.1 ho with he | ho
    · obtain ⟨rfl, rfl⟩ := Prod.mk.inj he
      exact hf rfl
    · exact hr other ho

/-- Only commas are marked. -/
theorem forMarked_behindCommas (count depth : Nat) (tokens : List Token) :
    ForMarked (·.isPunctuator ",") (behindCommas count (markCommas depth tokens)) :=
  fun _ hm => isPunctuator_of_mem_markCommas ((behindCommas_suffix _ _).subset hm)

theorem kind_renew {marked : Bool} (h : marked = true → token.isPunctuator ",") :
    (renew position (token, marked)).kind = token.kind := by
  cases marked with
  | false => rfl
  | true => exact (Token.kind_of_isPunctuator (h rfl)).symm

theorem text_renew {marked : Bool} (h : marked = true → token.isPunctuator ",") :
    (renew position (token, marked)).text = token.text := by
  cases marked with
  | false => rfl
  | true => exact (text_of_comma (h rfl)).symm

theorem space_renew_iff {marked : Bool} :
    (renew position (token, marked)).space = token.space ↔
      (marked = true → token.space = false) := by
  cases marked with
  | false => exact iff_of_true rfl nofun
  | true => exact ⟨fun h _ => h.symm, fun h => (h rfl).symm⟩

theorem literalText_renew {marked : Bool} (h : marked = true → token.isPunctuator ",") :
    literalText (renew position (token, marked)) = literalText token := by
  unfold literalText
  rw [kind_renew h, text_renew h]

theorem map_kind_text_renew (position : Position) (h : ForMarked (·.isPunctuator ",") entries) :
    (entries.map (renew position)).map Token.kind = (entries.map Prod.fst).map Token.kind ∧
      (entries.map (renew position)).map Token.text = (entries.map Prod.fst).map Token.text := by
  have hm : ∀ entry ∈ entries, entry.2 = true → entry.1.isPunctuator "," :=
    fun entry hm he => h entry.1 (he ▸ hm)
  simp only [List.map_map]
  exact ⟨List.map_congr_left fun entry he => kind_renew (hm entry he),
    List.map_congr_left fun entry he => text_renew (hm entry he)⟩

/-- A new comma has no blank before it, whatever the old one had. -/
theorem map_space_renew_iff :
    (entries.map (renew position)).map Token.space = (entries.map Prod.fst).map Token.space ↔
      ForMarked (·.space = false) entries := by
  induction entries with
  | nil => exact iff_of_true rfl (forMarked_nil _)
  | cons entry entries ih =>
    obtain ⟨token, marked⟩ := entry
    simp only [List.map_cons, List.cons.injEq]
    rw [space_renew_iff, ih, forMarked_cons]

/-- A blank that is missing before a comma is missing in the literal, too. -/
theorem literalTail_renew_iff (h : ForMarked (·.isPunctuator ",") entries) :
    literalTail (entries.map (renew position)) = literalTail (entries.map Prod.fst) ↔
      ForMarked (·.space = false) entries := by
  induction entries with
  | nil => exact iff_of_true rfl (forMarked_nil _)
  | cons entry entries ih =>
    obtain ⟨token, marked⟩ := entry
    obtain ⟨hf, hr⟩ := forMarked_cons.1 h
    rw [forMarked_cons, ← ih hr]
    simp only [List.map_cons, literalTail, literalText_renew hf]
    cases marked with
    | false => simp [renew]
    | true =>
      have ht : literalText (renew position (token, true)) = [','] := by
        simp [literalText, renew, comma]
      rw [literalText_renew hf] at ht
      cases hs : token.space with
      | false => simp [renew, comma]
      -- The texts differ where one goes on with a comma, and the other one with a blank.
      | true => simp [renew, comma, ht]

theorem argumentText_renew_iff (h : ForMarked (·.isPunctuator ",") entries) :
    argumentText (entries.map (renew position)) = argumentText (entries.map Prod.fst) ↔
      ForMarked (·.space = false) entries.tail := by
  cases entries with
  | nil => exact iff_of_true rfl (forMarked_nil _)
  | cons entry entries =>
    obtain ⟨token, marked⟩ := entry
    obtain ⟨hf, hr⟩ := forMarked_cons.1 h
    simp only [List.map_cons, argumentText, literalText_renew hf, List.append_cancel_left_eq]
    exact literalTail_renew_iff hr

theorem stringize_inj {operator : Token} {argument argument' : List Token} :
    stringize operator argument = stringize operator argument' ↔
      argumentText argument = argumentText argument' := by
  constructor
  · intro h
    have ht := String.ofList_injective (congrArg Token.text h)
    exact List.append_cancel_right (List.cons.inj ht).2
  · intro h
    rw [stringize, stringize, h]

/-! ## The run of further arguments -/

/-- Where a variadic macro that was read is called with arguments enough, its variadic name is
bound to the run of tokens behind the named arguments, up to the closing parenthesis, with new
commas for those at which arguments are cut apart. These are the same tokens but for blanks: the
blanks are those of the run just if none stands before such a comma. The literal that the name gives
behind `#` is that of the run just if none stands before such a comma behind the first token. -/
theorem variadic_faithful_iff {site : Position} {definition : Definition}
    (hd : Definition.parse site tokens = .ok definition)
    (hp : definition.parameters = some parameters) (hv : parameters.variadic)
    (ho : opening.isPunctuator "(") (he : Encloses tail read closing behind)
    (ht : Takes parameters (argumentsIn parameters read)) (name : Token) (more : Bool) :
    ∃ bindings,
      Head.step ⟨definition, parameters, name⟩ more (opening :: tail) =
          .invoke ⟨definition, name, closing, bindings⟩ behind ∧
        let entries := behindCommas parameters.names.length (markCommas 0 read)
        let run := entries.map Prod.fst
        let bound := bindings.get variadicName
        run <:+ read ∧ bound = entries.map (renew name.position) ∧
          bound.map Token.kind = run.map Token.kind ∧
          bound.map Token.text = run.map Token.text ∧
          (bound.map Token.space = run.map Token.space ↔ ForMarked (·.space = false) entries) ∧
          ∀ operator, stringize operator bound = stringize operator run ↔
            ForMarked (·.space = false) entries.tail := by
  have hw : parameters.WellFormed :=
    (wellFormed_of_parse hd).parameters parameters (Option.mem_def.2 hp)
  have hc := collect_eq_cut he.matched he.closing behind
  rw [← length_givenArguments (length_cutAtCommas 0 read)
    (cutAtCommas_eq_nil_iff.trans (markCommas_eq_nil_iff 0 read))] at ht
  obtain ⟨bindings, hb, hg⟩ :=
    bindArguments_variadic definition.name name.position hw hv ht
  have hbound := hg.trans (joinArguments_cut _ _ _)
  have hcommas := forMarked_behindCommas parameters.names.length 0 read
  obtain ⟨hkind, htext⟩ := map_kind_text_renew name.position hcommas
  refine ⟨bindings, ?_, ?_, hbound, ?_, ?_, ?_, fun operator => ?_⟩
  · unfold Head.step
    simp only [if_pos ho, he.split, hc, hb]
  · conv_rhs => rw [← map_fst_markCommas 0 read]
    exact (behindCommas_suffix _ _).map Prod.fst
  · rw [hbound, hkind]
  · rw [hbound, htext]
  · rw [hbound, map_space_renew_iff]
  · rw [hbound, stringize_inj, argumentText_renew_iff hcommas]

/-- A token on the first line of a file. -/
def callToken (kind : Token.Kind) (text : String) (column : Nat) (space : Bool := false) :
    Token :=
  { kind, text, position := ⟨"main.c", 1, column⟩, space }

/-- The body `#__VA_ARGS__`. -/
def stringizingBody : List Token :=
  [callToken .punctuator "#" 9, callToken .identifier variadicName 10]

/-- The line `S(x,...)#__VA_ARGS__`. -/
def stringizingTokens : List Token :=
  [callToken .identifier "S" 1, callToken .punctuator "(" 2, callToken .identifier "x" 3,
    callToken .punctuator "," 4, callToken .punctuator "..." 5,
    callToken .punctuator ")" 8] ++ stringizingBody

/-- The macro that gives its further arguments as a literal. -/
def stringizingMacro : Definition :=
  ⟨"S", some ⟨["x"], true⟩, stringizingBody, ⟨"main.c", 1, 1⟩⟩

/-- The arguments of the call `S(f,a , (b , c))`. -/
def spacedArguments : List Token :=
  [callToken .identifier "f" 3, callToken .punctuator "," 4, callToken .identifier "a" 5,
    callToken .punctuator "," 7 true, callToken .punctuator "(" 9 true,
    callToken .identifier "b" 10, callToken .punctuator "," 12 true,
    callToken .identifier "c" 14 true, callToken .punctuator ")" 15]

/-- The blank before the comma between two further arguments is lost, the one before a comma in
inner parentheses is not. -/
theorem variadic_faithful_spaced :
    let name := callToken .identifier "S" 1
    let opening := callToken .punctuator "(" 2
    let closing := callToken .punctuator ")" 16
    Definition.parse ⟨"main.c", 1, 1⟩ stringizingTokens = .ok stringizingMacro ∧
      Encloses (spacedArguments ++ [closing]) spacedArguments closing [] ∧
      Takes ⟨["x"], true⟩ (argumentsIn ⟨["x"], true⟩ spacedArguments) ∧
      ∃ bindings,
        Head.step ⟨stringizingMacro, ⟨["x"], true⟩, name⟩ false
            (opening :: (spacedArguments ++ [closing])) =
          .invoke ⟨stringizingMacro, name, closing, bindings⟩ [] ∧
        (stringize default (bindings.get variadicName)).text = "\"a, (b , c)\"" ∧
        (stringize default (spacedArguments.drop 2)).text = "\"a , (b , c)\"" := by
  intro name opening closing
  have hd : Definition.parse ⟨"main.c", 1, 1⟩ stringizingTokens = .ok stringizingMacro := rfl
  have he : Encloses (spacedArguments ++ [closing]) spacedArguments closing [] := by decide
  have ht : Takes ⟨["x"], true⟩ (argumentsIn ⟨["x"], true⟩ spacedArguments) := by decide
  have ho : opening.isPunctuator "(" := by decide
  obtain ⟨bindings, hs, -, hb, -⟩ := variadic_faithful_iff hd rfl rfl ho he ht name false
  refine ⟨hd, he, ht, bindings, hs, ?_, by decide +kernel⟩
  rw [hb]
  decide +kernel

end CPreprocessor.Expansion

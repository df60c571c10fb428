import CPreprocessor.Proofs.Expansion.Drain
import CPreprocessor.Proofs.Unplaced.Expansion
import Mathlib.Data.List.Forall2

/-!
# Two expansions side by side

Tokens that differ in nothing but their places and the blanks before them are expanded alike. A
place counts only where a name stands for the line that it is written in, and blanks only where an
argument is taken as text.

* `Resembles`: tokens that agree but for their places and blanks.
* `resembles_collect`, `resembles_bindArguments`, `resembles_paste`, `Invocation.resembles_result`:
  what is made of such tokens.
* `Together`: the tokens that two expansions come to at the same time. `Unaffected`: neither places
  nor blanks count in them.
* `resembles_step`, `resembles_drain`: one step of both, and both expansions as a whole.
-/

namespace CPreprocessor.Expansion

open Macro

/-! ## Tokens that agree -/

/-- The tokens agree but for the blanks before them and for their places in the same file. Tokens
at the places that are `kept` stand at the same place, and if the texts are `spaced` alike, there
are blanks before both tokens or before neither. -/
structure Resembles (kept : Position → Prop) (spaced : Prop) (left right : Token) : Prop where
  kind : right.kind = left.kind
  text : right.text = left.text
  hide : right.hide = left.hide
  file : right.position.file = left.position.file
  position : kept left.position → right.position = left.position
  space : spaced → right.space = left.space

variable {kept : Position → Prop} {spaced : Prop} {table : Table} {token other left right : Token}
  {rest behind lefts rights : List Token}

namespace Resembles

theorem refl (token : Token) : Resembles kept spaced token token :=
  ⟨rfl, rfl, rfl, rfl, fun _ => rfl, fun _ => rfl⟩

theorem isPunctuator (h : Resembles kept spaced left right) (text : String) :
    right.isPunctuator text = left.isPunctuator text := by
  rw [Token.isPunctuator, Token.isPunctuator, h.kind, h.text]

theorem paint (h : Resembles kept spaced left right) (name : String) :
    Resembles kept spaced (left.paint name) (right.paint name) :=
  ⟨h.kind, h.text, congrArg (·.insert name) h.hide, h.file, h.position, h.space⟩

/-- New tokens at the places of others. -/
theorem placed (h : Resembles kept spaced left right) (kind : Token.Kind) (text : String)
    (hide : HideSet) (space : Bool) :
    Resembles kept spaced ⟨kind, text, left.position, hide, space⟩
      ⟨kind, text, right.position, hide, space⟩ :=
  ⟨rfl, rfl, rfl, h.file, h.position, fun _ => rfl⟩

end Resembles

/-- Lists of tokens that agree one by one. -/
abbrev ResemblesAll (kept : Position → Prop) (spaced : Prop) : List Token → List Token → Prop :=
  List.Forall₂ (Resembles kept spaced)

/-- Lists of arguments that agree one by one. -/
abbrev ResemblesArguments (kept : Position → Prop) (spaced : Prop) :
    List (List Token) → List (List Token) → Prop :=
  List.Forall₂ (ResemblesAll kept spaced)

/-! ## Arguments -/

/-- The outcomes agree, and so do the tokens in them. -/
inductive Collected.Resembles (kept : Position → Prop) (spaced : Prop) :
    Collected → Collected → Prop where
  | closed {first first' rest rest' : List Token} {others others' : List (List Token)}
      {closing closing' : Token} (hf : ResemblesAll kept spaced first first')
      (ho : ResemblesArguments kept spaced others others')
      (hc : Expansion.Resembles kept spaced closing closing')
      (hr : ResemblesAll kept spaced rest rest') :
      Collected.Resembles kept spaced (.closed first others closing rest)
        (.closed first' others' closing' rest')
  | ended : Collected.Resembles kept spaced .ended .ended
  | exhausted : Collected.Resembles kept spaced .exhausted .exhausted

namespace Collected.Resembles

variable {collected collected' : Collected}

theorem add (h : Collected.Resembles kept spaced collected collected')
    (ht : Expansion.Resembles kept spaced token other) :
    Collected.Resembles kept spaced (collected.add token) (collected'.add other) := by
  cases h with
  | closed hf ho hc hr => exact .closed (.cons ht hf) ho hc hr
  | ended => exact .ended
  | exhausted => exact .exhausted

theorem separate (h : Collected.Resembles kept spaced collected collected') :
    Collected.Resembles kept spaced collected.separate collected'.separate := by
  cases h with
  | closed hf ho hc hr => exact .closed .nil (.cons hf ho) hc hr
  | ended => exact .ended
  | exhausted => exact .exhausted

end Collected.Resembles

theorem resembles_collect (depth : Nat) (h : ResemblesAll kept spaced lefts rights) :
    Collected.Resembles kept spaced (collect depth lefts) (collect depth rights) := by
  induction h generalizing depth with
  | nil => exact .exhausted
  | @cons left right lefts rights ht hrest ih =>
    rw [collect.eq_def, collect.eq_def depth (right :: rights)]
    simp only [ht.kind, ht.isPunctuator]
    split
    · exact .ended
    split
    · exact (ih _).add ht
    split
    · cases depth with
      | zero => exact .closed .nil .nil ht hrest
      | succ depth => exact (ih depth).add ht
    split
    · exact (ih _).separate
    · exact (ih _).add ht

variable {arguments arguments' : List (List Token)}

theorem resembles_joinArguments (hs : Resembles kept spaced left right)
    (h : ResemblesArguments kept spaced arguments arguments') :
    ResemblesAll kept spaced (joinArguments left.position arguments)
      (joinArguments right.position arguments') := by
  induction h with
  | nil => exact .nil
  | cons ha hrest ih =>
    cases hrest with
    | nil => exact ha
    | cons hn hm => exact List.rel_append ha (.cons (hs.placed _ _ _ _) ih)

theorem resembles_givenArguments (parameters : Parameters)
    (h : ResemblesArguments kept spaced arguments arguments') :
    ResemblesArguments kept spaced (givenArguments parameters arguments)
      (givenArguments parameters arguments') := by
  have hempty : arguments' = [[]] ↔ arguments = [[]] := by
    constructor
    · rintro rfl
      obtain _ | ⟨_ | _, _ | _⟩ := h
      rfl
    · rintro rfl
      obtain _ | ⟨_ | _, _ | _⟩ := h
      rfl
  unfold givenArguments
  simp only [hempty]
  split
  · exact .nil
  · exact h

/-- The same names stand for tokens that agree. -/
abbrev Bindings.Resembles (kept : Position → Prop) (spaced : Prop) : Bindings → Bindings → Prop :=
  List.Forall₂ fun bound bound' => bound.1 = bound'.1 ∧ ResemblesAll kept spaced bound.2 bound'.2

variable {bindings bindings' : Bindings}

theorem Bindings.resembles_get (h : Bindings.Resembles kept spaced bindings bindings')
    (name : String) : ResemblesAll kept spaced (bindings.get name) (bindings'.get name) := by
  unfold get
  induction h with
  | nil => exact .nil
  | @cons bound bound' _ _ hb _ ih =>
    rw [List.lookup_cons, List.lookup_cons, ← hb.1]
    cases name == bound.1 with
    | true => exact hb.2
    | false => exact ih

theorem resembles_zip (names : List String)
    (h : ResemblesArguments kept spaced arguments arguments') :
    Bindings.Resembles kept spaced (names.zip arguments) (names.zip arguments') := by
  induction h generalizing names with
  | nil => rw [List.zip_nil_right]; exact .nil
  | cons ha _ ih =>
    cases names with
    | nil => exact .nil
    | cons name names => exact .cons ⟨rfl, ha⟩ (ih names)

/-- Arguments that agree are refused with the same fault, or bound alike. -/
theorem resembles_bindArguments (name : String) (parameters : Parameters)
    (hs : Resembles kept spaced left right)
    (h : ResemblesArguments kept spaced arguments arguments') :
    (∃ fault, bindArguments name parameters left.position arguments = .error fault ∧
        bindArguments name parameters right.position arguments' = .error fault) ∨
      ∃ bindings bindings', bindArguments name parameters left.position arguments = .ok bindings ∧
        bindArguments name parameters right.position arguments' = .ok bindings' ∧
        Bindings.Resembles kept spaced bindings bindings' := by
  have hg := resembles_givenArguments parameters h
  have hz := resembles_zip parameters.names hg
  have hj := resembles_joinArguments hs (List.forall₂_drop parameters.names.length hg)
  unfold bindArguments
  simp only [← hg.length_eq]
  split
  · split
    · exact .inl ⟨_, rfl, rfl⟩
    · exact .inr ⟨_, _, rfl, rfl, List.rel_append hz (.cons ⟨rfl, hj⟩ .nil)⟩
  · split
    · exact .inl ⟨_, rfl, rfl⟩
    · exact .inr ⟨_, _, rfl, rfl, hz⟩

/-! ## Pasting -/

/-- Issues with the same faults one by one. -/
abbrev SameFaults : List Issue → List Issue → Prop :=
  List.Forall₂ fun issue issue' => issue.fault = issue'.fault

/-- The pieces agree. -/
inductive Piece.Resembles (kept : Position → Prop) (spaced : Prop) : Piece → Piece → Prop where
  | token {left right : Token} (h : Expansion.Resembles kept spaced left right) :
      Piece.Resembles kept spaced (.token left) (.token right)
  | placemarker : Piece.Resembles kept spaced .placemarker .placemarker
  | paste (operator : Token) : Piece.Resembles kept spaced (.paste operator) (.paste operator)

/-- What pasting gives agrees, with the same faults. -/
structure Pasted.Resembles (kept : Position → Prop) (spaced : Prop) (pasted pasted' : Pasted) :
    Prop where
  faults : SameFaults pasted.issues pasted'.issues
  reversed : List.Forall₂ (Option.Rel (Expansion.Resembles kept spaced)) pasted.reversed
    pasted'.reversed

theorem Piece.Resembles.operand {piece piece' : Piece}
    (h : Piece.Resembles kept spaced piece piece') :
    Option.Rel (Expansion.Resembles kept spaced) piece.operand piece'.operand := by
  cases h with
  | token h => exact .some h
  | placemarker => exact .none
  | paste operator => exact .some (.refl operator)

theorem resembles_pasteTokens? (file : String) (hl : Resembles kept spaced token left)
    (hr : Resembles kept spaced other right) :
    Option.Rel (Resembles kept spaced) (pasteTokens? file token other)
      (pasteTokens? file left right) := by
  unfold pasteTokens?
  rw [hl.text, hr.text]
  split
  · exact .some ⟨rfl, rfl, by rw [hl.hide, hr.hide], hl.file, hl.position, hl.space⟩
  · exact .none

variable {site site' : Token}

theorem resembles_pasteOperands (hs : Resembles kept spaced site site')
    {first first' second second' : Option Token}
    (hl : Option.Rel (Resembles kept spaced) first first')
    (hr : Option.Rel (Resembles kept spaced) second second') :
    Pasted.Resembles kept spaced (pasteOperands site.position first second)
      (pasteOperands site'.position first' second') := by
  cases hl with
  | none => exact ⟨.nil, .cons hr .nil⟩
  | some hl =>
    cases hr with
    | none => exact ⟨.nil, .cons (.some hl) .nil⟩
    | some hr =>
      rename_i first first' second second'
      have hpaste := resembles_pasteTokens? site.position.file hl hr
      simp only [pasteOperands, hs.file, hl.text, hr.text]
      generalize pasteTokens? site.position.file first second = joined,
        pasteTokens? site.position.file first' second' = joined' at hpaste
      cases hpaste with
      | none => exact ⟨.cons rfl .nil, .cons (.some hr) (.cons (.some hl) .nil)⟩
      | some hj => exact ⟨.nil, .cons (.some hj) .nil⟩

theorem resembles_pasteFrom (hs : Resembles kept spaced site site')
    {before before' : List (Option Token)} {pieces pieces' : List Piece}
    (hb : List.Forall₂ (Option.Rel (Resembles kept spaced)) before before')
    (hp : List.Forall₂ (Piece.Resembles kept spaced) pieces pieces') :
    Pasted.Resembles kept spaced (pasteFrom site.position before pieces)
      (pasteFrom site'.position before' pieces') := by
  fun_induction pasteFrom site.position before pieces generalizing before' pieces' with
  | case1 before =>
    obtain rfl := List.forall₂_nil_left_iff.1 hp
    rw [pasteFrom]
    exact ⟨.nil, hb⟩
  | case2 left before operator right rest =>
    rename_i ih
    obtain _ | ⟨hleft, hb⟩ := hb
    obtain _ | ⟨hoperator, _ | ⟨hright, hrest⟩⟩ := hp
    cases hoperator
    have hj := resembles_pasteOperands hs hleft hright.operand
    have hmore := ih (List.rel_append hj.reversed hb) hrest
    rw [pasteFrom]
    exact ⟨List.rel_append hj.faults hmore.faults, hmore.reversed⟩
  | case3 before piece rest h ih =>
    obtain _ | ⟨hpiece, hrest⟩ := hp
    have hmore := ih (.cons hpiece.operand hb) hrest
    rw [pasteFrom]
    · exact hmore
    · rintro left front operator right behind rfl rfl rfl
      obtain _ | ⟨-, -⟩ := hb
      obtain _ | ⟨-, -⟩ := hrest
      cases hpiece
      exact h _ _ _ _ _ rfl rfl rfl

theorem resembles_paste (hs : Resembles kept spaced site site') {pieces pieces' : List Piece}
    (hp : List.Forall₂ (Piece.Resembles kept spaced) pieces pieces') :
    SameFaults (paste site.position pieces).1 (paste site'.position pieces').1 ∧
      ResemblesAll kept spaced (paste site.position pieces).2
        (paste site'.position pieces').2 := by
  have h := resembles_pasteFrom hs .nil hp
  exact ⟨h.faults, List.rel_filterMap (fun _ _ h => h) (List.rel_reverse h.reversed)⟩

/-! ## Calls -/

theorem resembles_spaceFirst {space space' : Bool} (hs : spaced → space' = space)
    (h : ResemblesAll kept spaced lefts rights) :
    ResemblesAll kept spaced (spaceFirst space lefts) (spaceFirst space' rights) := by
  cases h with
  | nil => exact .nil
  | cons ht hrest => exact .cons ⟨ht.kind, ht.text, ht.hide, ht.file, ht.position, hs⟩ hrest

/-- There are blanks before the same tokens behind the first one. -/
def SpacedAlike (lefts rights : List Token) : Prop :=
  lefts.tail.map Token.space = rights.tail.map Token.space

theorem literalText_eq (h : Resembles kept spaced left right) :
    literalText left = literalText right := by
  rw [literalText, literalText, h.kind, h.text]

theorem argumentText_eq (h : ResemblesAll kept spaced lefts rights)
    (hs : SpacedAlike lefts rights) : argumentText lefts = argumentText rights := by
  cases h with
  | nil => rfl
  | cons ht hrest =>
    rw [argumentText, argumentText, literalText_eq ht]
    congr 1
    change List.map _ _ = List.map _ _ at hs
    induction hrest with
    | nil => rfl
    | cons ht _ ih =>
      obtain ⟨hspace, hs⟩ := List.cons.inj hs
      rw [literalTail, literalTail, literalText_eq ht, ih hs, hspace]

theorem spacedAlike_of_resembles (hs : spaced) (h : ResemblesAll kept spaced lefts rights) :
    SpacedAlike lefts rights := by
  have hmap : lefts.map Token.space = rights.map Token.space := by
    induction h with
    | nil => rfl
    | cons ht _ ih => rw [List.map_cons, List.map_cons, ht.space hs, ih]
  rw [SpacedAlike, List.map_tail, List.map_tail, hmap]

/-- The calls are of one macro and agree. -/
structure Invocation.Resembles (kept : Position → Prop) (spaced : Prop) (call call' : Invocation) :
    Prop where
  definition : call'.definition = call.definition
  site : Expansion.Resembles kept spaced call.site call'.site
  last : Expansion.Resembles kept spaced call.last call'.last
  bindings : Bindings.Resembles kept spaced call.bindings call'.bindings

namespace Invocation

variable {call call' : Invocation} {expanded expanded' : Bindings}

/-- The arguments that the call takes as text have their blanks where those of the other call do. -/
def TextsSpacedAlike (call call' : Invocation) : Prop :=
  ∀ name operator, Part.text name operator ∈ parts call.definition →
    SpacedAlike (call.bindings.get name) (call'.bindings.get name)

theorem resembles_fill (hc : call.Resembles kept spaced call')
    (he : Bindings.Resembles kept spaced expanded expanded') (ht : call.TextsSpacedAlike call')
    {part : Part} (hm : part ∈ parts call.definition) :
    List.Forall₂ (Piece.Resembles kept spaced) (call.fill expanded part)
      (call'.fill expanded' part) := by
  have hpieces {lefts rights : List Token} (h : ResemblesAll kept spaced lefts rights) :
      List.Forall₂ (Piece.Resembles kept spaced) (lefts.map .token) (rights.map .token) :=
    List.rel_map (fun _ _ h => .token h) h
  cases part with
  | token plain => exact .cons (.token (.refl plain)) .nil
  | paste operator => exact .cons (.paste operator) .nil
  | written name space =>
    have hget := Bindings.resembles_get hc.bindings name
    rw [fill, fill]
    generalize call.bindings.get name = lefts, call'.bindings.get name = rights at hget
    cases hget with
    | nil => exact .cons .placemarker .nil
    | cons hf hr => exact hpieces (resembles_spaceFirst (fun _ => rfl) (.cons hf hr))
  | expanded name space =>
    exact hpieces (resembles_spaceFirst (fun _ => rfl) (Bindings.resembles_get he name))
  | text name operator =>
    have htext := argumentText_eq (Bindings.resembles_get hc.bindings name) (ht name operator hm)
    rw [fill, fill, stringize, stringize, htext]
    exact .cons (.token (.refl _)) .nil

theorem hide_eq (hc : call.Resembles kept spaced call') : call'.hide = call.hide := by
  rw [hide, hide, hc.definition, hc.site.hide, hc.last.hide]

theorem resembles_replacement (hc : call.Resembles kept spaced call')
    (he : Bindings.Resembles kept spaced expanded expanded') (ht : call.TextsSpacedAlike call') :
    SameFaults (call.replacement expanded).1 (call'.replacement expanded').1 ∧
      ResemblesAll kept spaced (call.replacement expanded).2 (call'.replacement expanded').2 := by
  have hsame : List.Forall₂ (fun part part' => part = part' ∧ part ∈ parts call.definition)
      (parts call.definition) (parts call'.definition) := by
    rw [hc.definition]
    exact List.forall₂_same.2 fun _ hm => ⟨rfl, hm⟩
  have hpieces : List.Forall₂ (Piece.Resembles kept spaced)
      ((parts call.definition).flatMap (call.fill expanded))
      ((parts call'.definition).flatMap (call'.fill expanded')) := by
    refine List.rel_flatMap hsame ?_
    rintro part _ ⟨rfl, hm⟩
    exact resembles_fill hc he ht hm
  obtain ⟨hfaults, htokens⟩ := resembles_paste hc.site hpieces
  have hsettled : ∀ token other, Expansion.Resembles kept spaced token other →
      Expansion.Resembles kept spaced (call.settle token) (call'.settle other) := fun _ _ h =>
    ⟨h.kind, h.text, by rw [settle, settle, h.hide, hide_eq hc], hc.site.file, hc.site.position,
      h.space⟩
  exact ⟨hfaults, resembles_spaceFirst hc.site.space (List.rel_map hsettled htokens)⟩

end Invocation

/-! ## One step -/

/-- The steps agree. -/
inductive Step.Resembles (kept : Position → Prop) (spaced : Prop) : Step → Step → Prop where
  | emit {produced produced' : Token} (h : Expansion.Resembles kept spaced produced produced') :
      Step.Resembles kept spaced (.emit produced) (.emit produced')
  | refuse {issue issue' : Issue} {painted painted' : Token} (hf : issue.fault = issue'.fault)
      (h : Expansion.Resembles kept spaced painted painted') :
      Step.Resembles kept spaced (.refuse issue painted) (.refuse issue' painted')
  | invoke {call call' : Invocation} {behind behind' : List Token}
      (hc : call.Resembles kept spaced call') (hb : ResemblesAll kept spaced behind behind') :
      Step.Resembles kept spaced (.invoke call behind) (.invoke call' behind')

theorem Head.resembles_step (definition : Definition) (parameters : Parameters)
    (hs : Resembles kept spaced left right) (h : ResemblesAll kept spaced lefts rights) :
    Step.Resembles kept spaced ((Head.mk definition parameters left).step false lefts)
      ((Head.mk definition parameters right).step false rights) := by
  cases h with
  | nil => exact .emit hs
  | @cons opening opening' lefts rights ho hrest =>
    have hcollect := resembles_collect 0 hrest
    unfold Head.step
    simp only [ho.isPunctuator, hs.text]
    split
    · generalize collect 0 lefts = collected, collect 0 rights = collected' at hcollect
      cases hcollect with
      | exhausted => exact .refuse rfl (hs.paint _)
      | ended => exact .refuse rfl (hs.paint _)
      | closed hf hothers hc hr =>
        obtain ⟨fault, he, he'⟩ | ⟨bindings, bindings', he, he', hb⟩ :=
          resembles_bindArguments definition.name parameters hs (.cons hf hothers)
        · simp only [he, he']
          exact .refuse rfl (hs.paint _)
        · simp only [he, he']
          exact .invoke ⟨rfl, hs, hc, hb⟩ hr
    · exact .emit hs

theorem resembles_builtin (h : Resembles kept spaced left right)
    (hl : left.text = "__LINE__" → kept left.position) :
    Resembles kept spaced (builtin left) (builtin right) := by
  unfold builtin
  rw [h.text]
  split
  · exact ⟨rfl, by rw [h.file], h.hide, h.file, h.position, h.space⟩
  · split
    · next he => exact ⟨rfl, by rw [h.position (hl he)], h.hide, h.file, h.position, h.space⟩
    · exact h

/-- Tokens that agree take the same step, unless a name among them stands for a line that moves. -/
theorem resembles_step (h : Resembles kept spaced left right)
    (hrest : ResemblesAll kept spaced lefts rights)
    (hl : NeedsPlace table left → left.text = "__LINE__" → kept left.position) :
    Step.Resembles kept spaced (step table false left lefts) (step table false right rights) := by
  unfold step
  rw [h.kind, h.text, h.hide]
  split
  · next he =>
    cases hf : table.find? left.text with
    | none =>
      refine .emit (resembles_builtin h fun hline => hl ⟨he, hf, ?_⟩ hline)
      rw [hline]
      decide
    | some definition =>
      dsimp only
      cases definition.parameters with
      | none => exact .invoke ⟨rfl, h, h, .nil⟩ hrest
      | some parameters => exact Head.resembles_step definition parameters h hrest
  · exact .emit h

/-! ## Whole expansions -/

variable {firsts seconds : List Token}

/-- The tokens that the expansions of two lists come to at the same time: the lists themselves, what
is read next behind a step of both, and an argument that both take expanded. -/
inductive Together (table : Table) (firsts seconds : List Token) : List Token → List Token → Prop
    where
  | start : Together table firsts seconds firsts seconds
  | next {left right : Token} {lefts rights : List Token}
      (h : Together table firsts seconds (left :: lefts) (right :: rights)) :
      Together table firsts seconds ((step table false left lefts).next table lefts)
        ((step table false right rights).next table rights)
  | argument {left right : Token} {lefts rights behind behind' : List Token}
      {call call' : Invocation} {name : String}
      (h : Together table firsts seconds (left :: lefts) (right :: rights))
      (hl : step table false left lefts = .invoke call behind)
      (hr : step table false right rights = .invoke call' behind')
      (hn : name ∈ expandedNames call.definition) :
      Together table firsts seconds (call.bindings.get name) (call'.bindings.get name)

/-- The tokens that an expansion comes to behind its first step: those that are read next, and the
arguments that are taken expanded. -/
def following (table : Table) : List Token → List (List Token)
  | [] => []
  | token :: rest =>
    (step table false token rest).next table rest ::
      match step table false token rest with
      | .invoke call _ => call.wanted.map (·.2)
      | _ => []

/-- The tokens that an expansion comes to within some steps. -/
def trail (table : Table) : (steps : Nat) → List Token → List (List Token)
  | 0, tokens => [tokens]
  | steps + 1, tokens => tokens :: (following table tokens).flatMap (trail table steps)

/-- All that the first expansion comes to is on the trail that ends after some steps. -/
theorem Together.mem_trail {steps : Nat} (h : Together table firsts seconds lefts rights)
    (hc : ∀ tokens ∈ trail table steps firsts, ∀ more ∈ following table tokens,
      more ∈ trail table steps firsts) : lefts ∈ trail table steps firsts := by
  induction h with
  | start => cases steps <;> exact List.mem_cons_self
  | next _ ih => exact hc _ ih _ List.mem_cons_self
  | argument _ hl _ hn ih =>
    refine hc _ ih _ (List.mem_cons_of_mem _ ?_)
    rw [hl]
    exact List.mem_map.2 ⟨_, List.mem_map_of_mem hn, rfl⟩

/-- In the expansions of two lists each name that stands for its line is at a place that is kept.
Arguments that are taken as text have their blanks at the same places, if not all tokens have. -/
structure Unaffected (kept : Position → Prop) (spaced : Prop) (table : Table)
    (firsts seconds : List Token) : Prop where
  lines : ∀ {left right lefts rights},
    Together table firsts seconds (left :: lefts) (right :: rights) → NeedsPlace table left →
    left.text = "__LINE__" → kept left.position
  blanks : spaced ∨ ∀ {left right lefts rights call call' behind behind'},
    Together table firsts seconds (left :: lefts) (right :: rights) →
    step table false left lefts = .invoke call behind →
    step table false right rights = .invoke call' behind' → call.TextsSpacedAlike call'

/-- The events agree. -/
inductive Event.Resembles (kept : Position → Prop) (spaced : Prop) : Event → Event → Prop where
  | token {produced produced' : Token} (h : Expansion.Resembles kept spaced produced produced') :
      Event.Resembles kept spaced (.token produced) (.token produced')
  | issue {raised raised' : Issue} (h : raised.fault = raised'.fault) :
      Event.Resembles kept spaced (.issue raised) (.issue raised')

/-- The tokens agree and the faults are the same. -/
structure Progress.Resembles (kept : Position → Prop) (spaced : Prop) (p q : Progress) : Prop where
  events : List.Forall₂ (Event.Resembles kept spaced) p.events q.events

namespace Progress.Resembles

variable {p q : Progress}

theorem tokens (h : p.Resembles kept spaced q) : ResemblesAll kept spaced p.tokens q.tokens := by
  refine List.rel_filterMap (fun _ _ h => ?_) h.events
  cases h with
  | token h => exact .some h
  | issue _ => exact .none

theorem faults (h : p.Resembles kept spaced q) : SameFaults p.issues q.issues := by
  refine List.rel_filterMap (fun _ _ h => ?_) h.events
  cases h with
  | token _ => exact .none
  | issue h => exact .some h

theorem after {events events' : List Event} (h : p.Resembles kept spaced q)
    (he : List.Forall₂ (Event.Resembles kept spaced) events events') :
    (p.after events).Resembles kept spaced (q.after events') :=
  ⟨List.rel_append he h.events⟩

end Progress.Resembles

/-- Calls that agree have the same effect if the arguments that they take expanded do. -/
theorem Invocation.resembles_result {call call' : Invocation}
    (hc : call.Resembles kept spaced call') (ht : call.TextsSpacedAlike call')
    (hw : ∀ name ∈ expandedNames call.definition,
      (drain table false (call.bindings.get name)).Resembles kept spaced
        (drain table false (call'.bindings.get name))) :
    ResemblesAll kept spaced (call.result table).2 (call'.result table).2 ∧
      List.Forall₂ (Event.Resembles kept spaced) (call.events table) (call'.events table) := by
  have harguments : List.Forall₂ (fun argument argument' =>
      argument.1 = argument'.1 ∧ Progress.Resembles kept spaced argument.2 argument'.2)
      (call.arguments table) (call'.arguments table) := by
    rw [arguments, arguments, wanted, wanted, List.map_map, List.map_map, hc.definition,
      List.forall₂_map_left_iff, List.forall₂_map_right_iff, List.forall₂_same]
    exact fun name hm => ⟨rfl, hw name hm⟩
  have hexpanded : Bindings.Resembles kept spaced (expandedBindings (call.arguments table))
      (expandedBindings (call'.arguments table)) :=
    List.rel_map (fun _ _ h => ⟨h.1, h.2.tokens⟩) harguments
  obtain ⟨hfaults, htokens⟩ := resembles_replacement hc hexpanded ht
  have hissues := List.rel_append
    (List.rel_flatMap harguments fun _ _ h => h.2.faults) hfaults
  exact ⟨htokens, List.rel_map (fun _ _ h => .issue h) hissues⟩

/-- Tokens that agree are expanded to tokens that agree, with the same faults, where neither places
nor blanks count. -/
theorem resembles_drain (hu : Unaffected kept spaced table firsts seconds)
    (ht : Together table firsts seconds lefts rights) (h : ResemblesAll kept spaced lefts rights) :
    (drain table false lefts).Resembles kept spaced (drain table false rights) := by
  induction lefts using expand_induction table generalizing rights with
  | nil =>
    obtain rfl := List.forall₂_nil_left_iff.1 h
    rw [drain_nil]
    exact ⟨.nil⟩
  | cons left lefts ihw ih =>
    obtain ⟨right, rights, hleft, hrest, rfl⟩ := List.forall₂_cons_left_iff.1 h
    have hstep := resembles_step hleft hrest (hu.lines ht)
    have hnext := ht.next
    rw [drain_cons, drain_cons]
    generalize hl : step table false left lefts = first at *
    generalize hr : step table false right rights = second at *
    -- Both steps are of one kind, and what is read next behind them is together and agrees again.
    cases hstep with
    | emit hp => exact (ih hnext hrest).after (.cons (.token hp) .nil)
    | refuse hf hp => exact (ih hnext hrest).after (.cons (.issue hf) (.cons (.token hp) .nil))
    | @invoke call call' behind behind' hc hb =>
      have htexts : call.TextsSpacedAlike call' := by
        intro name operator hm
        rcases hu.blanks with hspaced | hblanks
        · exact spacedAlike_of_resembles hspaced (Bindings.resembles_get hc.bindings name)
        · exact hblanks ht hl hr name operator hm
      have hwanted : ∀ name ∈ expandedNames call.definition,
          (drain table false (call.bindings.get name)).Resembles kept spaced
            (drain table false (call'.bindings.get name)) := fun name hn =>
        ihw call behind rfl (name, call.bindings.get name) (List.mem_map_of_mem hn)
          (ht.argument hl hr hn) (Bindings.resembles_get hc.bindings name)
      obtain ⟨hresult, hevents⟩ := Invocation.resembles_result hc htexts hwanted
      exact (ih hnext (List.rel_append hresult hb)).after hevents

end CPreprocessor.Expansion

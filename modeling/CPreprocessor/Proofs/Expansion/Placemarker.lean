import CPreprocessor.Proofs.Expansion.Drain
import CPreprocessor.Proofs.Macro.Parse

/-!
# Placemarkers

What the replacement of a call means, said without the order in which it is computed. The body is
cut into chains: maximal runs of operands with `##` between them. A parameter in a chain gives its
argument as written, or a placemarker if that is empty; a parameter that stands alone gives its
argument fully expanded on its own; `#` and a parameter give the argument as a string literal; any
other token gives itself. Each chain is folded from left to right: the last token so far and the
first one of the next operand are pasted, a placemarker gives way to its partner, and two tokens
that do not paste stay as they are and are reported. In the end the placemarkers are dropped, and
all tokens hide what the call hides.

* `substitute`: this meaning. Tokens count by class, spelling and hide set (`Spelled`).
* `pasteFrom_eq`: pasting in one pass over the filled in body folds its chains.
* `result_eq_substitute`: the replacement of a call is what its body means.
-/

namespace CPreprocessor.Expansion.Placemarker

open Macro

/-! ## The meaning of a body -/

/-- What counts of a token of a replacement. -/
structure Spelled where
  kind : Token.Kind
  text : String
  hide : HideSet
deriving DecidableEq

/-- What counts of a token. -/
def spelled (t : Token) : Spelled := ⟨t.kind, t.text, t.hide⟩

/-- A list of tokens and placemarkers; `none` is a placemarker. -/
abbrev Spelling := List (Option Spelled)

/-- The spelling of tokens. -/
def spelling (ts : List Token) : Spelling := ts.map fun t => some (spelled t)

/-- An operand of `##`, or what stands outside all chains. -/
inductive Operand where
  | parameter (name : Token)
  /-- A parameter behind `#`. -/
  | stringized (operator name : Token)
  | plain (token : Token)
deriving DecidableEq

/-- A body is made of operands and paste operators. -/
inductive Element where
  | join (operator : Token)
  | operand (o : Operand)
deriving DecidableEq

/-- The element that one token makes. -/
def element (definition : Definition) (t : Token) : Element :=
  if t.isPaste then .join t
  else if t.kind = .identifier && definition.isParameter t.text then .operand (.parameter t)
  else .operand (.plain t)

/-- The elements of a body. -/
def elements (definition : Definition) : List Token → List Element
  | [] => []
  | [last] => [element definition last]
  | t :: next :: rest =>
    if t.isPunctuator "#" && definition.isParameter next.text then
      .operand (.stringized t next) :: elements definition rest
    else element definition t :: elements definition (next :: rest)

/-- Cuts a body into chains. An operand that no operator touches is a chain of its own. -/
def cut : List Element → List (List Operand)
  | [] => []
  | .join _ :: rest => cut rest
  | .operand o :: .join _ :: rest =>
    match cut rest with
    | [] => [[o]]
    | chain :: chains => (o :: chain) :: chains
  | .operand o :: rest => [o] :: cut rest

/-- The string literal that `#` gives for an argument. -/
def literal (arg : List Token) : Spelled :=
  ⟨.string, String.ofList ('"' :: (argumentText arg ++ ['"'])), ∅⟩

/-- What an operand gives in a chain. -/
def Operand.chained (bindings : Bindings) : Operand → Spelling
  | parameter name =>
    if bindings.get name.text = [] then [none] else spelling (bindings.get name.text)
  | stringized _ name => [some (literal (bindings.get name.text))]
  | plain t => [some (spelled t)]

/-- What an operand gives outside all chains, `expanded` being the expanded arguments. -/
def Operand.alone (bindings : Bindings) (expanded : String → List Token) : Operand → Spelling
  | parameter name => spelling (expanded name.text)
  | o => o.chained bindings

/-- The token that two tokens paste to, if their spellings together spell exactly one. -/
def pasted? (file : String) (l r : Spelled) : Option Spelled :=
  match lexFragment file (l.text ++ r.text) with
  | .ok [joined] => some ⟨joined.kind, joined.text, l.hide ∪ r.hide⟩
  | _ => none

/-- The issues of pasting, and what it gives. -/
structure Pasting where
  issues : List Issue
  spelling : Spelling
deriving DecidableEq

/-- Pastes two tokens or placemarkers for a call at `site`. -/
def pastePair (site : Position) : Option Spelled → Option Spelled → Pasting
  | none, right => ⟨[], [right]⟩
  | some l, none => ⟨[], [some l]⟩
  | some l, some r =>
    match pasted? site.file l r with
    | some joined => ⟨[], [some joined]⟩
    | none => ⟨[.placed (.pasteInvalid l.text r.text) site], [some l, some r]⟩

/-- Pastes the last one on the left and the first one on the right. -/
def pasteSpellings (site : Position) (left right : Spelling) : Pasting :=
  match left.getLast?, right with
  | some l, r :: rest =>
    let joined := pastePair site l r
    ⟨joined.issues, left.dropLast ++ joined.spelling ++ rest⟩
  | _, _ => ⟨[], left ++ right⟩

/-- Folds the further operands of a chain into what has been pasted so far. -/
def foldChain (site : Position) (left : Spelling) : List Spelling → Pasting
  | [] => ⟨[], left⟩
  | right :: others =>
    let joined := pasteSpellings site left right
    let whole := foldChain site joined.spelling others
    ⟨joined.issues ++ whole.issues, whole.spelling⟩

/-- What a chain gives for a call. -/
def chainPasting (call : Invocation) (expanded : String → List Token) : List Operand → Pasting
  | [] => ⟨[], []⟩
  | [o] => ⟨[], o.alone call.bindings expanded⟩
  | o :: others =>
    foldChain call.site.position (o.chained call.bindings)
      (others.map (Operand.chained call.bindings))

/-- The parameter of a chain that is nothing but a parameter. -/
def aloneName? : List Operand → Option String
  | [.parameter name] => some name.text
  | _ => none

/-- The parameters that stand outside all chains, in the order of their first use. -/
def aloneNames (chains : List (List Operand)) : List String :=
  (chains.filterMap aloneName?).eraseDups

/-- The issues of a substitution, and the tokens that it gives. -/
structure Substitution where
  issues : List Issue
  tokens : List Spelled
deriving DecidableEq

/-- What a call stands for: the issues of its expanded arguments come first, each argument being
expanded once, then those of its chains from left to right. -/
def substitute (table : Table) (call : Invocation) : Substitution :=
  let chains := cut (elements call.definition call.definition.body)
  let events name := expand table (call.bindings.get name)
  let pastings := chains.map (chainPasting call fun name => (events name).filterMap Event.token?)
  { issues := (aloneNames chains).flatMap (fun name => (events name).filterMap Event.issue?) ++
      pastings.flatMap (·.issues)
    tokens := ((pastings.flatMap (·.spelling)).filterMap id).map fun t =>
      { t with hide := t.hide ∪ call.hide } }

/-- No two paste operators stand side by side. -/
def pastesApart : List Token → Bool
  | l :: r :: rest => !(l.isPaste && r.isPaste) && pastesApart (r :: rest)
  | _ => true

/-! ## The elements of a body are its parts -/

/-- The part that an operand is, beside a paste operator or not. -/
def Operand.part (pasted : Bool) : Operand → Part
  | parameter name =>
    if pasted then .written name.text name.space else .expanded name.text name.space
  | stringized operator name => .text name.text operator
  | plain t => .token t

/-- Whether a paste operator comes first. -/
def startsJoin : List Element → Bool
  | .join _ :: _ => true
  | _ => false

/-- The parts that elements are, the flag telling whether an operator stands before them. -/
def partsOf : Bool → List Element → List Part
  | _, [] => []
  | _, .join op :: rest => .paste op :: partsOf true rest
  | after, .operand o :: rest => o.part (after || startsJoin rest) :: partsOf false rest

theorem isPaste_of_isPunctuator {t : Token} (h : t.isPunctuator "#") : t.isPaste = false := by
  simp only [Token.isPunctuator, Bool.and_eq_true, decide_eq_true_eq] at h
  simp [Token.isPaste, Token.isPunctuator, h.2]

theorem elements_cons_ne_nil (definition : Definition) (t : Token) (rest : List Token) :
    elements definition (t :: rest) ≠ [] := by
  cases rest with
  | nil => simp [elements]
  | cons next rest =>
    rw [elements]
    split <;> simp

theorem startsJoin_elements (definition : Definition) (t : Token) (rest : List Token) :
    startsJoin (elements definition (t :: rest)) = t.isPaste := by
  have he : ∀ es, startsJoin (element definition t :: es) = t.isPaste := by
    intro es
    by_cases hp : t.isPaste
    · simp [element, hp, startsJoin]
    · by_cases hn : t.kind = .identifier && definition.isParameter t.text <;>
        simp [element, hp, hn, startsJoin]
  cases rest with
  | nil => exact he []
  | cons next rest =>
    rw [elements]
    split
    · next h =>
      simp only [Bool.and_eq_true] at h
      rw [isPaste_of_isPunctuator h.1]
      rfl
    · exact he _

theorem partsOf_element (definition : Definition) (after : Bool) (t : Token) (es : List Element) :
    partsOf after (element definition t :: es) =
      part definition (after || startsJoin es) t :: partsOf t.isPaste es := by
  by_cases hp : t.isPaste
  · simp [element, part, hp, partsOf]
  · by_cases hn : t.kind = .identifier && definition.isParameter t.text
    · simp [element, part, hp, hn, partsOf, Operand.part]
    · simp [element, part, hp, hn, partsOf, Operand.part]

theorem partsFrom_eq (definition : Definition) (after : Bool) (body : List Token) :
    partsFrom definition after body = partsOf after (elements definition body) := by
  fun_induction partsFrom definition after body with
  | case1 => rfl
  | case2 after last =>
    rw [elements, partsOf_element]
    simp [startsJoin, partsOf]
  | case3 after t next rest h ih =>
    rw [elements, if_pos h, partsOf, ih]
    rfl
  | case4 after t next rest h ih =>
    rw [elements, if_neg h, partsOf_element, startsJoin_elements, ih]

/-! ## Chains in a list of elements -/

/-- Every paste operator has an operand behind it. -/
def JoinsOperands : List Element → Prop
  | [] => True
  | .join _ :: rest => (∃ o more, rest = .operand o :: more) ∧ JoinsOperands rest
  | .operand _ :: rest => JoinsOperands rest

/-- The operands that go on with a chain, and the chains behind them. -/
def continued : List Element → List Operand × List (List Operand)
  | .join _ :: rest => ((cut rest).headD [], (cut rest).tail)
  | es => ([], cut es)

theorem cut_operand (o : Operand) (es : List Element) :
    cut (.operand o :: es) = (o :: (continued es).1) :: (continued es).2 := by
  cases es with
  | nil => rfl
  | cons e rest =>
    cases e with
    | operand o' => rfl
    | join op =>
      rw [cut, continued]
      cases hc : cut rest <;> rfl

theorem continued_join (op : Token) (o : Operand) (es : List Element) :
    continued (.join op :: .operand o :: es) = (o :: (continued es).1, (continued es).2) := by
  rw [continued, cut_operand]
  rfl

theorem continued_operand (o : Operand) (es : List Element) :
    continued (.operand o :: es) = ([], (o :: (continued es).1) :: (continued es).2) := by
  rw [← cut_operand]
  rfl

/-- A chain goes on where a paste operator comes next. -/
theorem continued_fst_eq_nil_iff {es : List Element} (h : JoinsOperands es) :
    (continued es).1 = [] ↔ startsJoin es = false := by
  cases es with
  | nil => simp [continued, startsJoin]
  | cons e rest =>
    cases e with
    | operand o => simp [continued, startsJoin]
    | join op =>
      obtain ⟨⟨o, more, rfl⟩, -⟩ := h
      rw [continued_join]
      simp [startsJoin]

/-- A body that has no two paste operators side by side and none at its end has an operand behind
each. -/
theorem joinsOperands_elements (definition : Definition) {body : List Token}
    (ha : pastesApart body) (hl : ∀ last ∈ body.getLast?, last.isPaste = false) :
    JoinsOperands (elements definition body) := by
  fun_induction elements definition body with
  | case1 => trivial
  | case2 last =>
    have hp := hl last (by simp)
    by_cases hn : last.kind = .identifier && definition.isParameter last.text <;>
      simp [element, hp, hn, JoinsOperands]
  | case3 t next rest h ih =>
    refine ih ?_ ?_
    · cases rest with
      | nil => rfl
      | cons r rest => simp_all [pastesApart]
    · intro last hm
      exact hl last (by cases rest <;> simp_all)
  | case4 t next rest h ih =>
    simp only [pastesApart, Bool.and_eq_true, Bool.not_eq_true'] at ha
    have hr : JoinsOperands (elements definition (next :: rest)) :=
      ih ha.2 fun last hm => hl last (by simpa using hm)
    by_cases hp : t.isPaste
    · -- The token behind an operator is no operator, so it makes an operand.
      have hn : next.isPaste = false := by simpa [hp] using ha.1
      have hs := startsJoin_elements definition next rest
      rw [hn] at hs
      rw [element, if_pos hp]
      refine ⟨?_, hr⟩
      cases he : elements definition (next :: rest) with
      | nil => exact absurd he (elements_cons_ne_nil definition next rest)
      | cons e es =>
        cases e with
        | operand o => exact ⟨o, es, rfl⟩
        | join op => rw [he] at hs; contradiction
    · by_cases hn : t.kind = .identifier && definition.isParameter t.text <;>
        simpa [element, hp, hn, JoinsOperands] using hr

/-! ## Filling in -/

/-- What pieces count as when they are passed on. -/
def pieceSpelling (ps : List Piece) : Spelling := ps.map fun p => p.operand.map spelled

theorem map_spelled_spaceFirst (space : Bool) (ts : List Token) :
    (spaceFirst space ts).map spelled = ts.map spelled := by
  cases ts <;> rfl

theorem pieceSpelling_tokens (space : Bool) (ts : List Token) :
    pieceSpelling ((spaceFirst space ts).map .token) = spelling ts := by
  cases ts <;> simp [pieceSpelling, spelling, spaceFirst, Piece.operand, spelled]

/-- What an operand gives, in a chain or not. -/
def Operand.value (call : Invocation) (expanded : Bindings) (pasted : Bool) (o : Operand) :
    Spelling :=
  if pasted then o.chained call.bindings else o.alone call.bindings expanded.get

theorem Operand.chained_ne_nil (bindings : Bindings) (o : Operand) : o.chained bindings ≠ [] := by
  cases o with
  | parameter name =>
    rw [chained]
    split <;> simp_all [spelling]
  | stringized => simp [chained]
  | plain => simp [chained]

theorem pieceSpelling_fill (call : Invocation) (expanded : Bindings) (pasted : Bool) (o : Operand) :
    pieceSpelling (call.fill expanded (o.part pasted)) = o.value call expanded pasted := by
  cases o with
  | parameter name =>
    cases pasted with
    | true =>
      simp only [Operand.part, if_true, Invocation.fill, Operand.value, Operand.chained]
      split
      · next h => simp [h, pieceSpelling, Piece.operand]
      · next h =>
        rw [pieceSpelling_tokens, if_neg h]
    | false => exact pieceSpelling_tokens _ _
  | stringized operator name => cases pasted <;> rfl
  | plain t => cases pasted <;> rfl

/-- An operand never counts as an operator, also not when its argument begins with `##`. -/
theorem not_paste_of_mem_fill {call : Invocation} {expanded : Bindings} {pasted : Bool}
    {o : Operand} {p : Piece} (h : p ∈ call.fill expanded (o.part pasted)) (op : Token) :
    p ≠ .paste op := by
  rintro rfl
  cases o with
  | parameter name =>
    cases pasted with
    | true =>
      simp only [Operand.part, if_true, Invocation.fill] at h
      split at h <;> simp at h
    | false => simp [Operand.part, Invocation.fill] at h
  | stringized operator name => cases pasted <;> simp [Operand.part, Invocation.fill] at h
  | plain t => cases pasted <;> simp [Operand.part, Invocation.fill] at h

/-! ## Pasting -/

/-- What the reverse list of a pasting spells. -/
def reversedSpelling (ts : List (Option Token)) : Spelling := (ts.map (Option.map spelled)).reverse

/-- What pasting gives, in order. -/
def pasting (p : Pasted) : Pasting := ⟨p.issues, reversedSpelling p.reversed⟩

@[simp] theorem reversedSpelling_cons (t : Option Token) (ts : List (Option Token)) :
    reversedSpelling (t :: ts) = reversedSpelling ts ++ [t.map spelled] := by
  simp [reversedSpelling]

theorem reversedSpelling_append (ts us : List (Option Token)) :
    reversedSpelling (ts ++ us) = reversedSpelling us ++ reversedSpelling ts := by
  simp [reversedSpelling]

theorem pasted?_spelled (file : String) (l r : Token) :
    pasted? file (spelled l) (spelled r) = (pasteTokens? file l r).map spelled := by
  unfold pasted? pasteTokens?
  change (match lexFragment file (l.text ++ r.text) with | .ok [joined] => _ | _ => _) = _
  rcases lexFragment file (l.text ++ r.text) with _ | (_ | ⟨joined, _ | _⟩) <;> rfl

theorem pasting_pasteOperands (site : Position) (l r : Option Token) :
    pasting (pasteOperands site l r) = pastePair site (l.map spelled) (r.map spelled) := by
  cases l with
  | none => rfl
  | some l =>
    cases r with
    | none => rfl
    | some r =>
      simp only [pasteOperands, Option.map_some, pastePair, pasted?_spelled]
      cases pasteTokens? site.file l r <;> rfl

/-- Pieces that are no operators are passed on. -/
theorem pasteFrom_append (site : Position) {ps : List Piece} (h : ∀ p ∈ ps, ∀ op, p ≠ .paste op)
    (before : List (Option Token)) (qs : List Piece) :
    pasteFrom site before (ps ++ qs) =
      pasteFrom site ((ps.map Piece.operand).reverse ++ before) qs := by
  induction ps generalizing before with
  | nil => rfl
  | cons p ps ih =>
    have hp : pasteFrom site before (p :: (ps ++ qs)) =
        pasteFrom site (p.operand :: before) (ps ++ qs) := by
      cases p with
      | token t => cases before <;> rfl
      | placemarker => cases before <;> rfl
      | paste op => exact absurd rfl (h _ List.mem_cons_self op)
    rw [List.cons_append, hp, ih fun q hq => h q (List.mem_cons_of_mem _ hq)]
    simp

theorem pasteSpellings_concat (site : Position) (init : Spelling) (l r : Option Spelled)
    (rest : Spelling) :
    pasteSpellings site (init ++ [l]) (r :: rest) =
      ⟨(pastePair site l r).issues, init ++ (pastePair site l r).spelling ++ rest⟩ := by
  simp [pasteSpellings]

theorem pastePair_spelling_ne_nil (site : Position) (l r : Option Spelled) :
    (pastePair site l r).spelling ≠ [] := by
  unfold pastePair
  repeat' split
  all_goals simp

/-- One behind the other. -/
def Pasting.andThen (p q : Pasting) : Pasting := ⟨p.issues ++ q.issues, p.spelling ++ q.spelling⟩

theorem pasting_pasteFrom_paste (site : Position) (l : Option Token) (before : List (Option Token))
    (op : Token) (p : Piece) (qs : List Piece) :
    pasting (pasteFrom site (l :: before) (.paste op :: p :: qs)) =
      (Pasting.mk (pasteOperands site l p.operand).issues []).andThen
        (pasting (pasteFrom site ((pasteOperands site l p.operand).reversed ++ before) qs)) := rfl

/-- What chains give, one after the other. -/
def chainsPasting (call : Invocation) (expanded : String → List Token)
    (chains : List (List Operand)) : Pasting :=
  let pastings := chains.map (chainPasting call expanded)
  ⟨pastings.flatMap (·.issues), pastings.flatMap (·.spelling)⟩

theorem chainsPasting_cons (call : Invocation) (expanded : String → List Token)
    (chain : List Operand) (chains : List (List Operand)) :
    chainsPasting call expanded (chain :: chains) =
      (chainPasting call expanded chain).andThen (chainsPasting call expanded chains) := rfl

/-- What is left to do behind a part of a chain that gave `acc`. -/
def finish (call : Invocation) (expanded : Bindings) (acc : Spelling) (es : List Element) :
    Pasting :=
  (foldChain call.site.position acc
    ((continued es).1.map (Operand.chained call.bindings))).andThen
      (chainsPasting call expanded.get (continued es).2)

theorem finish_join (call : Invocation) (expanded : Bindings) (acc : Spelling) (op : Token)
    (o : Operand) (es : List Element) :
    finish call expanded acc (.join op :: .operand o :: es) =
      (Pasting.mk (pasteSpellings call.site.position acc (o.chained call.bindings)).issues
        []).andThen (finish call expanded
          (pasteSpellings call.site.position acc (o.chained call.bindings)).spelling es) := by
  simp [finish, continued_join, foldChain, Pasting.andThen]

theorem finish_operand (call : Invocation) (expanded : Bindings) (acc : Spelling) (o : Operand)
    {es : List Element} (h : JoinsOperands es) :
    finish call expanded acc (.operand o :: es) =
      (Pasting.mk [] acc).andThen
        (finish call expanded (o.value call expanded (startsJoin es)) es) := by
  have hc : chainPasting call expanded.get (o :: (continued es).1) =
      foldChain call.site.position (o.value call expanded (startsJoin es))
        ((continued es).1.map (Operand.chained call.bindings)) := by
    cases hs : startsJoin es with
    | false =>
      rw [(continued_fst_eq_nil_iff h).2 hs]
      rfl
    | true =>
      have hn : (continued es).1 ≠ [] := fun hn => by
        rw [(continued_fst_eq_nil_iff h).1 hn] at hs
        contradiction
      cases hl : (continued es).1 with
      | nil => exact absurd hl hn
      | cons o' os => rfl
  rw [finish, continued_operand, chainsPasting_cons, hc]
  rfl

/-- Pasting in one pass over a filled in body goes on with the chain that has begun and then goes
over the chains behind it. -/
theorem pasteFrom_eq (call : Invocation) (expanded : Bindings) {es : List Element}
    (he : JoinsOperands es) (before : List (Option Token)) (done acc : Spelling)
    (hb : reversedSpelling before = done ++ acc) (ha : startsJoin es → acc ≠ []) :
    pasting (pasteFrom call.site.position before
        ((partsOf false es).flatMap (call.fill expanded))) =
      (Pasting.mk [] done).andThen (finish call expanded acc es) := by
  induction hn : es.length using Nat.strongRecOn generalizing es before done acc with
  | _ n ih =>
    subst hn
    cases es with
    | nil =>
      rw [partsOf, List.flatMap_nil, pasteFrom]
      simp [pasting, hb, finish, continued, cut, foldChain, chainsPasting, Pasting.andThen]
    | cons e es =>
      cases e with
      | operand o =>
        change JoinsOperands es at he
        have hv := pieceSpelling_fill call expanded (startsJoin es) o
        rw [partsOf, List.flatMap_cons, Bool.false_or,
          pasteFrom_append _ fun p hp op => not_paste_of_mem_fill hp op,
          finish_operand _ _ _ _ he,
          ih es.length (by simp) he _ (done ++ acc) (o.value call expanded (startsJoin es)) _ _
            rfl]
        · simp [Pasting.andThen]
        · rw [reversedSpelling_append, hb, ← hv]
          simp [reversedSpelling, pieceSpelling]
        · intro hs
          rw [hs]
          exact o.chained_ne_nil _
      | join op =>
        obtain ⟨⟨o, es, rfl⟩, he⟩ := he
        change JoinsOperands es at he
        have hv := pieceSpelling_fill call expanded true o
        obtain ⟨p, ps, hp⟩ : ∃ p ps, call.fill expanded (o.part true) = p :: ps := by
          cases hf : call.fill expanded (o.part true) with
          | nil => rw [hf] at hv; exact absurd hv.symm (o.chained_ne_nil _)
          | cons p ps => exact ⟨p, ps, rfl⟩
        have hps : ∀ q ∈ ps, ∀ op, q ≠ .paste op := fun q hq op =>
          not_paste_of_mem_fill (by rw [hp]; exact List.mem_cons_of_mem _ hq) op
        -- The token so far that is pasted is the last one of the chain that has begun.
        obtain ⟨init, last, rfl⟩ : ∃ init last, acc = init ++ [last] :=
          ⟨_, _, (List.dropLast_concat_getLast (ha rfl)).symm⟩
        cases before with
        | nil => simp [reversedSpelling] at hb
        | cons l before =>
          rw [reversedSpelling_cons, ← List.append_assoc] at hb
          obtain ⟨hb, hl⟩ := List.append_inj' hb rfl
          have hv' : o.chained call.bindings = p.operand.map spelled :: pieceSpelling ps := by
            rw [hp] at hv
            exact hv.symm
          have hj := pasting_pasteOperands call.site.position l p.operand
          rw [List.singleton_inj.1 hl] at hj
          have hi := ih es.length (by simp only [List.length_cons]; omega) he
            ((ps.map Piece.operand).reverse ++
              ((pasteOperands call.site.position l p.operand).reversed ++ before))
            done
            (init ++ (pastePair call.site.position last (p.operand.map spelled)).spelling ++
              pieceSpelling ps) ?_
            (fun _ => by simp [pastePair_spelling_ne_nil]) rfl
          · rw [partsOf, partsOf, Bool.true_or, List.flatMap_cons, List.flatMap_cons, hp,
              finish_join, hv', pasteSpellings_concat, ← hj]
            rw [← hj, ← pasteFrom_append _ hps] at hi
            refine (pasting_pasteFrom_paste _ l before op p (ps ++ _)).trans ?_
            rw [hi]
            simp [Pasting.andThen, pasting]
          · rw [reversedSpelling_append, reversedSpelling_append, hb, ← hj]
            simp [pasting, reversedSpelling, pieceSpelling]

/-! ## Arguments that are expanded -/

theorem expandedName?_part (o : Operand) (pasted : Bool) :
    (o.part pasted).expandedName? = if pasted then none else aloneName? [o] := by
  cases o <;> cases pasted <;> rfl

theorem aloneName?_cons (o : Operand) {es : List Element} (he : JoinsOperands es) :
    aloneName? (o :: (continued es).1) = if startsJoin es then none else aloneName? [o] := by
  cases hs : startsJoin es with
  | false => rw [(continued_fst_eq_nil_iff he).2 hs]; rfl
  | true =>
    have hn : (continued es).1 ≠ [] := fun hn => by
      rw [(continued_fst_eq_nil_iff he).1 hn] at hs
      contradiction
    cases hl : (continued es).1 with
    | nil => exact absurd hl hn
    | cons o' os => cases o <;> rfl

/-- The arguments that are taken expanded are those of the parameters that stand alone. -/
theorem filterMap_expandedName? {es : List Element} (he : JoinsOperands es) :
    (partsOf false es).filterMap Part.expandedName? = (continued es).2.filterMap aloneName? := by
  induction hn : es.length using Nat.strongRecOn generalizing es with
  | _ n ih =>
    subst hn
    cases es with
    | nil => rfl
    | cons e es =>
      cases e with
      | operand o =>
        change JoinsOperands es at he
        rw [partsOf, Bool.false_or, List.filterMap_cons, expandedName?_part, continued_operand,
          List.filterMap_cons, aloneName?_cons o he, ih es.length (by simp) he rfl]
      | join op =>
        obtain ⟨⟨o, es, rfl⟩, he⟩ := he
        change JoinsOperands es at he
        have hl : es.length < (Element.join op :: .operand o :: es).length := by
          simp only [List.length_cons]
          omega
        rw [partsOf, partsOf, Bool.true_or, List.filterMap_cons, List.filterMap_cons,
          expandedName?_part, continued_join, ih es.length hl he rfl]
        rfl

theorem lookup_map_pair {names : List String} {f : String → List Token} {name : String}
    (h : name ∈ names) : (names.map fun n => (n, f n)).lookup name = some (f name) := by
  induction names with
  | nil => contradiction
  | cons n names ih =>
    rw [List.map_cons, List.lookup_cons]
    by_cases hn : name = n
    · simp [hn]
    · rw [beq_eq_false_iff_ne.2 hn]
      exact ih ((List.mem_cons.1 h).resolve_left hn)

/-- Chains depend on the expanded arguments only where a parameter stands alone. -/
theorem chainsPasting_congr (call : Invocation) {f g : String → List Token}
    {chains : List (List Operand)} (h : ∀ name ∈ chains.filterMap aloneName?, f name = g name) :
    chainsPasting call f chains = chainsPasting call g chains := by
  have hc : ∀ chain ∈ chains, chainPasting call f chain = chainPasting call g chain := by
    intro chain hm
    match chain with
    | [] => rfl
    | [.parameter name] =>
      have hf := h name.text (List.mem_filterMap.2 ⟨_, hm, rfl⟩)
      simp [chainPasting, Operand.alone, hf]
    | [.stringized _ _] => rfl
    | [.plain _] => rfl
    | _ :: _ :: _ => rfl
  rw [chainsPasting, chainsPasting, List.map_congr_left hc]

/-! ## The replacement of a call -/

section Call

variable {place : Position} {tokens : List Token} {call : Invocation}

/-- The body of a macro that was read, with no two paste operators side by side, begins with an
operand, and an operand stands behind each of its operators. -/
theorem joinsOperands_of_parse (hd : Definition.parse place tokens = .ok call.definition)
    (ha : pastesApart call.definition.body) :
    JoinsOperands (elements call.definition call.definition.body) ∧
      startsJoin (elements call.definition call.definition.body) = false := by
  obtain ⟨hf, hl⟩ := not_isPaste_edge_of_parse hd
  refine ⟨joinsOperands_elements _ ha hl, ?_⟩
  cases hb : call.definition.body with
  | nil => rfl
  | cons first rest =>
    rw [startsJoin_elements]
    exact hf first (by rw [hb]; rfl)

theorem continued_of_not_startsJoin {es : List Element} (h : startsJoin es = false) :
    continued es = ([], cut es) := by
  cases es with
  | nil => rfl
  | cons e es =>
    cases e with
    | operand o => rfl
    | join op => contradiction

theorem expandedNames_eq (hd : Definition.parse place tokens = .ok call.definition)
    (ha : pastesApart call.definition.body) :
    expandedNames call.definition =
      aloneNames (cut (elements call.definition call.definition.body)) := by
  obtain ⟨he, hs⟩ := joinsOperands_of_parse hd ha
  rw [expandedNames, parts, partsFrom_eq, filterMap_expandedName? he,
    continued_of_not_startsJoin hs, aloneNames]

theorem get_expandedBindings (table : Table) {name : String}
    (hn : name ∈ expandedNames call.definition) :
    (expandedBindings (call.arguments table)).get name =
      (expand table (call.bindings.get name)).filterMap Event.token? := by
  have hb : expandedBindings (call.arguments table) =
      (expandedNames call.definition).map fun n =>
        (n, (drain table false (call.bindings.get n)).tokens) := by
    simp [expandedBindings, Invocation.arguments, Invocation.wanted, Function.comp_def]
  rw [hb, Bindings.get, lookup_map_pair hn]
  rfl

theorem paste_eq (call : Invocation) (ps : List Piece) :
    (paste call.site.position ps).1 = (pasting (pasteFrom call.site.position [] ps)).issues ∧
      (paste call.site.position ps).2.map spelled =
        (pasting (pasteFrom call.site.position [] ps)).spelling.filterMap id := by
  refine ⟨rfl, ?_⟩
  simp only [paste, pasting, reversedSpelling, ← List.map_reverse]
  induction (pasteFrom call.site.position [] ps).reversed.reverse with
  | nil => rfl
  | cons t ts ih =>
    cases t with
    | none => exact ih
    | some token => exact congrArg (spelled token :: ·) ih

/-- The tokens that replace a call are those that its body means, in class, spelling and hide set,
and the issues that the call raises are those of this meaning, for every macro that was read and
has no two paste operators side by side, for all macros in force, and whatever the parameters are
bound to. -/
theorem result_eq_substitute (hd : Definition.parse place tokens = .ok call.definition)
    (ha : pastesApart call.definition.body) (table : Table) :
    (call.result table).2.map spelled = (substitute table call).tokens ∧
      (call.events table).filterMap Event.issue? = (substitute table call).issues := by
  obtain ⟨he, hs⟩ := joinsOperands_of_parse hd ha
  let expanded := expandedBindings (call.arguments table)
  let written name := (expand table (call.bindings.get name)).filterMap Event.token?
  -- One pass over the filled in body folds its chains one after the other.
  have hp : pasting (pasteFrom call.site.position []
      ((parts call.definition).flatMap (call.fill expanded))) =
      chainsPasting call written (cut (elements call.definition call.definition.body)) := by
    have hf := pasteFrom_eq call expanded he [] [] [] rfl (by simp [hs])
    have hc : chainsPasting call expanded.get
        (cut (elements call.definition call.definition.body)) = chainsPasting call written
          (cut (elements call.definition call.definition.body)) := by
      refine chainsPasting_congr call fun name hn => get_expandedBindings table ?_
      rw [expandedNames_eq hd ha, aloneNames]
      exact List.mem_eraseDups.2 hn
    rw [finish, continued_of_not_startsJoin hs, hc] at hf
    rw [parts, partsFrom_eq]
    exact hf
  obtain ⟨hi, ht⟩ := paste_eq call ((parts call.definition).flatMap (call.fill expanded))
  rw [hp] at hi ht
  constructor
  · have hr : (call.result table).2.map spelled =
        ((paste call.site.position ((parts call.definition).flatMap (call.fill expanded))).2.map
          spelled).map fun t => { t with hide := t.hide ∪ call.hide } := by
      simp only [Invocation.result, Invocation.replacement, map_spelled_spaceFirst, List.map_map]
      rfl
    rw [hr, ht]
    rfl
  · have hr : (call.events table).filterMap Event.issue? =
        (expandedNames call.definition).flatMap (fun name =>
          (expand table (call.bindings.get name)).filterMap Event.issue?) ++
        (paste call.site.position ((parts call.definition).flatMap (call.fill expanded))).1 := by
      simp only [Invocation.events, filterMap_issue?_callEvents, Invocation.arguments,
        Invocation.wanted, List.flatMap_map]
      rfl
    rw [hr, hi, expandedNames_eq hd ha]
    rfl

end Call

/-- A token in a file of its own. -/
def sample (kind : Token.Kind) (text : String) : Token := { kind, text, position := .start "a.c" }

/-- The tokens behind `define` in `#define F(x, y) #x x##y`. -/
def sampleTokens : List Token :=
  [sample .identifier "F", sample .punctuator "(", sample .identifier "x", sample .punctuator ",",
   sample .identifier "y", sample .punctuator ")", sample .punctuator "#", sample .identifier "x",
   sample .identifier "x", sample .punctuator "##", sample .identifier "y"]

/-- The call `F(, b)`. -/
def sampleCall : Invocation :=
  { definition :=
      { name := "F", parameters := some ⟨["x", "y"], false⟩, body := sampleTokens.drop 6,
        position := .start "a.c" }
    site := sample .identifier "F"
    last := sample .punctuator ")"
    bindings := [("x", []), ("y", [sample .identifier "b"])] }

/-- `F(, b)` is replaced by the literal of the empty argument and, since a placemarker gives way, by
`b`. -/
theorem result_eq_substitute_empty_argument :
    Definition.parse (.start "a.c") sampleTokens = .ok sampleCall.definition ∧
      pastesApart sampleCall.definition.body ∧
      (sampleCall.result ∅).2.map spelled =
        [⟨.string, "\"\"", sampleCall.hide⟩, ⟨.identifier, "b", sampleCall.hide⟩] :=
  have hp : Definition.parse (.start "a.c") sampleTokens = .ok sampleCall.definition := by rfl
  have ha : pastesApart sampleCall.definition.body := by decide
  ⟨hp, ha, (result_eq_substitute hp ha ∅).1.trans (by decide)⟩

end CPreprocessor.Expansion.Placemarker

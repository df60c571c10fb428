import CPreprocessor.Proofs.Expansion.Stream
import CPreprocessor.Proofs.Macro.Table

/-!
# What every token of an expansion has

Expansion copies tokens, changes where they stand and what they hide, and makes new ones by
stringizing, pasting and the built-in names. A property that survives the first and holds of the
second kind goes through a whole expansion.

* `Carried`: two such properties, one of the tokens that replacements are put together from, and one
  of the tokens that are expanded. `carried_of_inherited`: an inherited property is both at once.
* `carries_replacement`: they go over to what a call is replaced by.
* `carries_step`, `Head.carries_step`: they go over to what a step takes on.
* `carries_drain`, `carries_feed`: they go over to every token that comes out, and to a call that
  waits. `has_drain`, `has_feed`: the same of an inherited property.
-/

namespace CPreprocessor

open Macro

namespace Expansion

variable {P B L : Token → Prop} {names : String → Prop} {table : Table} {more : Bool}
  {token : Token} {rest : List Token}

/-! ## New tokens -/

theorem not_mem_toString {c : Char} (hc : c.isDigit = false) (n : Nat) :
    c ∉ (toString n).toList := by
  rw [Nat.toString_eq_repr, Nat.toList_repr]
  intro hm
  have hd := Nat.isDigit_of_mem_toDigits (by decide) (by decide) hm
  rw [hc] at hd
  contradiction

theorem ordinary_builtin (token : Token) : builtin token = token ∨ (builtin token).Ordinary := by
  by_cases hf : token.text = "__FILE__"
  · right
    rw [builtin, if_pos hf]
    exact .of_string rfl (by simp [Literal.quote])
  · by_cases hl : token.text = "__LINE__"
    · right
      rw [builtin, if_neg hf, if_pos hl]
      exact ⟨rfl, nofun, fun hm => absurd hm (not_mem_toString (by decide) _)⟩
    · left
      rw [builtin, if_neg hf, if_neg hl]

theorem ordinary_stringize (operator : Token) (argument : List Token) :
    (stringize operator argument).Ordinary :=
  .of_string rfl (by simp [stringize])

theorem ordinary_comma (position : Position) : (comma position).Ordinary :=
  ⟨rfl, nofun, fun hm => absurd hm (by simp [comma])⟩

theorem ordinary_pasteTokens? {file : String} {left right joined : Token}
    (h : pasteTokens? file left right = some joined) : joined.Ordinary := by
  unfold pasteTokens? at h
  split at h
  · next read hl =>
    obtain rfl := Option.some.inj h
    exact (ordinary_of_lexFragment hl read List.mem_cons_self).congr rfl rfl
  · contradiction

/-- `B` holds of the tokens that replacements are put together from, and `L` of the tokens that are
expanded. Neither is lost in an expansion that hides no more than these names. -/
structure Carried (names : String → Prop) (B L : Token → Prop) : Prop where
  made {token : Token} (h : L token) : B token
  spaced {token : Token} (h : B token) (space : Bool) : B { token with space }
  /-- A token of a replacement stands at the call, and hides what is hidden there. -/
  settled {token site other : Token} (ht : B token) (hs : L site) (hk : other.kind = token.kind)
    (htext : other.text = token.text) (hp : other.position = site.position)
    (hh : ∀ name, name ∈ other.hide → name ∈ token.hide ∨ name ∈ site.hide ∨ names name) : L other
  builtin {token : Token} (h : L token) : L (builtin token)
  comma {site : Token} (h : L site) : L (comma site.position)
  stringized {argument : List Token} (h : ∀ token ∈ argument, L token) (operator : Token) :
    B (stringize operator argument)
  pasted {file : String} {left right joined : Token} (hl : B left) (hr : B right)
    (h : pasteTokens? file left right = some joined) : B joined

/-- A property that looks at classes and spellings only, and holds of all ordinary tokens. -/
theorem carried_of_inherited (hi : Inherited P) : Carried (fun _ => True) P P where
  made h := h
  spaced h _ := hi.congr h rfl rfl
  settled ht _ hk htext _ _ := hi.congr ht hk htext
  builtin {token} h := by
    rcases ordinary_builtin token with hb | hb
    · rwa [hb]
    · exact hi.ordinary hb
  comma _ := hi.ordinary (ordinary_comma _)
  stringized _ operator := hi.ordinary (ordinary_stringize operator _)
  pasted _ _ h := hi.ordinary (ordinary_pasteTokens? h)

/-! ## Arguments -/

theorem mem_of_collect {depth : Nat} {tokens first rest : List Token} {others : List (List Token)}
    {closing : Token} (h : collect depth tokens = .closed first others closing rest) :
    (∀ argument ∈ first :: others, ∀ token ∈ argument, token ∈ tokens) ∧
      ∀ token ∈ rest, token ∈ tokens := by
  induction tokens generalizing depth first others with
  | nil => contradiction
  | cons token tail ih =>
    obtain hc | hc | ⟨inner, hc⟩ | hc := collect_cons depth token
    · rw [hc] at h
      contradiction
    · rw [hc] at h
      obtain ⟨rfl, rfl, -, rfl⟩ := Collected.closed.inj h
      exact ⟨by simp, fun _ => List.mem_cons_of_mem _⟩
    · rw [hc] at h
      cases hi : collect inner tail with
      | ended | exhausted => simp [hi, Collected.add] at h
      | closed first' others' closing' rest' =>
        rw [hi] at h
        obtain ⟨rfl, rfl, rfl, rfl⟩ := Collected.closed.inj h
        obtain ⟨ha, hr⟩ := ih hi
        refine ⟨fun argument hm other ho => ?_,
          fun other ho => List.mem_cons_of_mem _ (hr other ho)⟩
        rcases List.mem_cons.1 hm with rfl | hm
        · rcases List.mem_cons.1 ho with rfl | ho
          · exact List.mem_cons_self
          · exact List.mem_cons_of_mem _ (ha _ List.mem_cons_self other ho)
        · exact List.mem_cons_of_mem _ (ha argument (List.mem_cons_of_mem _ hm) other ho)
    · rw [hc] at h
      cases hi : collect depth tail with
      | ended | exhausted => simp [hi, Collected.separate] at h
      | closed first' others' closing' rest' =>
        rw [hi] at h
        obtain ⟨rfl, rfl, rfl, rfl⟩ := Collected.closed.inj h
        obtain ⟨ha, hr⟩ := ih hi
        refine ⟨fun argument hm other ho => ?_,
          fun other ho => List.mem_cons_of_mem _ (hr other ho)⟩
        rcases List.mem_cons.1 hm with rfl | hm
        · contradiction
        · exact List.mem_cons_of_mem _ (ha argument hm other ho)

theorem has_joinArguments {position : Position} (hc : P (comma position))
    {arguments : List (List Token)} (h : ∀ argument ∈ arguments, ∀ token ∈ argument, P token) :
    ∀ token ∈ joinArguments position arguments, P token := by
  induction arguments with
  | nil => exact List.forall_mem_nil _
  | cons first others ih =>
    have hf := h first List.mem_cons_self
    have ho := ih fun argument hm => h argument (List.mem_cons_of_mem _ hm)
    cases others with
    | nil => exact hf
    | cons next more =>
      intro token hm
      rcases List.mem_append.1 hm with hm | hm
      · exact hf token hm
      · rcases List.mem_cons.1 hm with rfl | hm
        · exact hc
        · exact ho token hm

/-- Whatever a parameter is bound to, its tokens have the property if those of the arguments do. -/
theorem has_bindArguments {name : String} {parameters : Parameters} {position : Position}
    (hc : P (comma position)) {arguments : List (List Token)} {bindings : Bindings}
    (h : bindArguments name parameters position arguments = .ok bindings)
    (ha : ∀ argument ∈ arguments, ∀ token ∈ argument, P token) :
    ∀ bound ∈ bindings, ∀ token ∈ bound.2, P token := by
  have hg : ∀ argument ∈ givenArguments parameters arguments, ∀ token ∈ argument, P token := by
    unfold givenArguments
    split
    · exact List.forall_mem_nil _
    · exact ha
  have hz : ∀ bound ∈ parameters.names.zip (givenArguments parameters arguments),
      ∀ token ∈ bound.2, P token :=
    fun bound hm => hg bound.2 (List.of_mem_zip hm).2
  unfold bindArguments at h
  dsimp only at h
  split at h
  · split at h
    · contradiction
    · obtain rfl := Except.ok.inj h
      intro bound hm
      rcases List.mem_append.1 hm with hm | hm
      · exact hz bound hm
      · rw [List.mem_singleton.1 hm]
        exact has_joinArguments hc fun argument hd => hg argument (List.mem_of_mem_drop hd)
  · split at h
    · contradiction
    · obtain rfl := Except.ok.inj h
      exact hz

theorem has_get {bindings : Bindings} (h : ∀ bound ∈ bindings, ∀ token ∈ bound.2, P token)
    (name : String) : ∀ token ∈ bindings.get name, P token := by
  unfold Bindings.get
  cases hl : bindings.lookup name with
  | none => exact List.forall_mem_nil _
  | some tokens =>
    obtain ⟨before, behind, rfl, -⟩ := List.lookup_eq_some_iff.1 hl
    exact h (name, tokens) (by simp)

/-! ## Replacements -/

/-- The properties hold in the body of a call, and of its name and in its arguments. -/
structure Invocation.Carries (names : String → Prop) (B L : Token → Prop) (call : Invocation) :
    Prop where
  name : names call.definition.name
  body : ∀ token ∈ call.definition.body, B token
  site : L call.site
  bindings : ∀ bound ∈ call.bindings, ∀ token ∈ bound.2, L token

/-- The token that a part stands for itself with. -/
def Part.own? : Part → Option Token
  | .token own | .paste own => some own
  | _ => none

theorem own?_part {definition : Definition} {pasted : Bool} {token own : Token}
    (h : (part definition pasted token).own? = some own) : own = token := by
  unfold part at h
  repeat' split at h
  all_goals first | exact (Option.some.inj h).symm | contradiction

theorem mem_of_own?_partsFrom {definition : Definition} {after : Bool} {body : List Token}
    {p : Part} {own : Token} (hp : p ∈ partsFrom definition after body) (h : p.own? = some own) :
    own ∈ body := by
  fun_induction partsFrom definition after body with
  | case1 => contradiction
  | case2 after last =>
    rw [List.mem_singleton.1 hp] at h
    exact List.mem_singleton.2 (own?_part h)
  | case3 after token next rest hs ih =>
    rcases List.mem_cons.1 hp with rfl | hp
    · contradiction
    · exact List.mem_cons_of_mem _ (List.mem_cons_of_mem _ (ih hp))
  | case4 after token next rest hs ih =>
    rcases List.mem_cons.1 hp with rfl | hp
    · rw [own?_part h]
      exact List.mem_cons_self
    · exact List.mem_cons_of_mem _ (ih hp)

/-- Only the blank before the first token is another one. -/
theorem exists_of_mem_spaceFirst {space : Bool} {tokens : List Token} {token : Token}
    (hm : token ∈ spaceFirst space tokens) :
    ∃ other ∈ tokens, token = { other with space := token.space } := by
  cases tokens with
  | nil => contradiction
  | cons first rest =>
    rcases List.mem_cons.1 hm with rfl | hm
    · exact ⟨first, .head _, rfl⟩
    · exact ⟨token, .tail _ hm, rfl⟩

/-- What a part is filled with has the property. -/
theorem carries_fill (hi : Carried names B L) {call : Invocation} (hc : call.Carries names B L)
    {expanded : Bindings} (he : ∀ bound ∈ expanded, ∀ token ∈ bound.2, L token) {p : Part}
    (hp : p ∈ parts call.definition) :
    ∀ piece ∈ call.fill expanded p, ∀ token ∈ piece.operand, B token := by
  have hs (space : Bool) (tokens : List Token) (h : ∀ token ∈ tokens, L token) :
      ∀ piece ∈ (spaceFirst space tokens).map Piece.token, ∀ token ∈ piece.operand, B token := by
    intro piece hm token ht
    obtain ⟨own, ho, rfl⟩ := List.mem_map.1 hm
    obtain rfl := Option.some.inj ht
    obtain ⟨other, hother, he⟩ := exists_of_mem_spaceFirst ho
    rw [he]
    exact hi.spaced (hi.made (h other hother)) _
  cases p with
  | token own =>
    intro piece hm token ht
    rw [List.mem_singleton.1 hm] at ht
    obtain rfl := Option.some.inj ht
    exact hc.body own (mem_of_own?_partsFrom hp rfl)
  | paste own =>
    intro piece hm token ht
    rw [List.mem_singleton.1 hm] at ht
    obtain rfl := Option.some.inj ht
    exact hc.body own (mem_of_own?_partsFrom hp rfl)
  | written name space =>
    unfold Invocation.fill
    dsimp only
    split
    · intro piece hm token ht
      rw [List.mem_singleton.1 hm] at ht
      contradiction
    · exact hs space _ (has_get hc.bindings name)
  | expanded name space => exact hs space _ (has_get he name)
  | text name operator =>
    intro piece hm token ht
    rw [List.mem_singleton.1 hm] at ht
    obtain rfl := Option.some.inj ht
    exact hi.stringized (has_get hc.bindings name) operator

/-- Pasting keeps what holds of the operands, if it holds of the token that two of them make. -/
theorem has_pasteOperands
    (hj : ∀ {file : String} {left right joined : Token}, P left → P right →
      pasteTokens? file left right = some joined → P joined)
    (site : Position) {left right : Option Token} (hl : ∀ token ∈ left, P token)
    (hr : ∀ token ∈ right, P token) :
    ∀ operand ∈ (pasteOperands site left right).reversed, ∀ token ∈ operand, P token := by
  unfold pasteOperands
  split
  · simpa using hr
  · simpa using hl
  · split
    · next joined hjoined => simpa using hj (hl _ rfl) (hr _ rfl) hjoined
    · simpa using ⟨hr _ rfl, hl _ rfl⟩

theorem has_pasteFrom
    (hj : ∀ {file : String} {left right joined : Token}, P left → P right →
      pasteTokens? file left right = some joined → P joined)
    (site : Position) {before : List (Option Token)} {pieces : List Piece}
    (hb : ∀ operand ∈ before, ∀ token ∈ operand, P token)
    (hp : ∀ piece ∈ pieces, ∀ token ∈ piece.operand, P token) :
    ∀ operand ∈ (pasteFrom site before pieces).reversed, ∀ token ∈ operand, P token := by
  fun_induction pasteFrom site before pieces with
  | case1 before => exact hb
  | case2 left before operator right rest joined more ih =>
    obtain ⟨hl, hb⟩ := List.forall_mem_cons.1 hb
    obtain ⟨hr, hp⟩ := List.forall_mem_cons.1 (List.forall_mem_cons.1 hp).2
    refine ih (fun operand hm => ?_) hp
    rcases List.mem_append.1 hm with hm | hm
    · exact has_pasteOperands hj site hl hr operand hm
    · exact hb operand hm
  | case3 before piece rest hn ih =>
    obtain ⟨hf, hp⟩ := List.forall_mem_cons.1 hp
    exact ih (List.forall_mem_cons.2 ⟨hf, hb⟩) hp

theorem has_paste
    (hj : ∀ {file : String} {left right joined : Token}, P left → P right →
      pasteTokens? file left right = some joined → P joined)
    (site : Position) {pieces : List Piece}
    (hp : ∀ piece ∈ pieces, ∀ token ∈ piece.operand, P token) :
    ∀ token ∈ (paste site pieces).2, P token := by
  intro token hm
  obtain ⟨operand, hoperand, ho⟩ := List.mem_filterMap.1 hm
  exact has_pasteFrom hj site (List.forall_mem_nil _) hp operand (List.mem_reverse.1 hoperand)
    token ho

/-- The pieces that a body is filled with have the property. -/
theorem carries_pieces (hi : Carried names B L) {call : Invocation} (hc : call.Carries names B L)
    {expanded : Bindings} (he : ∀ bound ∈ expanded, ∀ token ∈ bound.2, L token) :
    ∀ piece ∈ (parts call.definition).flatMap (call.fill expanded), ∀ token ∈ piece.operand,
      B token := by
  intro piece hm
  obtain ⟨p, hp, hf⟩ := List.mem_flatMap.1 hm
  exact carries_fill hi hc he hp piece hf

/-- Every token that replaces a call has the property of the tokens that are expanded. -/
theorem carries_replacement (hi : Carried names B L) {call : Invocation}
    (hc : call.Carries names B L) {expanded : Bindings}
    (he : ∀ bound ∈ expanded, ∀ token ∈ bound.2, L token) :
    ∀ token ∈ (call.replacement expanded).2, L token := by
  intro token hm
  obtain ⟨placed, hplaced, heq⟩ := exists_of_mem_spaceFirst hm
  obtain ⟨own, hown, rfl⟩ := List.mem_map.1 hplaced
  have hb : B own := has_paste hi.pasted _ (carries_pieces hi hc he) own hown
  rw [heq]
  refine hi.settled hb hc.site rfl rfl rfl fun name hname => ?_
  rcases HideSet.mem_union.1 hname with hname | hname
  · exact .inl hname
  · rcases Invocation.mem_hide.1 hname with rfl | hname
    · exact .inr (.inr hc.name)
    · exact .inr (.inl hname.1)

/-! ## Steps -/

/-- The properties hold in the body that a call that waits calls for, and of its name and the tokens
that it has read. -/
structure Suspended.Carries (names : String → Prop) (B L : Token → Prop) (suspended : Suspended) :
    Prop where
  name : names suspended.head.definition.name
  body : ∀ token ∈ suspended.head.definition.body, B token
  site : L suspended.head.site
  read : ∀ token ∈ suspended.read, L token

/-- The properties hold of what a step takes on. -/
def Step.Carries (names : String → Prop) (B L : Token → Prop) : Step → Prop
  | emit token | refuse _ token => L token
  | wait suspended => suspended.Carries names B L
  | invoke call behind => call.Carries names B L ∧ ∀ token ∈ behind, L token

theorem Head.carries_step (hi : Carried names B L) {head : Head} (hn : names head.definition.name)
    (hb : ∀ token ∈ head.definition.body, B token) (hs : L head.site) (more : Bool)
    (hr : ∀ token ∈ rest, L token) : (head.step more rest).Carries names B L := by
  have hpaint : L (head.site.paint head.definition.name) := by
    refine hi.settled (hi.made hs) hs rfl rfl rfl fun name hname => ?_
    rcases HideSet.mem_insert.1 hname with rfl | hname
    · exact .inr (.inr hn)
    · exact .inl hname
  unfold Head.step
  split
  · split
    · exact ⟨hn, hb, hs, List.forall_mem_nil _⟩
    · exact hs
  · next opening tail =>
    have ht : ∀ token ∈ tail, L token := fun token hm => hr token (List.mem_cons_of_mem _ hm)
    split
    · split
      · split
        · exact ⟨hn, hb, hs, hr⟩
        · exact hpaint
      · exact hpaint
      · next hc =>
        obtain ⟨ha, hbehind⟩ := mem_of_collect hc
        split
        · exact hpaint
        · next bindings hbound =>
          refine ⟨⟨hn, hb, hs, ?_⟩, fun token hm => ht token (hbehind token hm)⟩
          refine has_bindArguments (hi.comma hs) hbound fun argument hm token htok => ?_
          exact ht token (ha argument hm token htok)
    · exact hs

theorem carries_step (hi : Carried names B L) (ht : table.Has B)
    (hn : ∀ name ∈ table.names, names name) (more : Bool) (hp : L token)
    (hr : ∀ token ∈ rest, L token) : (step table more token rest).Carries names B L := by
  unfold step
  split
  · split
    · exact hi.builtin hp
    · next definition hf =>
      have hm := Table.mem_of_find? hf
      have hname : names definition.name := hn _ (List.mem_map_of_mem hm)
      split
      · exact ⟨⟨hname, ht definition hm, hp, List.forall_mem_nil _⟩, hr⟩
      · exact Head.carries_step hi hname (ht definition hm) hp more hr
  · exact hp

/-! ## Whole expansions -/

/-- The properties hold of what has come out, and in the call that waits. -/
structure Progress.Carries (names : String → Prop) (B L : Token → Prop) (p : Progress) : Prop where
  tokens : ∀ token ∈ p.tokens, L token
  held : ∀ suspended ∈ p.held, suspended.Carries names B L

theorem Progress.Carries.after {p : Progress} (h : p.Carries names B L) {events : List Event}
    (he : ∀ token ∈ events.filterMap Event.token?, L token) :
    (p.after events).Carries names B L := by
  refine ⟨fun token hm => ?_, h.held⟩
  rw [tokens_after] at hm
  rcases List.mem_append.1 hm with hm | hm
  · exact he token hm
  · exact h.tokens token hm

theorem Progress.Carries.done : Progress.done.Carries names B L :=
  ⟨List.forall_mem_nil _, fun suspended hm => absurd hm (Option.not_mem_none suspended)⟩

theorem Progress.Carries.wait {suspended : Suspended} (h : suspended.Carries names B L) :
    Progress.Carries names B L ⟨[], some suspended⟩ := by
  refine ⟨List.forall_mem_nil _, fun other hm => ?_⟩
  obtain rfl := Option.some.inj hm
  exact h

/-- What the parameters of a call stand for once they are expanded has the property. -/
theorem carries_expanded {call : Invocation}
    (ha : ∀ wanted ∈ call.wanted, (drain table false wanted.2).Carries names B L) :
    ∀ bound ∈ expandedBindings (call.arguments table), ∀ token ∈ bound.2, L token := by
  intro bound hm
  obtain ⟨argument, hargument, rfl⟩ := List.mem_map.1 hm
  obtain ⟨wanted, hw, rfl⟩ := List.mem_map.1 hargument
  exact (ha wanted hw).tokens

theorem carries_result (hi : Carried names B L) {call : Invocation} (hc : call.Carries names B L)
    (ha : ∀ wanted ∈ call.wanted, (drain table false wanted.2).Carries names B L) :
    ∀ token ∈ (call.result table).2, L token :=
  carries_replacement hi hc (carries_expanded ha)

theorem carries_wanted {call : Invocation} (hc : call.Carries names B L) :
    ∀ wanted ∈ call.wanted, ∀ token ∈ wanted.2, L token := by
  intro wanted hw
  obtain ⟨name, -, rfl⟩ := List.mem_map.1 hw
  exact has_get hc.bindings name

/-- The properties go through an expansion. -/
theorem carries_drain (hi : Carried names B L) (ht : table.Has B)
    (hn : ∀ name ∈ table.names, names name) (more : Bool) {tokens : List Token}
    (hp : ∀ token ∈ tokens, L token) : (drain table more tokens).Carries names B L := by
  induction more, tokens using drain_induction table with
  | nil more => rw [drain_nil]; exact .done
  | emit more token rest produced hs ih =>
    obtain ⟨hf, hr⟩ := List.forall_mem_cons.1 hp
    have hh := carries_step hi ht hn more hf hr
    rw [hs] at hh
    rw [drain_cons, hs]
    exact (ih hr).after (List.forall_mem_singleton.2 hh)
  | refuse more token rest issue painted hs ih =>
    obtain ⟨hf, hr⟩ := List.forall_mem_cons.1 hp
    have hh := carries_step hi ht hn more hf hr
    rw [hs] at hh
    rw [drain_cons, hs]
    exact (ih hr).after (List.forall_mem_singleton.2 hh)
  | wait more token rest suspended hs =>
    obtain ⟨hf, hr⟩ := List.forall_mem_cons.1 hp
    have hh := carries_step hi ht hn more hf hr
    rw [hs] at hh
    rw [drain_cons, hs]
    exact .wait hh
  | invoke more token rest call behind hs iha ih =>
    obtain ⟨hf, hr⟩ := List.forall_mem_cons.1 hp
    have hh := carries_step hi ht hn more hf hr
    rw [hs] at hh
    rw [drain_cons, hs]
    have ha : ∀ wanted ∈ call.wanted, (drain table false wanted.2).Carries names B L :=
      fun wanted hw => iha wanted hw (carries_wanted hh.1 wanted hw)
    refine (ih fun other hm => ?_).after (by simp)
    rcases List.mem_append.1 hm with hm | hm
    · exact carries_result hi hh.1 ha other hm
    · exact hh.2 other hm

/-- The properties go through the expansion of a text that may begin inside a call. -/
theorem carries_feed (hi : Carried names B L) (ht : table.Has B)
    (hn : ∀ name ∈ table.names, names name) (more : Bool) {held : Option Suspended}
    (hh : ∀ suspended ∈ held, suspended.Carries names B L) {tokens : List Token}
    (hp : ∀ token ∈ tokens, L token) : (feed table more held tokens).Carries names B L := by
  cases held with
  | none => exact carries_drain hi ht hn more hp
  | some suspended =>
    obtain ⟨hname, hb, hsite, hread⟩ := hh suspended rfl
    have hr : ∀ token ∈ suspended.read ++ tokens, L token := by
      intro token hm
      rcases List.mem_append.1 hm with hm | hm
      · exact hread token hm
      · exact hp token hm
    have hs := Head.carries_step hi hname hb hsite more hr
    rw [feed_some]
    generalize suspended.head.step more (suspended.read ++ tokens) = step at hs
    cases step with
    | emit produced => exact (carries_drain hi ht hn more hr).after (List.forall_mem_singleton.2 hs)
    | refuse issue painted =>
      exact (carries_drain hi ht hn more hr).after (List.forall_mem_singleton.2 hs)
    | wait further => exact .wait hs
    | invoke call behind =>
      have ha : ∀ wanted ∈ call.wanted, (drain table false wanted.2).Carries names B L :=
        fun wanted hw => carries_drain hi ht hn false (carries_wanted hs.1 wanted hw)
      refine (carries_drain hi ht hn more fun other hm => ?_).after (by simp)
      rcases List.mem_append.1 hm with hm | hm
      · exact carries_result hi hs.1 ha other hm
      · exact hs.2 other hm

/-! ## Inherited properties -/

/-- The property holds of the name and the tokens of a call that waits, and in the body that it
calls for. -/
structure Suspended.Has (P : Token → Prop) (suspended : Suspended) : Prop where
  body : ∀ token ∈ suspended.head.definition.body, P token
  site : P suspended.head.site
  read : ∀ token ∈ suspended.read, P token

/-- The property holds of what has come out, and in the call that waits. -/
structure Progress.Has (P : Token → Prop) (p : Progress) : Prop where
  tokens : ∀ token ∈ p.tokens, P token
  held : ∀ suspended ∈ p.held, suspended.Has P

theorem Progress.Carries.has {p : Progress} (h : p.Carries names P P) : p.Has P :=
  ⟨h.tokens, fun suspended hm =>
    ⟨(h.held suspended hm).body, (h.held suspended hm).site, (h.held suspended hm).read⟩⟩

/-- The property goes through an expansion. -/
theorem has_drain (hi : Inherited P) (ht : table.Has P) (more : Bool) {tokens : List Token}
    (hp : ∀ token ∈ tokens, P token) : (drain table more tokens).Has P :=
  (carries_drain (carried_of_inherited hi) ht (fun _ _ => trivial) more hp).has

/-- The property goes through the expansion of a text that may begin inside a call. -/
theorem has_feed (hi : Inherited P) (ht : table.Has P) (more : Bool) {held : Option Suspended}
    (hh : ∀ suspended ∈ held, suspended.Has P) {tokens : List Token}
    (hp : ∀ token ∈ tokens, P token) : (feed table more held tokens).Has P :=
  (carries_feed (carried_of_inherited hi) ht (fun _ _ => trivial) more
    (fun suspended hm =>
      ⟨trivial, (hh suspended hm).body, (hh suspended hm).site, (hh suspended hm).read⟩) hp).has

end Expansion

end CPreprocessor

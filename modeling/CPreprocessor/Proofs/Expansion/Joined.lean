import CPreprocessor.Proofs.Expansion.Course
import CPreprocessor.Proofs.Expansion.ObjectLike
import CPreprocessor.Proofs.Expansion.Stringize
import CPreprocessor.Proofs.Lexeme.Joined

/-!
# What two operands make

Two operands of `##` are written without a gap and read again, and the token that is read, if it is
only one, takes their place. Among the tokens of an expansion it is spelled as both of them, since
nothing of their texts can be read as a comment, a blank or a splice. Only the name of a file can
bring a splice with it when it is put in quotes.

* `SpliceFree`: no backslash stands in front of a line terminator. `guarded_escape`: such a text can
  be put in quotes.
* `carried_pastable`: every token of an expansion has a text that is not lost in a paste.
* `Invocation.pastes`: the operands of the pastes of a call. `issues_pasteFrom`: what the pastes
  report is reported for them, one after the other.
* `paste_concatenates`: what becomes of all operands of an expansion.
-/

namespace CPreprocessor

open Source Lexeme Literal Macro

/-- No backslash of the text stands in front of a line terminator. -/
def SpliceFree (text : List Char) : Prop := text.IsChain fun c d => c = '\\' → Inner d

instance (text : List Char) : Decidable (SpliceFree text) :=
  inferInstanceAs (Decidable (List.IsChain _ _))

namespace Lexeme

variable {c : Char} {text body left right rest : List Char} {kind : Token.Kind}

/-! ## Texts in quotes -/

/-- A text that can be put in quotes, also behind others. -/
structure Inset (text : List Char) : Prop where
  guarded : Guarded text
  head : ∀ d ∈ text.head?, Inner d

theorem Guarded.append (hl : Guarded left) (hr : Inset right) : Guarded (left ++ right) := by
  induction hl with
  | nil => exact hr.guarded
  | plain hq hb _ ih => exact .plain hq hb ih
  | @escaped c text hc hs _ ih =>
    refine .escaped hc (fun hb => ?_) ih
    cases text with
    | nil => exact hr.head
    | cons d text => exact hs hb

theorem Inset.append (hl : Inset left) (hr : Inset right) : Inset (left ++ right) where
  guarded := hl.guarded.append hr
  head := by
    cases left with
    | nil => exact hr.head
    | cons c left => exact hl.head

theorem head_escape (h : ∀ d ∈ text.head?, Inner d) : ∀ d ∈ (escape text).head?, Inner d := by
  cases text with
  | nil => exact h
  | cons c rest =>
    rw [escape]
    split
    · intro d hd
      rw [← Option.some.inj hd]
      decide
    · exact h

/-- Escaping puts a backslash in front of backslashes and quotes only. -/
theorem guarded_escape (h : SpliceFree text) : Guarded (escape text) := by
  induction text with
  | nil => exact .nil
  | cons c rest ih =>
    obtain ⟨hhead, hrest⟩ := List.isChain_cons.1 h
    rw [escape]
    split
    · next hc =>
      rw [Bool.or_eq_true, decide_eq_true_eq, decide_eq_true_eq] at hc
      have hinner : Inner c := by rcases hc with rfl | rfl <;> decide
      exact .escaped hinner (fun hb => head_escape fun d hd => hhead d hd hb) (ih hrest)
    · next hc =>
      rw [Bool.or_eq_true, decide_eq_true_eq, decide_eq_true_eq, not_or] at hc
      exact .plain hc.2 hc.1 (ih hrest)

theorem guarded_of_forall (h : ∀ d ∈ text, d ≠ '"' ∧ d ≠ '\\') : Guarded text := by
  induction text with
  | nil => exact .nil
  | cons c rest ih =>
    obtain ⟨⟨hq, hb⟩, hrest⟩ := List.forall_mem_cons.1 h
    exact .plain hq hb (ih hrest)

theorem spliceFree_of_inner (h : ∀ c ∈ text, Inner c) : SpliceFree text := by
  induction text with
  | nil => exact .nil
  | cons c rest ih =>
    obtain ⟨-, hrest⟩ := List.forall_mem_cons.1 h
    exact List.isChain_cons.2 ⟨fun d hd _ => hrest d (List.mem_of_head? hd), ih hrest⟩

/-- A text in quotes can be put in quotes again. -/
theorem Guarded.spliceFree (h : Guarded body) : SpliceFree ('"' :: (body ++ ['"'])) := by
  suffices hbody : SpliceFree (body ++ ['"']) from
    List.isChain_cons.2 ⟨fun d _ he => absurd he (by decide), hbody⟩
  induction h with
  | nil => exact .singleton _
  | plain _ hb _ ih => exact List.isChain_cons.2 ⟨fun d _ he => absurd he hb, ih⟩
  | @escaped c text hc hs _ ih =>
    refine List.isChain_cons.2 ⟨fun d hd _ => Option.some.inj hd ▸ hc,
      List.isChain_cons.2 ⟨fun d hd he => ?_, ih⟩⟩
    cases text with
    | nil =>
      rw [← Option.some.inj hd]
      decide
    | cons e text => exact hs he d hd

/-! ## Texts of tokens -/

namespace Producible

theorem spliceFree (h : Producible kind text) : SpliceFree text := by
  cases h with
  | ofClass _ hi => exact spliceFree_of_inner hi
  | other _ _ hi _ => exact spliceFree_of_inner (List.forall_mem_singleton.2 hi)
  | quoted h => exact h.spliceFree

theorem head_inner (h : Producible kind text) : ∀ d ∈ text.head?, Inner d := by
  cases h with
  | ofClass _ hi => exact fun d hd => hi d (List.mem_of_head? hd)
  | other _ _ hi _ => exact fun d hd => Option.some.inj hd ▸ hi
  | quoted _ => exact fun d hd => Option.some.inj hd ▸ by decide

theorem inset_escape (h : Producible kind text) : Inset (escape text) :=
  ⟨guarded_escape h.spliceFree, head_escape h.head_inner⟩

/-- But for literals, a text has neither a quote nor a backslash. -/
theorem inset (h : Producible kind text) (hs : kind ≠ .string) (hc : kind ≠ .character) :
    Inset text := by
  refine ⟨guarded_of_forall fun d hd => ?_, h.head_inner⟩
  cases h with
  | ofClass h _ =>
    have hn := h.not_mem hs hc
    exact ⟨fun he => hn '"' (by decide) (he ▸ hd), fun he => hn '\\' (by decide) (he ▸ hd)⟩
  | other _ hq _ hb =>
    obtain rfl := List.mem_singleton.1 hd
    refine ⟨?_, hb⟩
    rintro rfl
    contradiction
  | quoted _ => contradiction

end Producible

theorem OfClass.inner (h : OfClass kind text) (hr : '\r' ∉ text) : ∀ d ∈ text, Inner d := by
  have hline : '\n' ∉ text := by
    have hn := h.not_mem
    cases h with
    | identifier | number | punctuator => exact hn (by decide) (by decide) _ (by decide)
    | literal hq h => exact Expansion.not_mem_of_isLiteral hq h
  exact fun d hd => ⟨fun he => hr (he ▸ hd), fun he => hline (he ▸ hd)⟩

/-- A digit and word characters make a number. -/
theorem isNumber_cons (hc : Unicode.isDigit c) (h : ∀ d ∈ rest, Unicode.isWord d) :
    IsNumber (c :: rest) := by
  induction rest using List.reverseRecOn with
  | nil => exact .digit hc
  | append_singleton rest d ih =>
    obtain ⟨hrest, hd⟩ := List.forall_mem_append.1 h
    exact (ih hrest).more (.inl (hd d List.mem_cons_self))

theorem isNumber_toString (n : Nat) : IsNumber (toString n).toList := by
  have hdigit : ∀ d ∈ Nat.toDigits 10 n, Unicode.isDigit d := by
    intro d hd
    have hascii := Nat.isDigit_of_mem_toDigits (by decide) (by decide) hd
    have hle : d.toNat < 128 := by
      simp only [Char.isDigit, Bool.and_eq_true, decide_eq_true_eq,
        UInt32.le_iff_toNat_le] at hascii
      exact Nat.lt_of_le_of_lt hascii.2 (by decide)
    simp [Unicode.isDigit, Unicode.isDecimal, Unicode.ofClass, hle, hascii]
  rw [Nat.toString_eq_repr, Nat.toList_repr]
  obtain ⟨c, rest, he⟩ := List.exists_cons_of_ne_nil (Nat.toDigits_ne_nil (n := n) (b := 10))
  rw [he] at hdigit ⊢
  obtain ⟨hc, hrest⟩ := List.forall_mem_cons.1 hdigit
  exact isNumber_cons hc fun d hd => isWord_of_isDigit (hrest d hd)

end Lexeme

namespace Expansion

variable {table : Table} {tokens rest behind argument : List Token}
  {token joined : Token}

/-! ## The tokens of an expansion -/

/-- The token is spelled like one of a fragment that is neither a block of assembly text nor a stray
backslash. -/
structure FromFragment (token : Token) : Prop where
  scanned : ∃ file text read, lexFragment file text = .ok read ∧
    ∃ like ∈ read, like.kind = token.kind ∧ like.text = token.text
  not_block : token.kind ≠ .asmBlock
  not_stray : token.text ≠ "\\"

/-- The token has a text that tokens of an expansion can have. -/
def Pastable (token : Token) : Prop := Producible token.kind token.text.toList

/-- Beside that the name of its file can be put in quotes. -/
structure Sited (token : Token) : Prop where
  pastable : Pastable token
  file : SpliceFree token.position.file.toList

theorem pastable_of_lexFragment {file text : String} (h : lexFragment file text = .ok tokens)
    (hm : token ∈ tokens) (hb : token.kind ≠ .asmBlock) (hs : token.text ≠ "\\") :
    Pastable token := by
  have hlex := mem_lex_of_lexFragment h hm
  have ho := (ordinary_of_lexFragment h token hm).kind
  obtain ⟨hspelled, hr⟩ := spelled_of_mem_lex hlex ho
  obtain ⟨lexeme, hl, hk, ht⟩ := exists_lexeme_of_mem_lex hlex ho
  have hblank : ∀ c ∈ token.text.toList.head?, isBlank c = false :=
    ht ▸ not_isBlank_of_mem_divide hl
  have hstray : token.text.toList ≠ ['\\'] := fun he => hs (String.toList_inj.1 he)
  unfold Pastable
  generalize token.kind = kind, token.text.toList = chars at *
  cases hspelled with
  | ofClass h => exact .ofClass h (h.inner hr)
  | block => contradiction
  | @other c hn hq =>
    refine .other (hblank c rfl) hq ⟨fun he => hr ?_, hn⟩ fun he => hstray (he ▸ rfl)
    rw [he]
    exact List.mem_cons_self

theorem FromFragment.pastable (h : FromFragment token) : Pastable token := by
  obtain ⟨⟨file, text, read, hl, like, hm, hk, ht⟩, hb, hs⟩ := h
  rw [Pastable, ← hk, ← ht]
  exact pastable_of_lexFragment hl hm (hk ▸ hb) (ht ▸ hs)

/-- A token in a literal brings no quote and no spliced line with it. -/
theorem inset_literalText (h : Pastable token) : Inset (literalText token) := by
  unfold literalText
  split
  · exact h.inset_escape
  · next hk =>
    rw [not_or] at hk
    exact h.inset hk.1 hk.2

theorem inset_literalTail (h : ∀ token ∈ tokens, Pastable token) :
    Inset (literalTail tokens) := by
  induction tokens with
  | nil => exact ⟨.nil, fun d hd => absurd hd (Option.not_mem_none d)⟩
  | cons token rest ih =>
    obtain ⟨hf, hrest⟩ := List.forall_mem_cons.1 h
    have hblank : Inset (blank token) := by
      unfold blank
      split
      · exact ⟨.plain (by decide) (by decide) .nil, fun d hd => Option.some.inj hd ▸ by decide⟩
      · exact ⟨.nil, fun d hd => absurd hd (Option.not_mem_none d)⟩
    rw [literalTail_cons]
    exact hblank.append ((inset_literalText hf).append (ih hrest))

theorem guarded_argumentText (h : ∀ token ∈ argument, Pastable token) :
    Guarded (argumentText argument) := by
  cases argument with
  | nil => exact .nil
  | cons first rest =>
    obtain ⟨hf, hrest⟩ := List.forall_mem_cons.1 h
    exact (inset_literalText hf).guarded.append (inset_literalTail hrest)

theorem exists_of_pasteTokens? {file : String} {left right : Token}
    (h : pasteTokens? file left right = some joined) :
    ∃ scanned, lexFragment file (left.text ++ right.text) = .ok [scanned] ∧
      joined = { scanned with
        position := left.position, hide := left.hide ∪ right.hide, space := left.space } := by
  unfold pasteTokens? at h
  split at h
  · next scanned hl => exact ⟨scanned, hl, (Option.some.inj h).symm⟩
  · contradiction

/-- The texts of the tokens that an expansion comes to are not lost in a paste. -/
theorem carried_pastable : Carried (fun _ => True) Pastable Sited where
  made h := h.pastable
  spaced h _ := h
  settled {token site other} ht hs hk htext hp _ := by
    refine ⟨?_, by rw [hp]; exact hs.file⟩
    rw [Pastable, hk, htext]
    exact ht
  builtin {token} h := by
    unfold builtin
    split
    · refine ⟨?_, h.file⟩
      unfold Pastable
      dsimp only
      rw [quote, String.toList_ofList]
      exact .quoted (guarded_escape h.file)
    · split
      · refine ⟨?_, h.file⟩
        have hn := isNumber_toString token.position.line
        exact .ofClass (.number hn) ((OfClass.number hn).inner (not_mem_toString (by decide) _))
      · exact h
  comma {site} h := by
    have hmark : OfClass .punctuator ",".toList := .punctuator (by decide +kernel)
    exact ⟨.ofClass hmark (hmark.inner (by decide)), h.file⟩
  stringized {argument} h operator := by
    unfold Pastable stringize
    dsimp only
    rw [String.toList_ofList]
    exact .quoted (guarded_argumentText fun token hm => (h token hm).pastable)
  pasted {file left right joined} hl hr h := by
    obtain ⟨scanned, hlex, rfl⟩ := exists_of_pasteTokens? h
    obtain ⟨htext, hclass⟩ := text_of_lexFragment_append hl hr hlex
    have hscanned := mem_lex_of_lexFragment hlex List.mem_cons_self
    have ho := (ordinary_of_lexFragment hlex scanned List.mem_cons_self).kind
    exact .ofClass hclass (hclass.inner (spelled_of_mem_lex hscanned ho).2)

/-! ## The pastes of a call -/

/-- Two operands, if neither is a placemarker. -/
def operands? : Option Token → Option Token → Option (Token × Token)
  | some left, some right => some (left, right)
  | _, _ => none

/-- The operands of the paste operators, in the order in which they are pasted. -/
def pairsFrom (site : Position) :
    (before : List (Option Token)) → List Piece → List (Token × Token)
  | _, [] => []
  | left :: before, .paste _ :: right :: rest =>
    (operands? left right.operand).toList ++
      pairsFrom site ((pasteOperands site left right.operand).reversed ++ before) rest
  | before, piece :: rest => pairsFrom site (piece.operand :: before) rest

/-- What pasting two tokens reports. -/
def pasteIssues (site : Position) (pair : Token × Token) : List Issue :=
  (pasteOperands site (some pair.1) (some pair.2)).issues

theorem issues_pasteOperands (site : Position) (left right : Option Token) :
    (pasteOperands site left right).issues =
      (operands? left right).toList.flatMap (pasteIssues site) := by
  cases left <;> cases right <;> simp [pasteOperands, operands?, pasteIssues]

/-- What the pastes report is reported for their operands, one after the other. -/
theorem issues_pasteFrom (site : Position) (before : List (Option Token)) (pieces : List Piece) :
    (pasteFrom site before pieces).issues =
      (pairsFrom site before pieces).flatMap (pasteIssues site) := by
  fun_induction pasteFrom site before pieces with
  | case1 before => rw [pairsFrom]; rfl
  | case2 left before operator right rest joined more ih =>
    rw [pairsFrom, List.flatMap_append, ← ih, ← issues_pasteOperands]
  | case3 before piece rest hn ih =>
    rw [pairsFrom, ih]
    exact hn

theorem has_operands? {P : Token → Prop} {left right : Option Token}
    (hl : ∀ token ∈ left, P token) (hr : ∀ token ∈ right, P token) :
    ∀ pair ∈ operands? left right, P pair.1 ∧ P pair.2 := by
  intro pair hm
  unfold operands? at hm
  split at hm
  · obtain rfl := Option.some.inj hm
    exact ⟨hl _ rfl, hr _ rfl⟩
  · contradiction

theorem has_pairsFrom {P : Token → Prop}
    (hj : ∀ {file : String} {left right joined : Token}, P left → P right →
      pasteTokens? file left right = some joined → P joined)
    (site : Position) {before : List (Option Token)} {pieces : List Piece}
    (hb : ∀ operand ∈ before, ∀ token ∈ operand, P token)
    (hp : ∀ piece ∈ pieces, ∀ token ∈ piece.operand, P token) :
    ∀ pair ∈ pairsFrom site before pieces, P pair.1 ∧ P pair.2 := by
  fun_induction pairsFrom site before pieces with
  | case1 => exact List.forall_mem_nil _
  | case2 left before operator right rest ih =>
    obtain ⟨hl, hb⟩ := List.forall_mem_cons.1 hb
    obtain ⟨hr, hp⟩ := List.forall_mem_cons.1 (List.forall_mem_cons.1 hp).2
    refine List.forall_mem_append.2 ⟨fun pair hm => ?_, ih (fun operand hm => ?_) hp⟩
    · exact has_operands? hl hr pair (Option.mem_toList.1 hm)
    · rcases List.mem_append.1 hm with hm | hm
      · exact has_pasteOperands hj site hl hr operand hm
      · exact hb operand hm
  | case3 before piece rest hn ih =>
    obtain ⟨hf, hp⟩ := List.forall_mem_cons.1 hp
    exact ih (List.forall_mem_cons.2 ⟨hf, hb⟩) hp

/-- The operands of the pastes of a call. -/
def Invocation.pastes (call : Invocation) (table : Table) : List (Token × Token) :=
  pairsFrom call.site.position []
    ((parts call.definition).flatMap (call.fill (expandedBindings (call.arguments table))))

/-- The token that two operands make: it is spelled as both, which is how a scanner reads them, and
hides what either hides. -/
structure Joins (file : String) (left right joined : Token) : Prop where
  text : joined.text = left.text ++ right.text
  scanned : ∃ scanned, lexFragment file joined.text = .ok [scanned] ∧
    scanned.kind = joined.kind ∧ scanned.text = joined.text
  ofClass : OfClass joined.kind joined.text.toList
  kind : joined.kind ∉ [.directiveHash, .headerName, .asmBlock, .newline, .endOfFile]
  hide : ∀ name, name ∈ left.hide ∨ name ∈ right.hide → name ∈ joined.hide

/-- What becomes of two operands: they make one token, or both stay and one issue is raised. -/
inductive Outcome (site : Position) (left right : Token) (pasted : Pasted) : Prop where
  | joined (made : Token) (h : pasted = ⟨[], [some made]⟩)
      (hj : Joins site.file left right made) : Outcome site left right pasted
  | kept (issue : Issue) (hi : issue = .placed (.pasteInvalid left.text right.text) site)
      (h : pasted = ⟨[issue], [some right, some left]⟩)
      (hn : ∀ scanned, lexFragment site.file (left.text ++ right.text) ≠ .ok [scanned]) :
      Outcome site left right pasted

theorem joins_of_pasteTokens? {file : String} {left right : Token} (hl : Pastable left)
    (hr : Pastable right) (h : pasteTokens? file left right = some joined) :
    Joins file left right joined := by
  obtain ⟨scanned, hlex, rfl⟩ := exists_of_pasteTokens? h
  obtain ⟨htext, hclass⟩ := text_of_lexFragment_append hl hr hlex
  exact ⟨htext, ⟨scanned, by rw [htext, hlex], rfl, rfl⟩, hclass, kind_of_ofClass hclass,
    fun name hname => HideSet.mem_union.2 hname⟩

theorem outcome_pasteOperands (site : Position) {left right : Token} (hl : Pastable left)
    (hr : Pastable right) :
    Outcome site left right (pasteOperands site (some left) (some right)) := by
  cases hj : pasteTokens? site.file left right with
  | some made =>
    have h : pasteOperands site (some left) (some right) = ⟨[], [some made]⟩ := by
      rw [pasteOperands, hj]
    exact .joined made h (joins_of_pasteTokens? hl hr hj)
  | none =>
    have h : pasteOperands site (some left) (some right) =
        ⟨[.placed (.pasteInvalid left.text right.text) site], [some right, some left]⟩ := by
      rw [pasteOperands, hj]
    refine .kept _ rfl h fun scanned hlex => ?_
    rw [pasteTokens?, hlex] at hj
    contradiction

/-- What is told of the pastes of a call: what becomes of their operands, that the issues of the
call are theirs, one after the other, and that these are reported in the expansion. Where nothing
takes reports, the first of all issues ends the expansion. -/
structure Invocation.Concatenates (table : Table) (tokens : List Token) (call : Invocation) :
    Prop where
  outcome : ∀ pair ∈ call.pastes table, Outcome call.site.position pair.1 pair.2
    (pasteOperands call.site.position (some pair.1) (some pair.2))
  issues : (call.result table).1 = (call.pastes table).flatMap (pasteIssues call.site.position)
  reported : (call.result table).1 <:+: raised table tokens
  unreported : (expandUnreported table tokens).raised = (raised table tokens).head?

/-- In every expansion of scanned tokens, the two operands of a paste make a token that is spelled
as both of them, or they stay as they are and one issue tells of it. In the names of the files no
backslash may stand in front of a line terminator. -/
theorem paste_concatenates (hb : table.Has FromFragment)
    (ht : ∀ token ∈ tokens, FromFragment token ∧ SpliceFree token.position.file.toList) :
    ∀ token rest call behind, Comes table tokens (token :: rest) →
      step table false token rest = .invoke call behind → call.Concatenates table tokens := by
  intro token rest call behind hc hs
  have hbody : table.Has Pastable :=
    fun definition hd other hm => (hb definition hd other hm).pastable
  have hsited : ∀ token ∈ tokens, Sited token :=
    fun token hm => ⟨(ht token hm).1.pastable, (ht token hm).2⟩
  have hcall := hc.carries_call carried_pastable hbody (fun _ _ => trivial) hsited hs
  have hexpanded := carries_expanded fun wanted hw =>
    carries_drain carried_pastable hbody (fun _ _ => trivial) false
      (carries_wanted hcall wanted hw)
  refine ⟨fun pair hm => ?_, issues_pasteFrom _ _ _, ?_, raised_expandUnreported table tokens⟩
  · obtain ⟨hl, hr⟩ := has_pairsFrom carried_pastable.pasted _ (List.forall_mem_nil _)
      (carries_pieces carried_pastable hcall hexpanded) pair hm
    exact outcome_pasteOperands _ hl hr
  · refine List.IsInfix.trans ?_ hc.issues_within
    rw [raised_of_invoke hs]
    exact ⟨_, _, rfl⟩

theorem exists_of_mem_fragment {file text : String} (hm : token ∈ fragment file text) :
    ∃ tokens, lexFragment file text = .ok tokens ∧ token ∈ tokens := by
  unfold fragment at hm
  cases h : lexFragment file text with
  | error issue =>
    rw [h] at hm
    contradiction
  | ok tokens =>
    rw [h] at hm
    exact ⟨tokens, rfl, hm⟩

/-- The tokens are neither blocks of assembly text nor stray backslashes. -/
def Usual (tokens : List Token) : Prop :=
  ∀ token ∈ tokens, token.kind ≠ .asmBlock ∧ token.text ≠ "\\"

instance (tokens : List Token) : Decidable (Usual tokens) :=
  inferInstanceAs (Decidable (∀ token ∈ tokens, _))

theorem fromFragment_of_usual {file text : String} (h : Usual (fragment file text)) :
    ∀ token ∈ fragment file text, FromFragment token := by
  intro token hm
  obtain ⟨read, hl, hr⟩ := exists_of_mem_fragment hm
  exact ⟨⟨file, text, read, hl, token, hr, rfl, rfl⟩, (h token hm).1, (h token hm).2⟩

theorem has_fromFragment_readAll {texts : List String}
    (h : ∀ text ∈ texts, Usual (fragment "a.h" text)) : (readAll texts).Has FromFragment := by
  intro definition hd token hm
  obtain ⟨text, ht, hp⟩ := List.mem_filterMap.1 hd
  obtain ⟨read, hr, hk, he, -⟩ := mem_body_of_parse (eq_ok_of_toOption hp) hm
  obtain ⟨⟨file, text, tokens, hl, like, hlike, hkind, htext⟩, hb, hs⟩ :=
    fromFragment_of_usual (h text ht) read hr
  exact ⟨⟨file, text, tokens, hl, like, hlike, hkind.trans hk.symm, htext.trans he.symm⟩,
    hk ▸ hb, he ▸ hs⟩

/-- A literal that the name of the file is put in and that an encoding is pasted to, three operands
in a row, a stringized operand, and two slashes that do not become a comment. -/
theorem paste_concatenates_literals :
    let table := readAll ["CAT(a,b) a##b", "X(a,b) CAT(a,b)", "W(x,y) x##y##1 L###x"]
    let tokens := fragment "a\"b\\" "X(u,__FILE__) W(a,b) CAT(/,/)"
    (table.Has FromFragment ∧
      ∀ token ∈ tokens, FromFragment token ∧ SpliceFree token.position.file.toList) ∧
    ∀ token rest call behind, Comes table tokens (token :: rest) →
      step table false token rest = .invoke call behind → call.Concatenates table tokens := by
  intro table tokens
  have hb : table.Has FromFragment := has_fromFragment_readAll (by decide +kernel)
  have husual : Usual tokens := by decide +kernel
  have hfile : ∀ token ∈ tokens, SpliceFree token.position.file.toList := by decide +kernel
  have ht : ∀ token ∈ tokens, FromFragment token ∧ SpliceFree token.position.file.toList :=
    fun token hm => ⟨fromFragment_of_usual husual token hm, hfile token hm⟩
  exact ⟨⟨hb, ht⟩, paste_concatenates hb ht⟩

/-- A token in a file in whose name a backslash stands in front of a newline. -/
def spliceToken (kind : Token.Kind) (text : String) (column : Nat) : Token :=
  { kind, text, position := ⟨"a\\\nb", 1, column⟩ }

/-- The name of such a file, put in quotes, loses a backslash and the newline when an encoding is
pasted to it. -/
theorem paste_drops_splice :
    let table := readAll ["CAT(a,b) a##b", "X(b) CAT(L,b)"]
    let tokens := fragment "a\\\nb" "X(__FILE__)"
    (table.Has FromFragment ∧ ∀ token ∈ tokens, FromFragment token) ∧
    ∃ token rest call behind left right made, Comes table tokens (token :: rest) ∧
      step table false token rest = .invoke call behind ∧ (left, right) ∈ call.pastes table ∧
      pasteOperands call.site.position (some left) (some right) = ⟨[], [some made]⟩ ∧
      left.text ++ right.text = "L\"a\\\\\nb\"" ∧ made.text = "L\"a\\b\"" := by
  intro table tokens
  refine ⟨⟨has_fromFragment_readAll (by decide +kernel),
    fromFragment_of_usual (by decide +kernel)⟩, ?_⟩
  let name := spliceToken .identifier "__FILE__" 3
  let literal := spliceToken .string "\"a\\\\\nb\"" 3
  let outer : Invocation :=
    { definition := (table.find? "X").get (by decide +kernel)
      site := spliceToken .identifier "X" 1
      last := spliceToken .punctuator ")" 11
      bindings := [("b", [name])] }
  let inner := (outer.replacement [("b", [literal])]).2
  obtain ⟨hname, hwanted, htokens, houter⟩ : step table false name [] = .emit literal ∧
      outer.wanted = [("b", [name])] ∧ tokens = outer.site :: tokens.tail ∧
      step table false outer.site tokens.tail = .invoke outer [] := by
    decide +kernel
  have hinner : (outer.result table).2 = inner := by
    have hdrain : drain table false [name] = ⟨[.token literal], none⟩ := by
      rw [drain_cons, hname, Step.proceed, drain_nil]
      rfl
    rw [Invocation.result, Invocation.arguments, hwanted, List.map_singleton, hdrain]
    rfl
  have hcomes : Comes table tokens inner := by
    have hnext : Comes table tokens ((step table false outer.site tokens.tail).next table _) :=
      .next (htokens ▸ .start)
    rwa [houter, Step.next, List.append_nil, hinner] at hnext
  let left := inner.getD 2 default
  let right := inner.getD 4 default
  let call : Invocation :=
    { definition := (table.find? "CAT").get (by decide +kernel)
      site := inner.headD default
      last := inner.getD 5 default
      bindings := [("a", [left]), ("b", [right])] }
  let made := (pasteTokens? "a\\\nb" left right).get (by decide +kernel)
  obtain ⟨hsplit, hpasted⟩ : inner = call.site :: inner.tail ∧
      step table false call.site inner.tail = .invoke call [] ∧ (left, right) ∈ call.pastes table ∧
      pasteOperands call.site.position (some left) (some right) = ⟨[], [some made]⟩ ∧
      left.text ++ right.text = "L\"a\\\\\nb\"" ∧ made.text = "L\"a\\b\"" := by
    decide +kernel
  exact ⟨call.site, inner.tail, call, [], left, right, made, hsplit ▸ hcomes, hpasted⟩

end Expansion

end CPreprocessor

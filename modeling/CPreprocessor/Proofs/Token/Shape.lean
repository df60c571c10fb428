import CPreprocessor.Proofs.Lexeme.Newline
import CPreprocessor.Token.Line

/-!
# The tokens of a line

Where a lexeme stands restrains what it can be: the mark of a directive begins a line, a header name
follows the keyword `include` on it, and nothing else is special.

* `Shaped`: lexemes each of which its place admits. `shaped_divide`: those of every text.
* `Token.Ordinary`: a token that is part of the text. `ordinary_of_lexFragment`: every token of a
  fragment is.
* `ProperLine`: ordinary tokens, or a directive with its operands. `proper_ofTokens`: every line of
  a file is proper.
-/

namespace CPreprocessor

open Lexeme

/-- The kinds of tokens that are part of the text and mark nothing in it. -/
def Token.Kind.isOrdinary : Token.Kind → Bool
  | headerName | directiveHash | newline | endOfFile => false
  | _ => true

theorem Token.Kind.isOrdinary_iff {kind : Token.Kind} : kind.isOrdinary ↔
    kind ≠ .endOfFile ∧ kind ≠ .newline ∧ kind ≠ .directiveHash ∧ kind ≠ .headerName := by
  cases kind <;> decide

namespace Token

/-- A string literal has a quote in it. -/
def Quoted (token : Token) : Prop := token.kind = .string → '"' ∈ token.text.toList

/-- No newline stands in a token but in an assembly block and in a string literal. The scanner ends
a literal with its line, but one that quotes an assembly block may hold newlines. -/
def Unbroken (token : Token) : Prop :=
  '\n' ∈ token.text.toList → token.kind = .asmBlock ∨ token.kind = .string

/-- A token that is part of the text. -/
structure Ordinary (token : Token) : Prop where
  kind : token.kind.isOrdinary
  quoted : token.Quoted
  unbroken : token.Unbroken

theorem Ordinary.congr {token other : Token} (h : token.Ordinary) (hk : other.kind = token.kind)
    (ht : other.text = token.text) : other.Ordinary := by
  refine ⟨hk ▸ h.kind, fun hs => ?_, fun hn => ?_⟩
  · rw [ht]
    exact h.quoted (hk ▸ hs)
  · rw [ht] at hn
    rw [hk]
    exact h.unbroken hn

theorem Ordinary.of_string {token : Token} (hk : token.kind = .string)
    (hq : '"' ∈ token.text.toList) : token.Ordinary := by
  refine ⟨?_, fun _ => hq, fun _ => .inr hk⟩
  rw [hk]
  rfl

end Token

/-! ## What a place admits -/

/-- What a lexeme can be at a place. -/
structure Admits (directives : Bool) (context : Context) (kind : Token.Kind) (text : List Char) :
    Prop where
  quoted : kind = .string → '"' ∈ text
  unbroken : '\n' ∈ text → kind = .newline ∨ kind = .asmBlock
  inner : kind ≠ .endOfFile
  hash : kind = .directiveHash → directives ∧ context.midLine = false
  header : kind = .headerName → context = .header

theorem Admits.of_ordinary {directives : Bool} {context : Context} {kind : Token.Kind}
    {text : List Char} (hk : kind.isOrdinary) (hq : kind = .string → '"' ∈ text)
    (hu : '\n' ∈ text → kind = .newline ∨ kind = .asmBlock) :
    Admits directives context kind text := by
  refine ⟨hq, hu, ?_, ?_, ?_⟩
  all_goals
    rintro rfl
    contradiction

theorem isOrdinary_readPlain (c : Char) (rest : List Char) :
    (readPlain c rest).1.isOrdinary ∧ (readPlain c rest).1 ≠ .string := by
  unfold readPlain
  repeat' split
  all_goals exact ⟨rfl, nofun⟩

theorem isOrdinary_readLiteral {c : Char} {rest : List Char} {kind : Token.Kind} {cut : Cut}
    (h : readLiteral c rest = .lexeme kind cut) : kind.isOrdinary := by
  unfold readLiteral at h
  split at h
  · split at h
    · obtain ⟨rfl, -⟩ := Reading.lexeme.inj h
      split <;> rfl
    · contradiction
  · obtain ⟨rfl, -⟩ := Reading.lexeme.inj h
    exact (isOrdinary_readPlain c rest).1

theorem admits_readLiteral {directives : Bool} {context : Context} {c : Char} {rest : List Char}
    {kind : Token.Kind} {cut : Cut} (hc : c ≠ '\n') (h : readLiteral c rest = .lexeme kind cut) :
    Admits directives context kind cut.text := by
  have hu := not_mem_readLiteral hc h
  unfold readLiteral at h
  split at h
  · split at h
    · obtain ⟨rfl, rfl⟩ := Reading.lexeme.inj h
      split
      · next opening _ _ _ hq =>
        exact .of_ordinary rfl (fun _ => by simp [hq]) (absurd · hu)
      · exact .of_ordinary rfl (by simp) (absurd · hu)
    · contradiction
  · obtain ⟨rfl, -⟩ := Reading.lexeme.inj h
    obtain ⟨hk, hs⟩ := isOrdinary_readPlain c rest
    exact .of_ordinary hk (absurd · hs) (absurd · hu)

theorem midLine_of_directiveHash? {context : Context} {chars : List Char} {cut : Cut}
    (h : directiveHash? context chars = some cut) : context.midLine = false := by
  unfold directiveHash? at h
  split at h
  all_goals try contradiction
  all_goals
    split at h
    · contradiction
    · next hm => simpa using hm

theorem admits_read {directives : Bool} {context : Context} {c : Char} {rest : List Char}
    {kind : Token.Kind} {cut : Cut} (h : Lexeme.read directives context c rest = .lexeme kind cut) :
    Admits directives context kind cut.text := by
  have hu := newline_of_mem_read h
  cases readAs_of_read h with
  | newline => exact ⟨nofun, hu, nofun, nofun, nofun⟩
  | hash _ hd hf => exact ⟨nofun, hu, nofun, fun _ => ⟨hd, midLine_of_directiveHash? hf⟩, nofun⟩
  | header _ _ hi => exact ⟨nofun, hu, nofun, nofun, fun _ => hi⟩
  | block => exact .of_ordinary rfl nofun hu
  | literal hc _ _ _ hl => exact admits_readLiteral hc hl

/-- Lexemes one behind the other, each admitted by its place. -/
def Shaped (directives : Bool) : Context → List Lexeme → Prop
  | _, [] => True
  | context, lexeme :: rest =>
    Admits directives context lexeme.kind lexeme.text ∧
      Shaped directives (context.next lexeme.kind lexeme.text) rest

/-- Every text is divided into lexemes that their places admit. -/
theorem shaped_divide (directives : Bool) (context : Context) (chars : List Char) :
    Shaped directives context (divide directives context chars).lexemes := by
  fun_induction divide directives context chars with
  | case1 | case2 | case3 => trivial
  | case4 context chars gap c rest hs kind cut hr ih => exact ⟨admits_read hr, ih⟩

/-! ## Fragments -/

/-- A place behind which nothing but a newline and ordinary tokens can stand. -/
def Context.Plain (directives : Bool) : Context → Prop
  | .lineStart _ => directives = false
  | .text _ => True
  | _ => False

theorem plain_lineStart (afterAsm : Bool) : Context.Plain false (.lineStart afterAsm) := rfl

theorem isOrdinary_of_plain {directives : Bool} {context : Context} {kind : Token.Kind}
    {text : List Char} (h : Admits directives context kind text)
    (hp : Context.Plain directives context) (hn : kind ≠ .newline) : kind.isOrdinary := by
  cases kind with
  | newline => contradiction
  | endOfFile => exact absurd rfl h.inner
  | headerName =>
    obtain rfl := h.header rfl
    contradiction
  | directiveHash =>
    obtain ⟨hd, hm⟩ := h.hash rfl
    cases context <;> simp_all [Context.Plain, Context.midLine]
  | _ => rfl

theorem plain_next {context : Context} {kind : Token.Kind} {text : List Char}
    (h : Admits false context kind text) (hp : Context.Plain false context) :
    Context.Plain false (context.next kind text) := by
  cases kind with
  | newline => rfl
  | directiveHash => exact absurd (h.hash rfl).1 (by decide)
  | _ => cases context <;> trivial

theorem ordinary_of_shaped {file : String} {finish : Nat × Nat} {ending : Ending}
    {chars : List Source.Located} {context : Context} {lexemes : List Lexeme} {token : Token}
    (h : Shaped false context lexemes) (hp : Context.Plain false context)
    (hm : token ∈ (Lexed.locate file finish ending chars lexemes).tokens)
    (hn : token.kind ≠ .newline) (he : token.kind ≠ .endOfFile) : token.Ordinary := by
  induction lexemes generalizing chars context with
  | nil =>
    unfold Lexed.locate at hm
    cases ending with
    | complete gap midLine =>
      rcases List.mem_append.1 hm with hm | hm
      · split at hm
        · rw [List.mem_singleton.1 hm] at hn
          exact absurd rfl hn
        · contradiction
      · rw [List.mem_singleton.1 hm] at he
        exact absurd rfl he
    | unclosed opener before rest => contradiction
  | cons lexeme lexemes ih =>
    unfold Lexed.locate at hm
    rcases List.mem_cons.1 hm with rfl | hm
    · refine ⟨isOrdinary_of_plain h.1 hp hn, fun hs => ?_, fun hm => ?_⟩
      · simpa using h.1.quoted hs
      · exact .inl ((h.1.unbroken (by simpa using hm)).resolve_left hn)
    · exact ih h.2 (plain_next h.1 hp) hm

/-- A text taken as part of a line gives ordinary tokens. -/
theorem ordinary_of_lexFragment {file text : String} {tokens : List Token}
    (h : lexFragment file text = .ok tokens) : ∀ token ∈ tokens, token.Ordinary := by
  intro token hm
  unfold lexFragment at h
  dsimp only at h
  split at h
  · contradiction
  · obtain rfl := Except.ok.inj h
    obtain ⟨hm, hk⟩ := List.mem_filter.1 hm
    simp only [Bool.and_eq_true, decide_eq_true_eq] at hk
    exact ordinary_of_shaped (shaped_divide _ (.lineStart false) _) rfl hm hk.1 hk.2

/-! ## Lines -/

/-- A line of ordinary tokens, or a directive. Only an include may have a header name among its
operands. -/
inductive ProperLine : List Token → Prop where
  | text {tokens : List Token} (h : ∀ token ∈ tokens, token.Ordinary) : ProperLine tokens
  | null {hash : Token} (hk : hash.kind = .directiveHash) : ProperLine [hash]
  | directive {hash keyword : Token} {operands : List Token} (hk : hash.kind = .directiveHash)
      (hq : ∀ operand ∈ operands, operand.Quoted)
      (ho : ¬(keyword.kind = .identifier ∧ keyword.text = "include") →
        ∀ operand ∈ operands, operand.Ordinary) : ProperLine (hash :: keyword :: operands)

theorem ProperLine.operands {hash keyword : Token} {operands : List Token}
    (h : ProperLine (hash :: keyword :: operands)) (hk : hash.kind = .directiveHash) :
    (∀ operand ∈ operands, operand.Quoted) ∧
      (¬(keyword.kind = .identifier ∧ keyword.text = "include") →
        ∀ operand ∈ operands, operand.Ordinary) := by
  cases h with
  | directive _ hq ho => exact ⟨hq, ho⟩
  | text h =>
    have hkind := (h hash List.mem_cons_self).kind
    rw [hk] at hkind
    contradiction

/-- The place of the end is where the end of the file stands. -/
theorem finish_divideFrom (current tokens : List Token) :
    (Lines.divideFrom current tokens).finish =
      (tokens.find? (·.kind = .endOfFile)).map Token.position := by
  induction tokens generalizing current with
  | nil => rfl
  | cons token rest ih =>
    rw [Lines.divideFrom]
    split
    · next hk =>
      rw [List.find?_cons_of_neg (by simp [hk])]
      exact ih []
    · next hk => rw [List.find?_cons_of_pos (by simp [hk])]; rfl
    · next hk =>
      rw [List.find?_cons_of_neg (by simpa using hk)]
      exact ih _

/-- What has been read of a line at a place in it. -/
def Begun (current : List Token) : Context → Prop
  | .lineStart _ => current = []
  | .text _ => ∀ token ∈ current, token.Ordinary
  | .keyword => ∃ hash : Token, hash.kind = .directiveHash ∧ current = [hash]
  | .header => ∃ hash keyword : Token, hash.kind = .directiveHash ∧
      (keyword.kind = .identifier ∧ keyword.text = "include") ∧ current = [hash, keyword]
  | .operands => ∃ (hash keyword : Token) (operands : List Token), hash.kind = .directiveHash ∧
      (∀ operand ∈ operands, operand.Quoted) ∧
      (¬(keyword.kind = .identifier ∧ keyword.text = "include") →
        ∀ operand ∈ operands, operand.Ordinary) ∧ current = hash :: keyword :: operands

theorem Begun.proper {current : List Token} {context : Context} (h : Begun current context) :
    ProperLine current := by
  cases context with
  | lineStart afterAsm =>
    obtain rfl : current = [] := h
    exact .text nofun
  | text afterAsm => exact .text h
  | keyword =>
    obtain ⟨hash, hk, rfl⟩ := h
    exact .null hk
  | header =>
    obtain ⟨hash, keyword, hk, hi, rfl⟩ := h
    exact .directive hk nofun fun hn => absurd hi hn
  | operands =>
    obtain ⟨hash, keyword, operands, hk, hq, ho, rfl⟩ := h
    exact .directive hk hq ho

theorem next_of_inner (context : Context) {kind : Token.Kind} {text : List Char}
    (hn : kind ≠ .newline) (hh : kind ≠ .directiveHash) :
    context.next kind text =
      match context with
      | .lineStart _ | .text _ =>
        .text (kind = .identifier && asmKeywords.contains (String.ofList text))
      | .keyword =>
        if kind = .identifier && String.ofList text = "include" then .header else .operands
      | .header | .operands => .operands := by
  cases kind <;> first | contradiction | rfl

/-- A token that its place admits takes the line one place further. -/
theorem Begun.next {current : List Token} {context : Context} {token : Token}
    (h : Begun current context) (ha : Admits true context token.kind token.text.toList)
    (hn : token.kind ≠ .newline) :
    Begun (current ++ [token]) (context.next token.kind token.text.toList) := by
  have hplain (hh : token.kind ≠ .directiveHash) (hc : context ≠ .header) : token.Ordinary := by
    refine ⟨?_, ha.quoted, fun hm => .inl ((ha.unbroken hm).resolve_left hn)⟩
    cases hk : token.kind with
    | newline => exact absurd hk hn
    | endOfFile => exact absurd hk ha.inner
    | headerName => exact absurd (ha.header hk) hc
    | directiveHash => exact absurd hk hh
    | _ => rfl
  by_cases hh : token.kind = .directiveHash
  · cases context with
    | lineStart afterAsm =>
      obtain rfl : current = [] := h
      rw [hh]
      exact ⟨token, hh, rfl⟩
    | _ => exact absurd (ha.hash hh).2 nofun
  rw [next_of_inner context hn hh]
  cases context with
  | lineStart afterAsm =>
    obtain rfl : current = [] := h
    intro other hm
    rw [List.mem_singleton.1 hm]
    exact hplain hh nofun
  | text afterAsm =>
    intro other hm
    rcases List.mem_append.1 hm with hm | hm
    · exact h other hm
    · rw [List.mem_singleton.1 hm]
      exact hplain hh nofun
  | keyword =>
    obtain ⟨hash, hk, rfl⟩ := h
    dsimp only
    rw [String.ofList_toList]
    split
    · next hi => exact ⟨hash, token, hk, by simpa using hi, rfl⟩
    · exact ⟨hash, token, [], hk, nofun, nofun, rfl⟩
  | header =>
    obtain ⟨hash, keyword, hk, hi, rfl⟩ := h
    refine ⟨hash, keyword, [token], hk, fun other hm => ?_, fun hni => absurd hi hni, rfl⟩
    rw [List.mem_singleton.1 hm]
    exact ha.quoted
  | operands =>
    obtain ⟨hash, keyword, operands, hk, hq, ho, rfl⟩ := h
    refine ⟨hash, keyword, operands ++ [token], hk, fun other hm => ?_, fun hni other hm => ?_, rfl⟩
    · rcases List.mem_append.1 hm with hm | hm
      · exact hq other hm
      · rw [List.mem_singleton.1 hm]
        exact ha.quoted
    · rcases List.mem_append.1 hm with hm | hm
      · exact ho hni other hm
      · rw [List.mem_singleton.1 hm]
        exact hplain hh nofun

theorem proper_divideFrom {file : String} {finish : Nat × Nat} {ending : Ending}
    {chars : List Source.Located} {context : Context} {lexemes : List Lexeme}
    {current : List Token} (h : Shaped true context lexemes) (hb : Begun current context) :
    ∀ line ∈ (Lines.divideFrom current
      (Lexed.locate file finish ending chars lexemes).tokens).lines, ProperLine line.tokens := by
  induction lexemes generalizing chars context current with
  | nil =>
    unfold Lexed.locate
    cases ending with
    | complete gap midLine =>
      cases midLine with
      | true =>
        intro line hm
        obtain rfl := List.mem_singleton.1 hm
        exact hb.proper
      | false => nofun
    | unclosed opener before rest => nofun
  | cons lexeme lexemes ih =>
    unfold Lexed.locate Lines.divideFrom
    dsimp only
    obtain ⟨ha, hs⟩ := h
    split
    · next hk =>
      intro line hm
      rcases List.mem_cons.1 hm with rfl | hm
      · exact hb.proper
      · have hb' : Begun [] (context.next lexeme.kind lexeme.text) := by
          rw [hk]
          exact rfl
        exact ih hs hb' line hm
    · next hk => exact absurd hk ha.inner
    · next hn _ =>
      have hl := String.toList_ofList (l := lexeme.text)
      let token : Token :=
        { kind := lexeme.kind
          text := String.ofList lexeme.text
          position := Lexed.positionOf file finish (chars.drop lexeme.gap.length)
          space := !lexeme.gap.isEmpty }
      have hb' : Begun (current ++ [token]) (context.next token.kind token.text.toList) :=
        hb.next (by rw [hl]; exact ha) hn
      rw [hl] at hb'
      exact ih hs hb'

/-- Every line of a file is proper. -/
theorem proper_ofTokens (trigraphs : Bool) (file source : String) :
    ∀ line ∈ (Lines.ofTokens (lex true trigraphs file source).tokens).lines,
      ProperLine line.tokens :=
  proper_divideFrom (shaped_divide _ _ _) rfl

end CPreprocessor

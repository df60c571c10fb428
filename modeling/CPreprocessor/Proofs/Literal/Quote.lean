import CPreprocessor.Proofs.Expansion.Course
import CPreprocessor.Proofs.Expansion.ObjectLike
import CPreprocessor.Proofs.Expansion.Stringize

/-!
# Quoted texts are read back

A text of one line that is written as a literal is scanned as that one literal again, whatever
backslashes and quotes it has and wherever they stand. The name of a file is written so where
`__FILE__` is expanded, and this happens to every `__FILE__` that an expansion comes to.

* `Denotes`: a literal that gives a text when its escapes are undone. `denotes_of_quote`: a quoted
  text denotes the text.
* `QuoteRoundTrip`, `quoteRoundTrip_of_line`: what becomes of a quoted text in the scanner.
* `carried_keepsBuiltins`: no token of an expansion hides a built-in name.
* `quote_round_trips`: both together.
-/

namespace CPreprocessor

open Lexeme Macro

namespace Literal

variable {text : List Char}

/-! ## Escaping -/

/-- Takes `\\` for a backslash and `\"` for a double quote, and all else for itself. -/
def undo : List Char → List Char
  | '\\' :: '\\' :: rest => '\\' :: undo rest
  | '\\' :: '"' :: rest => '"' :: undo rest
  | c :: rest => c :: undo rest
  | [] => []

theorem undo_escape (text : List Char) : undo (escape text) = text := by
  induction text with
  | nil => rfl
  | cons c rest ih =>
    rw [escape]
    split
    · next hc =>
      rw [Bool.or_eq_true, decide_eq_true_eq, decide_eq_true_eq] at hc
      rcases hc with rfl | rfl
      · rw [undo, ih]
      · rw [undo, ih]
    · next hc =>
      rw [Bool.or_eq_true, decide_eq_true_eq, not_or] at hc
      rw [undo, ih]
      · rintro _ rfl
        exact absurd rfl hc.1
      · rintro _ rfl
        exact absurd rfl hc.1

/-! ## Literals for a text -/

/-- The token is a string literal without an encoding, and gives the text when the escapes between
its quotes are undone. -/
structure Denotes (token : Token) (text : String) : Prop where
  kind : token.kind = .string
  parts : ∃ body, split? token.text.toList = some ⟨[], body⟩ ∧ undo body = text.toList

theorem denotes_of_quote {token : Token} {text : String} (hk : token.kind = .string)
    (ht : token.text = quote text) : Denotes token text := by
  refine ⟨hk, escape text.toList, ?_, undo_escape _⟩
  rw [ht, quote, String.toList_ofList, split?]
  simp

/-- The scanner reads a quoted text as one literal spelled like it, which denotes the text and which
merging leaves as it is. -/
def QuoteRoundTrip (file text : String) : Prop :=
  ∃ token, lexFragment file (quote text) = .ok [token] ∧ token.text = quote text ∧
    Denotes token text ∧ merge [token] = [token]

theorem quoteRoundTrip_of_line (file : String) {text : String} (hr : '\r' ∉ text.toList)
    (hn : '\n' ∉ text.toList) : QuoteRoundTrip file text := by
  have hescape : '\r' ∉ escape text.toList := by
    intro hm
    rcases List.mem_cons.1 (mem_of_mem_escape hm) with he | hm
    · exact absurd he (by decide)
    · exact hr hm
  obtain ⟨token, hl, hk, ht⟩ := (lexFragment_quoted_iff hescape).2 (standsFor_escape hn).1
  refine ⟨token, hl, ht, denotes_of_quote hk ht, ?_⟩
  simp [merge, mergeFrom, absorb, hk]

end Literal

/-! ## The name of a file -/

namespace Expansion

open Literal

variable {table : Table} {tokens rest : List Token} {token : Token}

/-- Macros that were read from tokens that do not hide the built-in names. -/
def ReadOpen (table : Table) : Prop :=
  ∀ definition ∈ table.entries, ∃ site tokens, Definition.parse site tokens = .ok definition ∧
    ∀ token ∈ tokens, KeepsBuiltins token

theorem ReadOpen.opensBuiltins (h : ReadOpen table) :
    ∀ definition ∈ table.entries, OpensBuiltins definition := by
  intro definition hm
  obtain ⟨site, tokens, hp, hk⟩ := h definition hm
  exact opensBuiltins_of_parse hp hk

/-- A token hides the built-in names only if it came from one that did, or from a macro of such a
name. -/
theorem carried_keepsBuiltins :
    Carried (fun name => name ∉ builtinNames) KeepsBuiltins KeepsBuiltins where
  made h := h
  spaced h _ := h
  settled ht hs _ _ _ hh := by
    intro name hb hm
    rcases hh name hm with hm | hm | hm
    · exact ht name hb hm
    · exact hs name hb hm
    · exact hm hb
  builtin {token} h := by
    unfold builtin
    split
    · exact h
    · split <;> exact h
  comma _ := fun name _ => HideSet.not_mem_empty name
  stringized _ _ := fun name _ => HideSet.not_mem_empty name
  pasted hl hr hj := by
    intro name hb
    rw [hide_of_pasteTokens? hj, HideSet.mem_union, not_or]
    exact ⟨hl name hb, hr name hb⟩

/-- The literal that a name in a file is replaced by. -/
def fileLiteral (token : Token) : Token :=
  { token with kind := .string, text := quote token.position.file }

/-- A `__FILE__` that is not hidden is passed on as a literal. -/
theorem step_fileName (hd : ∀ definition ∈ table.entries, OpensBuiltins definition)
    (hk : token.kind = .identifier) (ht : token.text = "__FILE__") (hh : KeepsBuiltins token)
    (more : Bool) (rest : List Token) :
    step table more token rest = .emit (fileLiteral token) := by
  have hb : token.text ∈ builtinNames := by
    rw [ht]
    exact List.mem_cons_self
  have hf : table.find? token.text = none := by
    refine Option.eq_none_iff_forall_ne_some.2 fun definition hf => ?_
    have hname := (hd definition (Table.mem_of_find? hf)).name
    rw [Table.name_of_find? hf] at hname
    exact hname hb
  rw [step, if_pos ⟨hk, hh _ hb⟩, hf]
  dsimp only
  rw [builtin, if_pos ht]
  rfl

/-- A call gives no tokens before its replacement is read. -/
theorem Invocation.token_not_mem_events (call : Invocation) (table : Table) (produced : Token) :
    .token produced ∉ call.events table := by
  intro hm
  have ht : produced ∈ (call.events table).filterMap Event.token? :=
    List.mem_filterMap.2 ⟨_, hm, rfl⟩
  rw [Invocation.filterMap_token?_events] at ht
  contradiction

/-- What a name that may begin a call comes out as, if it does, is spelled as it was. -/
theorem Head.text_of_mem_events {head : Head} {more : Bool} {produced : Token}
    (h : .token produced ∈ (head.step more rest).events table) :
    produced.text = head.site.text := by
  unfold Head.step Head.refuse at h
  repeat' split at h
  all_goals simp only [Step.events, List.mem_cons, List.not_mem_nil, or_false, reduceCtorEq,
    Event.token.injEq, false_or] at h
  all_goals first
    | exact absurd h (Invocation.token_not_mem_events _ _ _)
    | rw [h]
  all_goals rfl

/-- No identifier that comes out is a built-in name. -/
theorem not_builtin_of_mem_events (hd : ∀ definition ∈ table.entries, OpensBuiltins definition)
    (hh : KeepsBuiltins token) {produced : Token}
    (h : .token produced ∈ (step table false token rest).events table)
    (hk : produced.kind = .identifier) : produced.text ∉ builtinNames := by
  by_cases he : token.kind = .identifier ∧ token.text ∉ token.hide
  · cases hf : table.find? token.text with
    | none =>
      rw [step, if_pos he, hf] at h
      obtain rfl := Event.token.inj (List.mem_singleton.1 h)
      by_cases hb : token.text ∈ builtinNames
      · exact absurd hk (kind_builtin_of_mem hb)
      · rwa [builtin_eq_self hb]
    | some definition =>
      have hname := (hd definition (Table.mem_of_find? hf)).name
      rw [Table.name_of_find? hf] at hname
      rw [step, if_pos he, hf] at h
      dsimp only at h
      cases hp : definition.parameters with
      | none =>
        rw [hp] at h
        exact absurd h (Invocation.token_not_mem_events _ _ _)
      | some parameters =>
        rw [hp] at h
        rwa [Head.text_of_mem_events h]
  · rw [step, if_neg he] at h
    obtain rfl := Event.token.inj (List.mem_singleton.1 h)
    exact fun hb => he ⟨hk, hh _ hb⟩

/-- Quoting round-trips through the scanner, so `__FILE__` always becomes one literal that denotes
the name of the file: wherever an expansion comes to it, that literal comes out in its place, and
the name itself never does. -/
theorem quote_round_trips (hr : ReadOpen table) (hk : ∀ token ∈ tokens, KeepsBuiltins token) :
    (∀ file text : String, '\r' ∉ text.toList → '\n' ∉ text.toList → QuoteRoundTrip file text) ∧
      (∀ name rest, Comes table tokens (name :: rest) → name.kind = .identifier →
        name.text = "__FILE__" → ∃ literal,
          expand table (name :: rest) = .token literal :: expand table rest ∧
            literal.text = quote name.position.file ∧ Denotes literal name.position.file) ∧
      ∀ produced ∈ (expand table tokens).filterMap Event.token?,
        produced.kind = .identifier → produced.text ≠ "__FILE__" := by
  have hd := hr.opensBuiltins
  have hbody : table.Has KeepsBuiltins := fun definition hm => (hd definition hm).body
  have hnames : ∀ name ∈ table.names, name ∉ builtinNames := by
    intro name hm
    obtain ⟨definition, hdefinition, rfl⟩ := List.mem_map.1 hm
    exact (hd definition hdefinition).name
  have hkeeps {token : Token} {rest : List Token} (hc : Comes table tokens (token :: rest)) :
      KeepsBuiltins token :=
    hc.carries carried_keepsBuiltins hbody hnames hk token List.mem_cons_self
  refine ⟨quoteRoundTrip_of_line, fun name rest hc hi ht => ?_, fun produced hm hi he => ?_⟩
  · have hs := step_fileName hd hi ht (hkeeps hc) false rest
    refine ⟨fileLiteral name, ?_, rfl, denotes_of_quote rfl rfl⟩
    rw [expand_cons, hs]
    rfl
  · obtain ⟨event, hevent, hp⟩ := List.mem_filterMap.1 hm
    obtain ⟨token, rest, hc, hs⟩ := exists_comes_of_mem_expand hevent
    cases event with
    | issue => contradiction
    | token other =>
      obtain rfl := Option.some.inj hp
      have hnot := not_builtin_of_mem_events hd (hkeeps hc) hs hi
      rw [he] at hnot
      exact hnot List.mem_cons_self

/-- A name that a macro body has, one that is given as an argument and one that is pasted, in a file
whose name has quotes and ends in a backslash. -/
theorem quote_round_trips_arguments :
    let table := readAll ["F(x) x __FILE__", "G __FI##LE__"]
    let tokens := fragment "a\"b\\" "F(__FILE__) G"
    (ReadOpen table ∧ ∀ token ∈ tokens, KeepsBuiltins token) ∧
      (∀ file text : String, '\r' ∉ text.toList → '\n' ∉ text.toList → QuoteRoundTrip file text) ∧
      (∀ name rest, Comes table tokens (name :: rest) → name.kind = .identifier →
        name.text = "__FILE__" → ∃ literal,
          expand table (name :: rest) = .token literal :: expand table rest ∧
            literal.text = quote name.position.file ∧ Denotes literal name.position.file) ∧
      ∀ produced ∈ (expand table tokens).filterMap Event.token?,
        produced.kind = .identifier → produced.text ≠ "__FILE__" := by
  intro table tokens
  have hkeeps {file text : String} : ∀ token ∈ fragment file text, KeepsBuiltins token := by
    intro token hm name _
    rw [hide_of_mem_fragment token hm]
    exact HideSet.not_mem_empty name
  have hread : ReadOpen table := by
    intro definition hm
    obtain ⟨text, -, hp⟩ := List.mem_filterMap.1 hm
    exact ⟨.start "a.h", fragment "a.h" text, eq_ok_of_toOption hp, hkeeps⟩
  exact ⟨⟨hread, hkeeps⟩, quote_round_trips hread hkeeps⟩

end Expansion

end CPreprocessor

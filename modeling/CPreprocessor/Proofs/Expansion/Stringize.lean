import CPreprocessor.Proofs.Lexeme.Class
import CPreprocessor.Proofs.Token.Render

/-!
# Stringized arguments

An argument behind the stringizing operator becomes one literal. What stands between its quotes is
the text of the argument with the literals in it escaped. Everything else is taken as it is, which
is right for all that a scanner reads but for blocks of assembly text.

* `StandsFor`: a text stands for another one between two quotes. `standsFor_append_iff`: parts of a
  text stand for parts of the other.
* `standsFor_literalText_iff`: the text of one token stands for the token, unless it is a block with
  quotes, backslashes or newlines in it.
* `lexFragment_quoted_iff`: what is read again of a text between two quotes.
* `stringize_faithful_iff`: the literal is read as one token that stands for the argument just if
  there is no such block in it.
-/

namespace CPreprocessor

open Source Lexeme

namespace Literal

variable {quote : Char} {text rest value more left right : List Char}

/-! ## Escapes -/

theorem escape_append (left right : List Char) :
    escape (left ++ right) = escape left ++ escape right := by
  induction left with
  | nil => rfl
  | cons c left ih =>
    rw [List.cons_append, escape, escape, ih]
    split <;> rfl

theorem mem_of_mem_escape {c : Char} (h : c ∈ escape text) : c ∈ '\\' :: text := by
  induction text with
  | nil => contradiction
  | cons d rest ih =>
    rw [escape] at h
    split at h <;> simp only [List.mem_cons] at h ih ⊢ <;> tauto

theorem getLast?_escape (text : List Char) : (escape text).getLast? = text.getLast? := by
  rcases List.eq_nil_or_concat text with rfl | ⟨front, last, rfl⟩
  · rfl
  · rw [List.concat_eq_append, escape_append, escape]
    split
    · rw [escape, List.append_cons, List.getLast?_concat, List.getLast?_concat]
    · rw [escape, List.getLast?_concat, List.getLast?_concat]

theorem unescape_cons {c : Char} (hc : c ≠ '\\') (rest : List Char) :
    unescape (c :: rest) = c :: unescape rest := by
  rw [unescape]
  rintro _ _ rfl
  contradiction

theorem length_unescape_le (text : List Char) : (unescape text).length ≤ text.length := by
  fun_induction unescape text with
  | case1 c rest ih =>
    simp only [List.length_cons]
    omega
  | case2 c rest _ ih => exact Nat.succ_le_succ ih
  | case3 => exact Nat.le_refl 0

/-! ## Between two quotes -/

theorem inQuotes_append (hl : InQuotes quote left) (hr : InQuotes quote right) :
    InQuotes quote (left ++ right) := by
  induction hl with
  | nil => exact hr
  | plain hq hb hn _ ih => exact .plain hq hb hn ih
  | escaped hn _ ih => exact .escaped hn ih

theorem unescape_append (h : InQuotes quote left) (right : List Char) :
    unescape (left ++ right) = unescape left ++ unescape right := by
  induction h with
  | nil => rfl
  | plain _ hb _ _ ih =>
    rw [List.cons_append, unescape_cons hb, unescape_cons hb, ih]
    rfl
  | escaped _ _ ih =>
    rw [List.cons_append, List.cons_append, unescape, unescape, ih]
    rfl

theorem getLast?_ne_of_cons {c d : Char} (h : (c :: text).getLast? ≠ some d) :
    text.getLast? ≠ some d := by
  intro ht
  rw [List.getLast?_cons, ht] at h
  exact h rfl

/-- Behind a cut that has no backslash in front of it no character goes with one. -/
theorem inQuotes_of_append (h : InQuotes quote (left ++ right)) (hl : left.getLast? ≠ some '\\') :
    InQuotes quote left ∧ InQuotes quote right := by
  generalize hw : left ++ right = whole at h
  induction h generalizing left with
  | nil =>
    obtain ⟨rfl, rfl⟩ := List.append_eq_nil_iff.1 hw
    exact ⟨.nil, .nil⟩
  | @plain c text hq hb hn h ih =>
    cases left with
    | nil =>
      obtain rfl : right = c :: text := hw
      exact ⟨.nil, .plain hq hb hn h⟩
    | cons d left =>
      obtain ⟨rfl, hrest⟩ := List.cons.inj hw
      obtain ⟨hleft, hright⟩ := ih (getLast?_ne_of_cons hl) hrest
      exact ⟨.plain hq hb hn hleft, hright⟩
  | @escaped c text hn h ih =>
    cases left with
    | nil =>
      obtain rfl : right = '\\' :: c :: text := hw
      exact ⟨.nil, .escaped hn h⟩
    | cons d left =>
      obtain ⟨rfl, hrest⟩ := List.cons.inj hw
      cases left with
      | nil => exact absurd rfl hl
      | cons e left =>
        obtain ⟨rfl, hmore⟩ := List.cons.inj hrest
        obtain ⟨hleft, hright⟩ := ih (getLast?_ne_of_cons (getLast?_ne_of_cons hl)) hmore
        exact ⟨.escaped hn hleft, hright⟩

/-- A literal does not go on over the end of a line. -/
theorem not_mem_of_inQuotes (h : InQuotes quote text) : '\n' ∉ text := by
  induction h with
  | nil => exact List.not_mem_nil
  | plain _ _ hn _ ih => exact List.not_mem_cons_of_ne_of_not_mem (Ne.symm hn) ih
  | escaped hn _ ih =>
    refine List.not_mem_cons_of_ne_of_not_mem (by decide) ?_
    exact List.not_mem_cons_of_ne_of_not_mem (Ne.symm hn) ih

/-- What stands between two quotes is a text that gives `value` when its escapes are undone. -/
def StandsFor (text value : List Char) : Prop := InQuotes '"' text ∧ unescape text = value

/-- No character of the text has a meaning of its own in a literal. -/
def Verbatim (text : List Char) : Prop := ∀ d ∈ text, d ≠ '"' ∧ d ≠ '\\' ∧ d ≠ '\n'

theorem standsFor_escape (hn : '\n' ∉ text) : StandsFor (escape text) text := by
  refine ⟨?_, unescape_escape text⟩
  induction text with
  | nil => exact .nil
  | cons c rest ih =>
    have hc : c ≠ '\n' := fun he => hn (he ▸ List.mem_cons_self)
    have hrest := ih (List.not_mem_of_not_mem_cons hn)
    rw [escape]
    split
    · exact .escaped hc hrest
    · next hplain =>
      simp only [Bool.or_eq_true, decide_eq_true_eq, not_or] at hplain
      exact .plain hplain.2 hplain.1 hc hrest

/-- A text stands for itself just if nothing in it has a meaning of its own. -/
theorem standsFor_self_iff : StandsFor text text ↔ Verbatim text := by
  constructor
  · rintro ⟨h, hu⟩
    induction h with
    | nil => exact List.forall_mem_nil _
    | plain hq hb hn _ ih =>
      rw [unescape_cons hb] at hu
      exact List.forall_mem_cons.2 ⟨⟨hq, hb, hn⟩, ih (List.cons.inj hu).2⟩
    | @escaped c text _ _ _ =>
      have hle := length_unescape_le text
      have hlength := congrArg List.length hu
      rw [unescape, List.length_cons, List.length_cons, List.length_cons] at hlength
      omega
  · intro h
    induction text with
    | nil => exact ⟨.nil, rfl⟩
    | cons c rest ih =>
      obtain ⟨⟨hq, hb, hn⟩, hrest⟩ := List.forall_mem_cons.1 h
      obtain ⟨hin, hu⟩ := ih hrest
      exact ⟨.plain hq hb hn hin, by rw [unescape_cons hb, hu]⟩

/-- Parts of a text stand for parts of the other if neither is too short for its own. -/
theorem standsFor_append_iff (hl : left.getLast? ≠ some '\\')
    (hv : (unescape left).length ≤ value.length)
    (hm : InQuotes '"' right → (unescape right).length ≤ more.length) :
    StandsFor (left ++ right) (value ++ more) ↔ StandsFor left value ∧ StandsFor right more := by
  constructor
  · rintro ⟨hin, hu⟩
    obtain ⟨hleft, hright⟩ := inQuotes_of_append hin hl
    rw [unescape_append hleft] at hu
    have hlength := congrArg List.length hu
    rw [List.length_append, List.length_append] at hlength
    have hle := hm hright
    obtain ⟨hvalue, hmore⟩ := List.append_inj hu (by omega)
    exact ⟨⟨hleft, hvalue⟩, hright, hmore⟩
  · rintro ⟨⟨hleft, rfl⟩, hright, rfl⟩
    exact ⟨inQuotes_append hleft hright, unescape_append hleft right⟩

end Literal

namespace Expansion

open Literal

variable {token : Token} {tokens argument : List Token}

/-! ## Tokens in a literal -/

/-- The text of a token does not end with a backslash, but for a stray one. -/
theorem getLast?_of_spelled {kind : Token.Kind} {text : List Char} (hs : Spelled kind text)
    (hb : text ≠ ['\\']) : text.getLast? ≠ some '\\' := by
  cases hs with
  | block inner => simp [List.getLast?_cons]
  | other hn hq => simpa using hb
  | ofClass h =>
    have hn := h.not_mem
    have hplain (hm : '\\' ∉ text) : text.getLast? ≠ some '\\' :=
      fun hl => hm (List.mem_of_getLast? hl)
    cases h with
    | identifier | number | punctuator => exact hplain (hn (by decide) (by decide) _ (by decide))
    | literal hq h =>
      obtain ⟨encoding, -, body, -, rfl⟩ := h
      rw [← List.cons_append, ← List.append_assoc, List.getLast?_concat]
      exact fun he => (ne_of_isQuote hq).1 (Option.some.inj he)

theorem getLast?_literalText (hs : Spelled token.kind token.text.toList)
    (hb : token.text ≠ "\\") : (literalText token).getLast? ≠ some '\\' := by
  have htext : token.text.toList ≠ ['\\'] := fun he => hb (String.toList_inj.1 he)
  have hlast := getLast?_of_spelled hs htext
  unfold literalText
  split
  · rwa [getLast?_escape]
  · exact hlast

theorem length_unescape_literalText (token : Token) :
    (unescape (literalText token)).length ≤ token.text.toList.length := by
  unfold literalText
  split
  · rw [unescape_escape]
  · exact length_unescape_le _

theorem not_mem_of_isLiteral {quote : Char} {text : List Char} (hq : isQuote quote)
    (h : IsLiteral quote text) : '\n' ∉ text := by
  obtain ⟨encoding, he, body, hb, rfl⟩ := h
  have hencoding : ∀ encoding ∈ encodings, '\n' ∉ encoding := by decide
  have hquote := (ne_of_isQuote hq).2
  simp [hencoding _ he, not_mem_of_inQuotes hb, hquote.symm]

theorem standsFor_of_spelled {kind : Token.Kind} {text : List Char} (hs : Spelled kind text)
    (hb : text ≠ ['\\']) :
    StandsFor (if kind = .string ∨ kind = .character then escape text else text) text ↔
      (kind = .asmBlock → Verbatim text) := by
  cases hs with
  | block inner =>
    rw [if_neg (by decide), standsFor_self_iff]
    exact ⟨fun h _ => h, fun h => h rfl⟩
  | @other c hn hq =>
    have hverbatim : Verbatim [c] := by
      rw [isQuote, Bool.or_eq_false_iff, decide_eq_false_iff_not] at hq
      exact List.forall_mem_singleton.2 ⟨hq.1, fun he => hb (he ▸ rfl), hn⟩
    rw [if_neg (by decide), standsFor_self_iff]
    exact iff_of_true hverbatim fun _ => hverbatim
  | ofClass h =>
    have hn := h.not_mem
    have hplain (hm : ∀ d ∈ marks, d ∉ text) : Verbatim text := by
      intro d hd
      refine ⟨?_, ?_, ?_⟩
      all_goals
        rintro rfl
        exact hm _ (by decide) hd
    cases h with
    | identifier | number | punctuator =>
      rw [if_neg (by decide), standsFor_self_iff]
      have hverbatim := hplain (hn (by decide) (by decide))
      exact iff_of_true hverbatim fun _ => hverbatim
    | @literal quote _ hq h =>
      have hkind : literalKind quote = .string ∨ literalKind quote = .character := by
        unfold literalKind
        split <;> simp
      rw [if_pos hkind]
      refine iff_of_true (standsFor_escape (not_mem_of_isLiteral hq h)) fun hk => ?_
      rw [hk] at hkind
      rcases hkind with hkind | hkind <;> contradiction

/-- Inside a literal a token stands for itself, unless it is a block with something in it that has
a meaning of its own there. -/
theorem standsFor_literalText_iff (hs : Spelled token.kind token.text.toList)
    (hb : token.text ≠ "\\") : StandsFor (literalText token) token.text.toList ↔
      (token.kind = .asmBlock → Verbatim token.text.toList) := by
  rw [← standsFor_of_spelled hs fun he => hb (String.toList_inj.1 he)]
  rfl

/-! ## The whole argument -/

/-- The blank in front of a token. -/
def blank (token : Token) : List Char := if token.space then [' '] else []

theorem standsFor_blank (token : Token) : StandsFor (blank token) (blank token) :=
  standsFor_self_iff.2 (by unfold blank; split <;> simp [Verbatim])

theorem getLast?_blank (token : Token) : (blank token).getLast? ≠ some '\\' := by
  unfold blank
  split <;> decide

theorem standsFor_blank_append (token : Token) {text value : List Char} :
    StandsFor (blank token ++ text) (blank token ++ value) ↔ StandsFor text value := by
  obtain ⟨hblank, hu⟩ := standsFor_blank token
  constructor
  · rintro ⟨hin, hvalue⟩
    rw [unescape_append hblank, hu] at hvalue
    exact ⟨(inQuotes_of_append hin (getLast?_blank token)).2, List.append_cancel_left hvalue⟩
  · rintro ⟨hin, rfl⟩
    exact ⟨inQuotes_append hblank hin, by rw [unescape_append hblank, hu]⟩

theorem toList_renderTail (token : Token) (rest : List Token) :
    (Token.renderTail (token :: rest)).toList =
      blank token ++ (token.text.toList ++ (Token.renderTail rest).toList) := by
  rw [Token.renderTail, String.toList_append, String.toList_append, List.append_assoc, blank]
  cases token.space <;> rfl

theorem literalTail_cons (token : Token) (rest : List Token) :
    literalTail (token :: rest) = blank token ++ (literalText token ++ literalTail rest) := by
  rw [literalTail, List.append_assoc, blank]

/-- Undoing the escapes of an argument gives no more than the argument. -/
theorem length_unescape_literalTail
    (hl : ∀ token ∈ tokens, (literalText token).getLast? ≠ some '\\')
    (h : InQuotes '"' (literalTail tokens)) :
    (unescape (literalTail tokens)).length ≤ (Token.renderTail tokens).toList.length := by
  induction tokens with
  | nil => exact Nat.le_refl 0
  | cons token rest ih =>
    obtain ⟨hfirst, hrest⟩ := List.forall_mem_cons.1 hl
    rw [literalTail_cons] at h ⊢
    obtain ⟨hblank, hmore⟩ := inQuotes_of_append h (getLast?_blank token)
    obtain ⟨htext, htail⟩ := inQuotes_of_append hmore hfirst
    have hle := length_unescape_literalText token
    have hmost := ih hrest htail
    rw [toList_renderTail, unescape_append hblank, (standsFor_blank token).2, unescape_append htext]
    simp only [List.length_append]
    omega

theorem standsFor_literalTail_iff
    (hl : ∀ token ∈ tokens, (literalText token).getLast? ≠ some '\\') :
    StandsFor (literalTail tokens) (Token.renderTail tokens).toList ↔
      ∀ token ∈ tokens, StandsFor (literalText token) token.text.toList := by
  induction tokens with
  | nil => exact iff_of_true ⟨.nil, rfl⟩ (List.forall_mem_nil _)
  | cons token rest ih =>
    obtain ⟨hfirst, hrest⟩ := List.forall_mem_cons.1 hl
    have hparts := standsFor_append_iff hfirst (length_unescape_literalText token)
      (length_unescape_literalTail hrest)
    rw [literalTail_cons, toList_renderTail, List.forall_mem_cons, ← ih hrest, ← hparts,
      standsFor_blank_append]

/-- What stands in the literal stands in the argument, but for blanks and backslashes. -/
theorem mem_of_mem_literalTail {c : Char} (h : c ∈ literalTail tokens) :
    c ∈ [' ', '\\'] ∨ ∃ token ∈ tokens, c ∈ token.text.toList := by
  induction tokens with
  | nil => contradiction
  | cons token rest ih =>
    rw [literalTail_cons, List.mem_append, List.mem_append] at h
    rcases h with h | h | h
    · unfold blank at h
      split at h
      · exact .inl (List.mem_cons.2 (.inl (List.mem_singleton.1 h)))
      · contradiction
    · unfold literalText at h
      split at h
      · rcases List.mem_cons.1 (mem_of_mem_escape h) with rfl | h
        · exact .inl (by decide)
        · exact .inr ⟨token, List.mem_cons_self, h⟩
      · exact .inr ⟨token, List.mem_cons_self, h⟩
    · rcases ih h with h | ⟨other, ho, h⟩
      · exact .inl h
      · exact .inr ⟨other, List.mem_cons_of_mem token ho, h⟩

theorem mem_of_mem_argumentText {c : Char} (h : c ∈ argumentText argument) :
    c ∈ [' ', '\\'] ∨ ∃ token ∈ argument, c ∈ token.text.toList := by
  cases argument with
  | nil => contradiction
  | cons first rest =>
    refine mem_of_mem_literalTail ?_
    rw [literalTail_cons]
    exact List.mem_append_right _ h

/-- The contents of the literal stand for the argument just if each token stands for itself. -/
theorem standsFor_argumentText_iff
    (hl : ∀ token ∈ argument, (literalText token).getLast? ≠ some '\\') :
    StandsFor (argumentText argument) (Token.render argument).toList ↔
      ∀ token ∈ argument, StandsFor (literalText token) token.text.toList := by
  cases argument with
  | nil => exact iff_of_true ⟨.nil, rfl⟩ (List.forall_mem_nil _)
  | cons first rest =>
    obtain ⟨hfirst, hrest⟩ := List.forall_mem_cons.1 hl
    rw [argumentText, Token.render, String.toList_append, List.forall_mem_cons,
      ← standsFor_literalTail_iff hrest]
    exact standsFor_append_iff hfirst (length_unescape_literalText first)
      (length_unescape_literalTail hrest)

end Expansion

/-! ## What is read of it -/

namespace Lexeme

/-- A scanned token is a lexeme, unless it only marks the end of a line. -/
theorem exists_lexeme_of_mem_lex {directives trigraphs : Bool} {file source : String}
    {token : Token} (hm : token ∈ (lex directives trigraphs file source).tokens)
    (ho : token.kind.isOrdinary) :
    ∃ lexeme ∈ (scan directives trigraphs source).lexemes,
      lexeme.kind = token.kind ∧ lexeme.text = token.text.toList := by
  have hin : token.unplaced ∈ (scan directives trigraphs source).tokens := by
    rw [← unplaced_lex directives trigraphs file source]
    exact List.mem_map_of_mem hm
  rcases List.mem_append.1 hin with hin | hin
  · obtain ⟨lexeme, hl, he⟩ := List.mem_map.1 hin
    refine ⟨lexeme, hl, congrArg Token.kind he, ?_⟩
    have htext : String.ofList lexeme.text = token.text := congrArg Token.text he
    rw [← htext, String.toList_ofList]
  · exfalso
    rw [← Token.kind_unplaced] at ho
    cases he : (scan directives trigraphs source).ending with
    | unclosed opener before rest =>
      rw [he] at hin
      contradiction
    | complete gap midLine =>
      rw [he, Ending.tokens] at hin
      rcases List.mem_append.1 hin with hin | hin
      · split at hin
        · rw [List.mem_singleton.1 hin] at ho
          contradiction
        · contradiction
      · rw [List.mem_singleton.1 hin] at ho
        contradiction

theorem mem_lex_of_lexFragment {file text : String} {tokens : List Token} {token : Token}
    (h : lexFragment file text = .ok tokens) (hm : token ∈ tokens) :
    token ∈ (lex false false file text).tokens := by
  rw [← (lexFragment_eq_ok_iff.1 h).2] at hm
  exact (List.mem_filter.1 hm).1

/-- The text of a scanned token is spelled as its class says, and its newlines are unified. -/
theorem spelled_of_mem_lex {directives trigraphs : Bool} {file source : String} {token : Token}
    (hm : token ∈ (lex directives trigraphs file source).tokens) (ho : token.kind.isOrdinary) :
    Spelled token.kind token.text.toList ∧ '\r' ∉ token.text.toList := by
  obtain ⟨lexeme, hl, hk, ht⟩ := exists_lexeme_of_mem_lex hm ho
  rw [← ht, ← hk]
  exact ⟨spelled_of_mem_divide hl (hk ▸ ho),
    fun hr => not_mem_phases _ _ (mem_of_mem_divide lexeme hl hr)⟩

end Lexeme

open Literal

variable {file : String} {body : List Char}

/-- A text that begins with a quote has no encoding. -/
theorem inQuotes_of_isLiteral (h : IsLiteral '"' ('"' :: (body ++ ['"']))) : InQuotes '"' body := by
  obtain ⟨encoding, he, inner, hi, hsplit⟩ := h
  simp only [encodings, List.mem_cons, List.not_mem_nil, or_false] at he
  rcases he with rfl | rfl | rfl | rfl | rfl
  · obtain rfl := List.append_cancel_right (List.cons.inj hsplit).2
    exact hi
  all_goals exact absurd (List.cons.inj hsplit).1 (by decide)

theorem inQuotes_of_lexFragment {token : Token}
    (h : lexFragment file (.ofList ('"' :: (body ++ ['"']))) = .ok [token])
    (hk : token.kind = .string) (ht : token.text = .ofList ('"' :: (body ++ ['"']))) :
    InQuotes '"' body := by
  have hm := mem_lex_of_lexFragment h List.mem_cons_self
  have hspelled := (spelled_of_mem_lex hm (hk ▸ rfl)).1
  rw [hk, ht, String.toList_ofList] at hspelled
  cases hspelled with
  | ofClass hc => exact inQuotes_of_isLiteral (isLiteral_of_string hc)

theorem inner_quoted (hr : '\r' ∉ body) (h : InQuotes '"' body) :
    ∀ c ∈ '"' :: (body ++ ['"']), Inner c := by
  intro c hm
  simp only [List.mem_cons, List.mem_append, List.not_mem_nil, or_false] at hm
  rcases hm with rfl | hm | rfl
  · decide
  · exact ⟨fun he => hr (he ▸ hm), fun he => not_mem_of_inQuotes h (he ▸ hm)⟩
  · decide

/-- A text that can stand between two quotes is one lexeme with them. -/
theorem scan_quoted (hr : '\r' ∉ body) (h : InQuotes '"' body) :
    scan false false (.ofList ('"' :: (body ++ ['"']))) =
      ⟨[⟨[], .string, '"' :: (body ++ ['"'])⟩], .complete [] true⟩ := by
  have hread : read false (.lineStart false) '"' (body ++ ['"']) =
      .lexeme .string ⟨'"' :: (body ++ ['"']), []⟩ := by
    have hopen : opening? ('"' :: (body ++ ['"'])) = some ⟨[], '"', body ++ ['"']⟩ :=
      opening?_eq_some List.mem_cons_self rfl _
    rw [read_fragment (plain_lineStart false) (by decide),
      readText_of_not_block fun _ => by decide, readLiteral, hopen]
    dsimp only
    rw [h.close rfl []]
    rfl
  rw [scan, String.toList_ofList, phases_of_inner (inner_quoted hr h),
    divide_cons (skip_of_cons rfl (by decide)) hread, divide_nil]
  rfl

/-- A text between two quotes is read again as one literal just if it can stand there. -/
theorem lexFragment_quoted_iff (hr : '\r' ∉ body) :
    (∃ token, lexFragment file (.ofList ('"' :: (body ++ ['"']))) = .ok [token] ∧
      token.kind = .string ∧ token.text = .ofList ('"' :: (body ++ ['"']))) ↔
      InQuotes '"' body := by
  constructor
  · rintro ⟨token, h, hk, ht⟩
    exact inQuotes_of_lexFragment h hk ht
  · intro h
    have hinner := inner_quoted hr h
    have hscan := scan_quoted hr h
    have hline : '\n' ∉ phases false (String.ofList ('"' :: (body ++ ['"']))).toList := by
      rw [String.toList_ofList, phases_of_inner hinner]
      exact fun hm => (hinner _ hm).2 rfl
    have hwords : (lex false false file _).words.map Token.unplaced = _ :=
      unplaced_words_of_inner hline
    rw [hscan] at hwords
    obtain ⟨token, hw, he⟩ := List.map_eq_singleton_iff.1 hwords
    refine ⟨token, lexFragment_eq_ok_iff.2 ⟨(issue_lex _ _ _ _).2 ?_, hw⟩, congrArg Token.kind he,
      congrArg Token.text he⟩
    rw [hscan]
    trivial

namespace Expansion

variable {argument : List Token}

/-- The kind and the text of the token come from the scanner. -/
def Delivered (token : Token) : Prop :=
  ∃ directives trigraphs file source, ∃ scanned ∈ (lex directives trigraphs file source).tokens,
    scanned.kind = token.kind ∧ scanned.text = token.text

/-- The literal for an argument is read as one token that stands for the argument just if no block
in it has a quote, a backslash or a newline. -/
theorem stringize_faithful_iff (hd : ∀ token ∈ argument, Delivered token)
    (ho : ∀ token ∈ argument, token.kind.isOrdinary) (hb : ∀ token ∈ argument, token.text ≠ "\\")
    (file : String) (operator : Token) :
    (∃ token, lexFragment file (stringize operator argument).text = .ok [token] ∧
        token.kind = .string ∧ token.text = (stringize operator argument).text) ∧
      unescape (argumentText argument) = (Token.render argument).toList ↔
    ∀ token ∈ argument, token.kind = .asmBlock → Verbatim token.text.toList := by
  have hspelled : ∀ token ∈ argument, Spelled token.kind token.text.toList ∧
      '\r' ∉ token.text.toList := by
    intro token hm
    obtain ⟨directives, trigraphs, name, source, scanned, hin, hk, ht⟩ := hd token hm
    rw [← hk, ← ht]
    exact spelled_of_mem_lex hin (hk ▸ ho token hm)
  have hlast : ∀ token ∈ argument, (literalText token).getLast? ≠ some '\\' :=
    fun token hm => getLast?_literalText (hspelled token hm).1 (hb token hm)
  have hreturn : '\r' ∉ argumentText argument := by
    intro hm
    rcases mem_of_mem_argumentText hm with hm | ⟨token, ht, hm⟩
    · exact absurd hm (by decide)
    · exact (hspelled token ht).2 hm
  unfold stringize
  dsimp only
  rw [lexFragment_quoted_iff hreturn, ← StandsFor, standsFor_argumentText_iff hlast]
  exact forall₂_congr fun token hm => standsFor_literalText_iff (hspelled token hm).1 (hb token hm)

/-- A literal with an escape, and a block that has no meaning of its own in a literal. -/
def plainBlock : List Token :=
  [{ kind := .string, text := "\"\\n\"", position := ⟨"<input>", 1, 1⟩ },
    { kind := .identifier, text := "asm", position := ⟨"<input>", 1, 6⟩, space := true },
    { kind := .asmBlock, text := "\x7b b \x7d", position := ⟨"<input>", 1, 10⟩, space := true }]

theorem stringize_faithful_plainBlock :
    (∀ token ∈ plainBlock, Delivered token) ∧ (∀ token ∈ plainBlock, token.kind.isOrdinary) ∧
      (∀ token ∈ plainBlock, token.text ≠ "\\") ∧
      (∃ token, lexFragment "<scratch>" (stringize default plainBlock).text = .ok [token] ∧
        token.kind = .string ∧ token.text = (stringize default plainBlock).text) ∧
      unescape (argumentText plainBlock) = (Token.render plainBlock).toList := by
  have hscanned : ∀ token ∈ plainBlock,
      token ∈ (lex false false "<input>" "\"\\n\" asm \x7b b \x7d").tokens := by decide +kernel
  have hd : ∀ token ∈ plainBlock, Delivered token :=
    fun token hm => ⟨_, _, _, _, token, hscanned token hm, rfl, rfl⟩
  have ho : ∀ token ∈ plainBlock, token.kind.isOrdinary := by decide
  have hb : ∀ token ∈ plainBlock, token.text ≠ "\\" := by decide
  have hverbatim : ∀ token ∈ plainBlock, token.kind = .asmBlock → Verbatim token.text.toList := by
    intro token hm hk
    simp only [plainBlock, List.mem_cons, List.not_mem_nil, or_false] at hm
    rcases hm with rfl | rfl | rfl
    · contradiction
    · contradiction
    · simp [Verbatim]
  exact ⟨hd, ho, hb, (stringize_faithful_iff hd ho hb "<scratch>" default).2 hverbatim⟩

end Expansion

end CPreprocessor

import CPreprocessor.Proofs.Lexeme.Front
import CPreprocessor.Proofs.Source.Phases
import CPreprocessor.Proofs.Token.Shape
import CPreprocessor.Token.Line
import Mathlib.Data.List.Induction

/-!
# Lines without their places

The tokens of a source are those of its logical text, wherever it stands; only their places tell
one file from another. Here the places are forgotten.

* `Token.unplaced`, `Line.unplaced`: what is left. `unplaced_lex`, `unplaced_lexFragment`: it does
  not depend on the file.
* `Passage`: a text that can stand between two lines of a file. `StandsAlone`: one that makes lines
  of its own there.
* `rows_append`: the lines of such a text and of what follows it are the lines of the whole.
-/

namespace CPreprocessor

open Source Lexeme

/-- No place in particular. -/
def nowhere : Position := ⟨"", 0, 0⟩

namespace Token

/-- The token with its place forgotten. -/
def unplaced (token : Token) : Token := { token with position := nowhere }

variable (token : Token)

@[simp] theorem kind_unplaced : token.unplaced.kind = token.kind := rfl

@[simp] theorem text_unplaced : token.unplaced.text = token.text := rfl

@[simp] theorem hide_unplaced : token.unplaced.hide = token.hide := rfl

@[simp] theorem space_unplaced : token.unplaced.space = token.space := rfl

@[simp] theorem position_unplaced : token.unplaced.position = nowhere := rfl

@[simp] theorem unplaced_unplaced : token.unplaced.unplaced = token.unplaced := rfl

@[simp] theorem isPunctuator_unplaced (text : String) :
    token.unplaced.isPunctuator text = token.isPunctuator text := rfl

@[simp] theorem isPaste_unplaced : token.unplaced.isPaste = token.isPaste := rfl

end Token

/-! ## The tokens of a logical text -/

/-- The token that a lexeme gives. -/
def Lexeme.token (lexeme : Lexeme) : Token :=
  { kind := lexeme.kind
    text := String.ofList lexeme.text
    position := nowhere
    space := !lexeme.gap.isEmpty }

/-- The tokens at the end of a text. -/
def Lexeme.Ending.tokens : Ending → List Token
  | complete gap midLine =>
    (if midLine then [{ kind := .newline, text := "\n", position := nowhere }] else []) ++
      [.endOfFile nowhere (!gap.isEmpty)]
  | unclosed _ _ _ => []

/-- The tokens of a text. -/
def Lexeme.Division.tokens (division : Division) : List Token :=
  division.lexemes.map Lexeme.token ++ division.ending.tokens

/-- The division of the logical text of a source. -/
def scan (directives trigraphs : Bool) (source : String) : Division :=
  divide directives (.lineStart false) (phases trigraphs source.toList)

theorem Lexed.unplaced_locate (file : String) (finish : Nat × Nat) (ending : Ending)
    (chars : List Located) (lexemes : List Lexeme) :
    (locate file finish ending chars lexemes).tokens.map Token.unplaced =
        lexemes.map Lexeme.token ++ ending.tokens ∧
      ((locate file finish ending chars lexemes).issue = none ↔ ending.IsComplete) := by
  induction lexemes generalizing chars with
  | nil =>
    cases ending with
    | complete gap midLine =>
      refine ⟨?_, iff_of_true rfl trivial⟩
      cases midLine <;> rfl
    | unclosed opener before rest => exact ⟨rfl, iff_of_false nofun nofun⟩
  | cons lexeme lexemes ih =>
    obtain ⟨ht, hi⟩ := ih ((chars.drop lexeme.gap.length).drop lexeme.text.length)
    exact ⟨congrArg (lexeme.token :: ·) ht, hi⟩

/-- The tokens of a source are those of its logical text. -/
theorem unplaced_lex (directives trigraphs : Bool) (file source : String) :
    (lex directives trigraphs file source).tokens.map Token.unplaced =
      (scan directives trigraphs source).tokens := by
  unfold lex scan
  dsimp only
  rw [(Lexed.unplaced_locate _ _ _ _ _).1, map_char_splice]
  rfl

theorem issue_lex (directives trigraphs : Bool) (file source : String) :
    (lex directives trigraphs file source).issue = none ↔
      (scan directives trigraphs source).ending.IsComplete := by
  unfold lex scan
  dsimp only
  rw [(Lexed.unplaced_locate _ _ _ _ _).2, map_char_splice]

/-- The tokens of a fragment do not depend on the file that they are taken to stand in. -/
theorem unplaced_lexFragment (file other text : String) :
    (lexFragment file text).toOption.map (List.map Token.unplaced) =
      (lexFragment other text).toOption.map (List.map Token.unplaced) := by
  have hissue (file : String) := issue_lex false false file text
  have htokens (file : String) := unplaced_lex false false file text
  unfold lexFragment
  dsimp only
  by_cases hc : (scan false false text).ending.IsComplete
  · rw [(hissue file).2 hc, (hissue other).2 hc]
    refine congrArg some ?_
    have hkept (tokens : List Token) :
        (tokens.filter fun token => token.kind ≠ .newline && token.kind ≠ .endOfFile).map
            Token.unplaced =
          (tokens.map Token.unplaced).filter fun token =>
            token.kind ≠ .newline && token.kind ≠ .endOfFile := by
      rw [List.filter_map]
      rfl
    rw [hkept, hkept, htokens file, htokens other]
  · obtain ⟨issue, hi⟩ := Option.ne_none_iff_exists'.1 (mt (hissue file).1 hc)
    obtain ⟨issue', hi'⟩ := Option.ne_none_iff_exists'.1 (mt (hissue other).1 hc)
    rw [hi, hi']
    rfl

/-! ## Lines -/

/-- The tokens of a line without their places. -/
def Line.unplaced (line : Line) : List Token := line.tokens.map Token.unplaced

/-- The tokens of the lines of a source. -/
def rows (trigraphs : Bool) (source : String) : List (List Token) :=
  (Lines.ofTokens (scan true trigraphs source).tokens).lines.map Line.tokens

namespace Lines

theorem divideFrom_unplaced (current tokens : List Token) :
    (divideFrom (current.map Token.unplaced) (tokens.map Token.unplaced)).lines.map Line.tokens =
      (divideFrom current tokens).lines.map Line.unplaced := by
  induction tokens generalizing current with
  | nil => rfl
  | cons token rest ih =>
    rw [List.map_cons, divideFrom, divideFrom, Token.kind_unplaced]
    split
    · exact congrArg (current.map Token.unplaced :: ·) (ih [])
    · rfl
    · rw [← ih, List.map_append]
      rfl

/-- Tokens that end with a newline make lines of their own, whatever stands behind them. -/
theorem divideFrom_append {current tokens : List Token} (hs : tokens = [] → current = [])
    (he : ∀ token ∈ tokens, token.kind ≠ .endOfFile)
    (hn : ∀ last ∈ tokens.getLast?, last.kind = .newline) (stop : Token)
    (hk : stop.kind = .endOfFile) (behind : List Token) :
    (divideFrom current (tokens ++ behind)).lines =
      (divideFrom current (tokens ++ [stop])).lines ++ (divideFrom [] behind).lines := by
  induction tokens generalizing current with
  | nil =>
    obtain rfl := hs rfl
    simp only [List.nil_append, divideFrom, hk]
  | cons token rest ih =>
    have hrest : ∀ token ∈ rest, token.kind ≠ .endOfFile :=
      fun t ht => he t (List.mem_cons_of_mem _ ht)
    have hlast : ∀ last ∈ rest.getLast?, last.kind = .newline := by
      intro last hl
      refine hn last ?_
      rw [List.getLast?_cons, Option.mem_def.1 hl]
      rfl
    rw [List.cons_append, List.cons_append, divideFrom, divideFrom]
    split
    · exact congrArg (Line.mk current token.position :: ·) (ih (fun _ => rfl) hrest hlast)
    · next h => exact absurd h (he token List.mem_cons_self)
    · next h _ =>
      refine ih (fun hr => ?_) hrest hlast
      subst hr
      exact absurd (hn token rfl) h

end Lines

/-- The lines of a source are those of its logical text. -/
theorem unplaced_ofTokens (trigraphs : Bool) (file source : String) :
    (Lines.ofTokens (lex true trigraphs file source).tokens).lines.map Line.unplaced =
      rows trigraphs source := by
  rw [rows, ← unplaced_lex true trigraphs file source]
  exact (Lines.divideFrom_unplaced [] _).symm

/-! ## Passages -/

/-- An identifier behind which braces enclose assembly text. -/
def Token.IsAsm (token : Token) : Prop :=
  token.kind = .identifier ∧ token.text ∈ asmKeywords

instance (token : Token) : Decidable token.IsAsm := inferInstanceAs (Decidable (_ ∧ _))

/-- The tokens of a file, newlines and its end aside. -/
def Lexed.words (lexed : Lexed) : List Token :=
  lexed.tokens.filter fun token => token.kind ≠ .newline && token.kind ≠ .endOfFile

/-- A text that can stand between two lines of a file: it ends with a newline that is not spliced
away, or is empty, leaves nothing open, and braces behind it enclose no assembly text. -/
structure Passage (trigraphs : Bool) (file source : String) : Prop where
  terminated : Terminated source.toList
  closed : Closed (phases trigraphs source.toList)
  complete : (lex true trigraphs file source).issue = none
  plain : ∀ last ∈ (lex true trigraphs file source).words.getLast?, ¬last.IsAsm

namespace Lexeme

theorem Context.behind_concat (context : Context) (lexemes : List Lexeme) (last : Lexeme) :
    context.behind (lexemes ++ [last]) = (context.behind lexemes).next last.kind last.text := by
  rw [behind, List.foldl_append]
  rfl

/-- Braces enclose assembly text only where the last lexeme, newlines aside, is an asm keyword. -/
theorem Context.isAsm_of_afterAsm {lexemes : List Lexeme}
    (h : ((Context.lineStart false).behind lexemes).afterAsm) :
    ∃ last ∈ (lexemes.filter (·.kind ≠ .newline)).getLast?, last.token.IsAsm := by
  induction lexemes using List.reverseRecOn with
  | nil => contradiction
  | append_singleton lexemes last ih =>
    rw [behind_concat] at h
    rw [List.filter_append]
    by_cases hk : last.kind = .newline
    · rw [hk] at h
      rw [List.filter_cons_of_neg (by simp [hk]), List.filter_nil, List.append_nil]
      exact ih h
    · rw [List.filter_cons_of_pos (by simp [hk]), List.filter_nil, List.getLast?_concat]
      refine ⟨last, rfl, ?_⟩
      obtain ⟨gap, kind, text⟩ := last
      cases kind with
      | newline => contradiction
      | directiveHash => contradiction
      | identifier =>
        refine ⟨rfl, ?_⟩
        show String.ofList text ∈ asmKeywords
        cases hc : (lineStart false).behind lexemes <;> rw [hc] at h
        case lineStart | text => simpa [Context.next, afterAsm] using h
        case keyword =>
          dsimp only [Context.next] at h
          split at h <;> contradiction
        all_goals contradiction
      | _ => cases hc : (lineStart false).behind lexemes <;> rw [hc] at h <;> contradiction

/-- Behind a newline a line starts, and braces are ordinary there unless an asm keyword is the last
lexeme before. -/
theorem Context.behind_eq {lexemes : List Lexeme}
    (hn : ∀ last ∈ lexemes.getLast?, last.kind = .newline)
    (ha : ∀ last ∈ (lexemes.filter (·.kind ≠ .newline)).getLast?, ¬last.token.IsAsm) :
    (Context.lineStart false).behind lexemes = .lineStart false := by
  have hafter : ((Context.lineStart false).behind lexemes).afterAsm = false := by
    by_contra h
    obtain ⟨last, hm, hasm⟩ := isAsm_of_afterAsm (eq_true_of_ne_false h)
    exact ha last hm hasm
  induction lexemes using List.reverseRecOn with
  | nil => rfl
  | append_singleton lexemes last _ =>
    have hk := hn last List.getLast?_concat
    rw [behind_concat, hk] at hafter ⊢
    exact congrArg lineStart hafter

theorem kind_ne_of_mem_divide {directives : Bool} {context : Context} {chars : List Char} :
    ∀ lexeme ∈ (divide directives context chars).lexemes, lexeme.kind ≠ .endOfFile := by
  fun_induction divide directives context chars with
  | case1 | case2 | case3 =>
    intro lexeme hm
    contradiction
  | case4 context chars gap c rest _ kind cut hr ih =>
    intro lexeme hm
    rcases List.mem_cons.1 hm with rfl | hm
    · exact (admits_read hr).inner
    · exact ih lexeme hm

end Lexeme

/-- The words of a source are its lexemes but for the newlines. -/
theorem unplaced_words (directives trigraphs : Bool) (file source : String) :
    (lex directives trigraphs file source).words.map Token.unplaced =
      ((scan directives trigraphs source).lexemes.filter (·.kind ≠ .newline)).map Lexeme.token := by
  let isWord (token : Token) : Bool := token.kind ≠ .newline && token.kind ≠ .endOfFile
  have hwords : (lex directives trigraphs file source).words.map Token.unplaced =
      (scan directives trigraphs source).tokens.filter isWord := by
    rw [← unplaced_lex directives trigraphs file source, List.filter_map]
    rfl
  have hending (ending : Ending) : ending.tokens.filter isWord = [] := by
    cases ending with
    | complete gap midLine => cases midLine <;> rfl
    | unclosed opener before rest => rfl
  have hlexeme : ∀ lexeme ∈ (scan directives trigraphs source).lexemes,
      (isWord ∘ Lexeme.token) lexeme = decide (lexeme.kind ≠ .newline) := by
    intro lexeme hm
    have hk : lexeme.token.kind ≠ .endOfFile := kind_ne_of_mem_divide lexeme hm
    show (decide _ && decide _) = _
    rw [decide_eq_true hk, Bool.and_true]
    rfl
  rw [hwords, Division.tokens, List.filter_append, hending, List.append_nil, List.filter_map,
    List.filter_congr hlexeme]

/-- The words of a text on one line are its lexemes. -/
theorem unplaced_words_of_inner {file text : String} (h : '\n' ∉ phases false text.toList) :
    (lex false false file text).words.map Token.unplaced =
      (scan false false text).lexemes.map Lexeme.token := by
  rw [unplaced_words]
  congr 1
  refine List.filter_eq_self.2 fun lexeme hm => decide_eq_true fun hk => h ?_
  have ht : lexeme.text = ['\n'] := newline_of_mem_divide lexeme hm hk
  exact mem_of_mem_divide lexeme hm (ht ▸ List.mem_cons_self)

theorem lexFragment_eq_ok_iff {file text : String} {tokens : List Token} :
    lexFragment file text = .ok tokens ↔
      (lex false false file text).issue = none ∧ (lex false false file text).words = tokens := by
  unfold lexFragment Lexed.words
  dsimp only
  cases (lex false false file text).issue with
  | some issue => simp
  | none => simp

/-- A text that makes lines of its own, whatever stands behind it. -/
structure StandsAlone (trigraphs : Bool) (source : String) : Prop where
  terminated : Terminated source.toList
  closed : Closed (phases trigraphs source.toList)
  complete : (scan true trigraphs source).ending.IsComplete
  start : (Context.lineStart false).behind (scan true trigraphs source).lexemes = .lineStart false

theorem Passage.standsAlone {trigraphs : Bool} {file source : String}
    (h : Passage trigraphs file source) : StandsAlone trigraphs source := by
  have hc := (issue_lex true trigraphs file source).1 h.complete
  refine ⟨h.terminated, h.closed, hc, ?_⟩
  refine Context.behind_eq (newline_of_mem_getLast? h.closed hc) fun last hl => ?_
  have hw : ((lex true trigraphs file source).words.map Token.unplaced).getLast? =
      some last.token := by
    rw [unplaced_words, List.getLast?_map, Option.mem_def.1 hl]
    rfl
  rw [List.getLast?_map] at hw
  obtain ⟨word, hm, he⟩ := Option.map_eq_some_iff.1 hw
  rw [← he]
  exact h.plain word hm

/-- A text that stands alone ends with nothing but the end of the file. -/
theorem StandsAlone.tokens {trigraphs : Bool} {source : String}
    (h : StandsAlone trigraphs source) : ∃ space, (scan true trigraphs source).tokens =
      (scan true trigraphs source).lexemes.map Lexeme.token ++ [.endOfFile nowhere space] := by
  obtain ⟨gap, he⟩ := ending_eq h.complete
  have hs := h.start
  refine ⟨!gap.isEmpty, ?_⟩
  unfold Division.tokens
  unfold scan at hs ⊢
  rw [he, hs]
  rfl

/-- The lines of a text that stands alone and of what follows it are the lines of the whole, but for
a line terminator that is cut in two between them and is a line of its own behind the cut. -/
theorem rows_append {trigraphs : Bool} {left : String} (h : StandsAlone trigraphs left)
    (right : String) :
    ∃ behind, rows trigraphs (left ++ right) = rows trigraphs left ++ behind ∧
      (rows trigraphs right = behind ∨ rows trigraphs right = [] :: behind) := by
  obtain ⟨rest, hp, hr⟩ := phases_append trigraphs h.terminated right.toList
  let division := divide true (.lineStart false) rest
  have htokens : (scan true trigraphs (left ++ right)).tokens =
      (scan true trigraphs left).lexemes.map Lexeme.token ++ division.tokens := by
    have hs := h.start
    unfold scan at hs ⊢
    rw [String.toList_append, hp, divide_append h.closed h.complete, hs]
    simp [Division.tokens, division, List.map_append]
  obtain ⟨space, hleft⟩ := h.tokens
  have hlast : ∀ last ∈ ((scan true trigraphs left).lexemes.map Lexeme.token).getLast?,
      last.kind = .newline := by
    intro last hl
    rw [List.getLast?_map] at hl
    obtain ⟨lexeme, hm, rfl⟩ := Option.map_eq_some_iff.1 hl
    exact newline_of_mem_getLast? h.closed h.complete lexeme hm
  have hinner : ∀ token ∈ (scan true trigraphs left).lexemes.map Lexeme.token,
      token.kind ≠ .endOfFile := by
    intro token hm
    obtain ⟨lexeme, hl, rfl⟩ := List.mem_map.1 hm
    exact kind_ne_of_mem_divide lexeme hl
  have hwhole : rows trigraphs (left ++ right) =
      rows trigraphs left ++ (Lines.ofTokens division.tokens).lines.map Line.tokens := by
    rw [rows, rows, htokens, hleft, ← List.map_append]
    exact congrArg (List.map Line.tokens)
      (Lines.divideFrom_append (fun _ => rfl) hinner hlast _ rfl division.tokens)
  refine ⟨_, hwhole, hr.imp (fun hr => ?_) fun hr => ?_⟩
  · rw [rows, scan, hr]
  · have hread : read true (.lineStart false) '\n' rest = .lexeme .newline ⟨['\n'], rest⟩ := rfl
    have hskip : skip ('\n' :: rest) = .skipped [] ('\n' :: rest) :=
      skip_lineEnd fun _ hc => (Option.some.inj hc).symm
    rw [rows, scan, hr, divide_cons hskip hread]
    rfl

end CPreprocessor

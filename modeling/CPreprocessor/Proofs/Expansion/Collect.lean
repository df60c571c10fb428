import CPreprocessor.Proofs.Expansion.Stream

/-!
# The parenthesis that ends a call

Reading arguments goes up to the parenthesis that matches the opening one, and gives one argument
more than there are commas outside of inner parentheses.

* `Encloses tokens read closing behind`: behind an opening parenthesis stand the tokens `read`, in
  which all parentheses match, and then the parenthesis that closes it. `Encloses.unique`: there is
  only one such place.
* `markCommas`, `cutAtCommas`: the commas outside of inner parentheses, and what stands between
  them. `collect_eq_cut`: these are the arguments.
* `collect_of_encloses`, `encloses_of_collect`: the arguments are read up to there, and are not
  read where there is no such place.
* `bindArguments_eq_error_iff`: what has been read is refused for the number of arguments only.
-/

namespace CPreprocessor.Expansion

open Macro

variable {depth : Nat} {tokens read behind : List Token} {closing : Token}

/-! ## Parentheses that match -/

/-- How many parentheses are open behind some tokens if `depth` are before them. There is no
answer if one is closed that was not open, or if the file ends. -/
def openBehind : (depth : Nat) → List Token → Option Nat
  | depth, [] => some depth
  | depth, token :: rest =>
    if token.kind = .endOfFile then none
    else if token.isPunctuator "(" then openBehind (depth + 1) rest
    else if token.isPunctuator ")" then
      match depth with
      | 0 => none
      | depth + 1 => openBehind depth rest
    else openBehind depth rest

/-- How many commas stand outside of inner parentheses, if `depth` of these are open before. -/
def separators : (depth : Nat) → List Token → Nat
  | _, [] => 0
  | depth, token :: rest =>
    if token.isPunctuator "(" then separators (depth + 1) rest
    else if token.isPunctuator ")" then separators (depth - 1) rest
    else if token.isPunctuator "," && depth = 0 then separators depth rest + 1
    else separators depth rest

/-- Tokens, each with whether it is a comma outside of inner parentheses. Of these, `depth` are
open before. -/
def markCommas : (depth : Nat) → List Token → List (Token × Bool)
  | _, [] => []
  | depth, token :: rest =>
    if token.isPunctuator "(" then (token, false) :: markCommas (depth + 1) rest
    else if token.isPunctuator ")" then (token, false) :: markCommas (depth - 1) rest
    else (token, token.isPunctuator "," && depth = 0) :: markCommas depth rest

/-- The tokens in front of the first comma that is marked, and those between it and the others. -/
def cutAtCommas : List (Token × Bool) → List Token × List (List Token)
  | [] => ([], [])
  | (token, marked) :: rest =>
    if marked then ([], (cutAtCommas rest).1 :: (cutAtCommas rest).2)
    else (token :: (cutAtCommas rest).1, (cutAtCommas rest).2)

/-- Behind an opening parenthesis stand the tokens `read`, whose parentheses match, then the
parenthesis that closes it, and then the tokens `behind`. -/
structure Encloses (tokens read : List Token) (closing : Token) (behind : List Token) : Prop where
  split : tokens = read ++ closing :: behind
  matched : openBehind 0 read = some 0
  closing : closing.isPunctuator ")"

instance (tokens read : List Token) (closing : Token) (behind : List Token) :
    Decidable (Encloses tokens read closing behind) :=
  decidable_of_iff (_ ∧ _ ∧ _)
    ⟨fun h => ⟨h.1, h.2.1, h.2.2⟩, fun h => ⟨h.split, h.matched, h.closing⟩⟩

/-! ## Commas between arguments -/

theorem map_fst_markCommas (depth : Nat) (tokens : List Token) :
    (markCommas depth tokens).map Prod.fst = tokens := by
  fun_induction markCommas depth tokens with
  | case1 => rfl
  | case2 depth token rest _ ih => rw [List.map_cons, ih]
  | case3 depth token rest _ _ ih => rw [List.map_cons, ih]
  | case4 depth token rest _ _ ih => rw [List.map_cons, ih]

theorem markCommas_eq_nil_iff (depth : Nat) (tokens : List Token) :
    markCommas depth tokens = [] ↔ tokens = [] := by
  rw [← List.map_eq_nil_iff, map_fst_markCommas]

theorem length_cutAtCommas (depth : Nat) (tokens : List Token) :
    (cutAtCommas (markCommas depth tokens)).2.length = separators depth tokens := by
  fun_induction separators depth tokens with
  | case1 => rfl
  | case2 depth token rest ho ih => rwa [markCommas, if_pos ho]
  | case3 depth token rest ho hp ih => rwa [markCommas, if_neg ho, if_pos hp]
  | case4 depth token rest ho hp hs ih =>
    rw [markCommas, if_neg ho, if_neg hp, hs, ← ih]
    rfl
  | case5 depth token rest ho hp hs ih =>
    rw [markCommas, if_neg ho, if_neg hp, Bool.eq_false_iff.2 hs, ← ih]
    rfl

/-- Nothing is cut to one argument without tokens. -/
theorem cutAtCommas_eq_nil_iff {entries : List (Token × Bool)} :
    (cutAtCommas entries).1 :: (cutAtCommas entries).2 = [[]] ↔ entries = [] := by
  cases entries with
  | nil => exact iff_of_true rfl rfl
  | cons entry entries =>
    obtain ⟨token, marked⟩ := entry
    cases marked <;> simp [cutAtCommas]

/-! ## Reading arguments -/

namespace Collected

theorem closed_of_add {token : Token} {collected : Collected} {first rest : List Token}
    {others : List (List Token)} (h : collected.add token = closed first others closing rest) :
    ∃ first others, collected = closed first others closing rest := by
  cases collected with
  | closed first' others' closing' rest' =>
    obtain ⟨-, -, rfl, rfl⟩ := closed.inj h
    exact ⟨_, _, rfl⟩
  | ended | exhausted => contradiction

theorem closed_of_separate {collected : Collected} {first rest : List Token}
    {others : List (List Token)} (h : collected.separate = closed first others closing rest) :
    ∃ first others, collected = closed first others closing rest := by
  cases collected with
  | closed first' others' closing' rest' =>
    obtain ⟨-, -, rfl, rfl⟩ := closed.inj h
    exact ⟨_, _, rfl⟩
  | ended | exhausted => contradiction

end Collected

theorem collect_closing (hc : closing.isPunctuator ")") (behind : List Token) :
    collect 0 (closing :: behind) = .closed [] [] closing behind := by
  have he : closing.kind ≠ .endOfFile := by simp [Token.kind_of_isPunctuator hc]
  have ho : ¬closing.isPunctuator "(" := fun ho =>
    absurd (Token.eq_of_isPunctuator hc ho) (by decide)
  simp [collect, he, ho, hc]

/-- Arguments are read up to the parenthesis that closes those open before them, and are cut apart
at the commas between them. -/
theorem collect_eq_cut (h : openBehind depth read = some 0) (hc : closing.isPunctuator ")")
    (behind : List Token) :
    collect depth (read ++ closing :: behind) =
      .closed (cutAtCommas (markCommas depth read)).1 (cutAtCommas (markCommas depth read)).2
        closing behind := by
  fun_induction openBehind depth read with
  | case1 depth =>
    obtain rfl := Option.some.inj h
    exact collect_closing hc behind
  | case2 | case4 => contradiction
  | case3 depth token rest he ho ih =>
    rw [List.cons_append, collect.eq_def, markCommas, if_pos ho]
    simp only [if_neg he, if_pos ho, ih h]
    rfl
  | case5 token rest he ho hp depth ih =>
    rw [List.cons_append, collect.eq_def, markCommas, if_neg ho, if_pos hp]
    simp only [if_neg he, if_neg ho, if_pos hp, ih h]
    rfl
  | case6 depth token rest he ho hp ih =>
    rw [List.cons_append, collect.eq_def, markCommas, if_neg ho, if_neg hp]
    simp only [if_neg he, if_neg ho, if_neg hp, ih h]
    cases token.isPunctuator "," && decide (depth = 0) with
    | true => rfl
    | false => rfl

/-- There is one more argument than commas between them. -/
theorem collect_of_openBehind (h : openBehind depth read = some 0)
    (hc : closing.isPunctuator ")") (behind : List Token) :
    ∃ first others,
      collect depth (read ++ closing :: behind) = .closed first others closing behind ∧
      others.length = separators depth read ∧ (first :: others = [[]] ↔ read = []) :=
  ⟨_, _, collect_eq_cut h hc behind, length_cutAtCommas depth read,
    cutAtCommas_eq_nil_iff.trans (markCommas_eq_nil_iff depth read)⟩

/-- Reading arguments ends at a closing parenthesis behind which none is open. -/
theorem openBehind_of_collect {first rest : List Token} {others : List (List Token)}
    (h : collect depth tokens = .closed first others closing rest) :
    ∃ read, tokens = read ++ closing :: rest ∧ openBehind depth read = some 0 ∧
      closing.isPunctuator ")" := by
  fun_induction collect depth tokens generalizing first others with
  | case1 | case2 => contradiction
  | case3 depth token tail he ho ih =>
    obtain ⟨first, others, hr⟩ := Collected.closed_of_add h
    obtain ⟨read, rfl, hd, hc⟩ := ih hr
    refine ⟨token :: read, rfl, ?_, hc⟩
    simp only [openBehind, if_neg he, if_pos ho, hd]
  | case4 token tail he ho hp =>
    obtain ⟨-, -, rfl, rfl⟩ := Collected.closed.inj h
    exact ⟨[], rfl, rfl, hp⟩
  | case5 token tail he ho hp depth ih =>
    obtain ⟨first, others, hr⟩ := Collected.closed_of_add h
    obtain ⟨read, rfl, hd, hc⟩ := ih hr
    refine ⟨token :: read, rfl, ?_, hc⟩
    simp only [openBehind, if_neg he, if_neg ho, if_pos hp, hd]
  | case6 depth token tail he ho hp hs ih =>
    obtain ⟨first, others, hr⟩ := Collected.closed_of_separate h
    obtain ⟨read, rfl, hd, hc⟩ := ih hr
    refine ⟨token :: read, rfl, ?_, hc⟩
    simp only [openBehind, if_neg he, if_neg ho, if_neg hp, hd]
  | case7 depth token tail he ho hp hs ih =>
    obtain ⟨first, others, hr⟩ := Collected.closed_of_add h
    obtain ⟨read, rfl, hd, hc⟩ := ih hr
    refine ⟨token :: read, rfl, ?_, hc⟩
    simp only [openBehind, if_neg he, if_neg ho, if_neg hp, hd]

/-- Arguments that are read end at the matching parenthesis. -/
theorem encloses_of_collect {first : List Token} {others : List (List Token)}
    (h : collect 0 tokens = .closed first others closing behind) :
    ∃ read, Encloses tokens read closing behind := by
  obtain ⟨read, hs, hm, hc⟩ := openBehind_of_collect h
  exact ⟨read, hs, hm, hc⟩

/-- Arguments are read up to the matching parenthesis. -/
theorem collect_of_encloses (h : Encloses tokens read closing behind) :
    ∃ first others, collect 0 tokens = .closed first others closing behind ∧
      others.length = separators 0 read ∧ (first :: others = [[]] ↔ read = []) := by
  rw [h.split]
  exact collect_of_openBehind h.matched h.closing behind

theorem Encloses.unique {read' behind' : List Token} {closing' : Token}
    (h : Encloses tokens read closing behind) (h' : Encloses tokens read' closing' behind') :
    read = read' ∧ closing = closing' ∧ behind = behind' := by
  obtain ⟨_, _, hc, -, -⟩ := collect_of_encloses h
  obtain ⟨_, _, hc', -, -⟩ := collect_of_encloses h'
  obtain ⟨-, -, rfl, rfl⟩ := Collected.closed.inj (hc.symm.trans hc')
  exact ⟨List.append_cancel_right (h.split.symm.trans h'.split), rfl, rfl⟩

/-! ## The number of arguments -/

/-- How many arguments the tokens between two parentheses give. Where nothing stands there, a macro
that names no parameters is given none, and any other one an empty argument. -/
def argumentsIn (parameters : Parameters) (read : List Token) : Nat :=
  if parameters.names = [] ∧ read = [] then 0 else separators 0 read + 1

/-- Whether a macro takes so many arguments. -/
def Takes (parameters : Parameters) (count : Nat) : Prop :=
  if parameters.variadic then parameters.names.length ≤ count else count = parameters.names.length

instance (parameters : Parameters) (count : Nat) : Decidable (Takes parameters count) :=
  inferInstanceAs (Decidable (if parameters.variadic then parameters.names.length ≤ count
    else count = parameters.names.length))

theorem length_givenArguments {parameters : Parameters} {first : List Token}
    {others : List (List Token)} (hl : others.length = separators 0 read)
    (hn : first :: others = [[]] ↔ read = []) :
    (givenArguments parameters (first :: others)).length = argumentsIn parameters read := by
  unfold givenArguments argumentsIn
  by_cases he : parameters.names = [] ∧ read = []
  · rw [if_pos he, if_pos (by simp [he.1, hn.2 he.2]), List.length_nil]
  · rw [if_neg he, if_neg, List.length_cons, hl]
    simpa [hn] using he

/-- Arguments are refused for their number only. -/
theorem bindArguments_eq_error_iff {name : String} {parameters : Parameters} {position : Position}
    {arguments : List (List Token)} {fault : Fault} :
    bindArguments name parameters position arguments = .error fault ↔
      ¬Takes parameters (givenArguments parameters arguments).length ∧
        fault = .argumentCount name parameters.variadic parameters.names.length
          (givenArguments parameters arguments).length := by
  unfold bindArguments Takes
  dsimp only
  cases parameters.variadic with
  | true =>
    simp only [if_true, Nat.not_le]
    split
    · next h => simp [h, eq_comm]
    · next h => simp [h]
  | false =>
    simp only [Bool.false_eq_true, if_false]
    split
    · next h => simp [h, eq_comm]
    · next h => simp [h]

/-! ## Calls within a call that is not closed -/

/-- No parenthesis matches the one before these tokens. -/
def Unclosed (tokens : List Token) : Prop :=
  ∀ read closing behind, ¬Encloses tokens read closing behind

/-- Whether the arguments have been read to their end. -/
def Collected.isClosed : Collected → Bool
  | closed .. => true
  | ended | exhausted => false

theorem unclosed_iff : Unclosed tokens ↔ (collect 0 tokens).isClosed = false := by
  constructor
  · intro h
    cases hc : collect 0 tokens with
    | closed first others closing behind =>
      obtain ⟨read, he⟩ := encloses_of_collect hc
      exact absurd he (h _ _ _)
    | ended | exhausted => rfl
  · intro h read closing behind he
    obtain ⟨first, others, hc, -, -⟩ := collect_of_encloses he
    rw [hc] at h
    contradiction

end CPreprocessor.Expansion

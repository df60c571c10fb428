import CPreprocessor.Expansion.Substitution
import CPreprocessor.Macro.Table

/-!
# Why rescanning ends

Names that can still be expanded are counted along the tokens to come. A name is exposed at a token
if some name or closing parenthesis up to there does not hide it, and the level of a token is the
number of exposed macro names. A replacement hides its macro and all that was hidden at every token
of the call, so its tokens lie below the level reached at the end of the call, while no token
behind it rises. Counting the tokens from each level upwards, the highest level first, gives a
sequence of numbers that becomes less in the lexicographic order.

- `weigh_tail`: dropping the first token makes it less.
- `weigh_thins`: so does taking an argument of a call for the call.
- `weigh_replace`: so does replacing a call.
-/

namespace CPreprocessor.Expansion

open Macro

/-! ## Sequences of numbers in lexicographic order -/

/-- A sequence of `n + 1` numbers, the most significant one first. -/
def Weights : Nat → Type
  | 0 => Nat
  | n + 1 => Nat × Weights n

namespace Weights

/-- The lexicographic order. -/
instance order : (n : Nat) → WellFoundedRelation (Weights n)
  | 0 => inferInstanceAs (WellFoundedRelation Nat)
  | n + 1 => @Prod.instWellFoundedRelation Nat (Weights n) inferInstance (order n)

/-- The values of `f` from `n` down to zero. -/
def ofFunction (f : Nat → Nat) : (n : Nat) → Weights n
  | 0 => f 0
  | n + 1 => (f (n + 1), ofFunction f n)

theorem ofFunction_lt {f g : Nat → Nat} {n : Nat} (place : Nat) (bound : place ≤ n)
    (less : f place < g place) (above : ∀ q, place < q → f q ≤ g q) :
    WellFoundedRelation.rel (ofFunction f n) (ofFunction g n) := by
  induction n with
  | zero =>
    obtain rfl := Nat.le_zero.1 bound
    exact less
  | succ n ih =>
    change Prod.Lex _ _ (f (n + 1), ofFunction f n) (g (n + 1), ofFunction g n)
    rcases Nat.lt_or_eq_of_le bound with below | rfl
    · rcases Nat.lt_or_eq_of_le (above (n + 1) below) with smaller | same
      · exact .left _ _ smaller
      · rw [same]
        exact .right _ (ih (Nat.lt_succ_iff.1 below))
    · exact .left _ _ less

end Weights

/-! ## Exposed names and levels -/

/-- The names that are exposed behind a token, given those exposed before it. -/
def expose (exposed : String → Bool) (token : Token) : String → Bool :=
  fun name => exposed name || (isGuard token && !decide (name ∈ token.hide))

/-- The names exposed behind several tokens. -/
def exposeAll (exposed : String → Bool) (tokens : List Token) : String → Bool :=
  tokens.foldl expose exposed

/-- The number of exposed names. -/
def level (names : List String) (exposed : String → Bool) : Nat := names.countP exposed

/-- The number of tokens at level `q` and above. -/
def countFrom (names : List String) (q : Nat) : (String → Bool) → List Token → Nat
  | _, [] => 0
  | exposed, token :: rest =>
    (if q ≤ level names (expose exposed token) then 1 else 0) +
      countFrom names q (expose exposed token) rest

theorem level_mono {names : List String} {few many : String → Bool}
    (h : ∀ name, few name → many name) : level names few ≤ level names many :=
  List.countP_mono_left fun name _ => h name

theorem level_lt {names : List String} {few many : String → Bool} {name : String}
    (h : ∀ name, few name → many name) (member : name ∈ names) (exposed : many name)
    (hidden : few name = false) : level names few < level names many := by
  unfold level
  induction names with
  | nil => contradiction
  | cons head tail ih =>
    have rest := List.countP_mono_left (l := tail) fun other _ => h other
    rcases List.mem_cons.1 member with rfl | later
    · rw [List.countP_cons_of_neg (by simp [hidden]), List.countP_cons_of_pos exposed]
      omega
    · have inner := ih later
      by_cases first : few head
      · rw [List.countP_cons_of_pos first, List.countP_cons_of_pos (h head first)]
        omega
      · have step := List.countP_cons (p := many) (a := head) (l := tail)
        rw [List.countP_cons_of_neg first]
        omega

theorem expose_mono {few many : String → Bool} (h : ∀ name, few name → many name)
    (token : Token) (name : String) (exposed : expose few token name) :
    expose many token name := by
  simp only [expose, Bool.or_eq_true] at exposed ⊢
  exact exposed.imp_left (h name)

theorem expose_le (exposed : String → Bool) (token : Token) (name : String) (h : exposed name) :
    expose exposed token name := by
  simp [expose, h]

theorem exposeAll_iff {exposed : String → Bool} {tokens : List Token} {name : String} :
    exposeAll exposed tokens name ↔
      exposed name ∨ ∃ token ∈ tokens, isGuard token ∧ name ∉ token.hide := by
  induction tokens generalizing exposed with
  | nil => simp [exposeAll]
  | cons token rest ih =>
    change exposeAll (expose exposed token) rest name ↔ _
    rw [ih]
    simp only [expose, Bool.or_eq_true, Bool.and_eq_true, Bool.not_eq_true',
      decide_eq_false_iff_not, List.mem_cons, exists_eq_or_imp, or_assoc]

theorem countFrom_append (names : List String) (q : Nat) (exposed : String → Bool)
    (front behind : List Token) :
    countFrom names q exposed (front ++ behind) =
      countFrom names q exposed front + countFrom names q (exposeAll exposed front) behind := by
  induction front generalizing exposed with
  | nil => simp [countFrom, exposeAll]
  | cons token rest ih =>
    rw [List.cons_append, countFrom, countFrom, ih, Nat.add_assoc]
    rfl

theorem countFrom_mono {names : List String} {q : Nat} {few many : String → Bool}
    (h : ∀ name, few name → many name) (tokens : List Token) :
    countFrom names q few tokens ≤ countFrom names q many tokens := by
  induction tokens generalizing few many with
  | nil => exact Nat.le_refl 0
  | cons token rest ih =>
    have levels : level names (expose few token) ≤ level names (expose many token) :=
      level_mono (expose_mono h token)
    have inner := ih (expose_mono h token)
    unfold countFrom
    split <;> split <;> omega

/-- Below the level reached at the end, no token counts. -/
theorem countFrom_eq_zero {names : List String} {q : Nat} {exposed : String → Bool}
    {tokens : List Token} (h : level names (exposeAll exposed tokens) < q) :
    countFrom names q exposed tokens = 0 := by
  induction tokens generalizing exposed with
  | nil => rfl
  | cons token rest ih =>
    have onwards : level names (expose exposed token) ≤
        level names (exposeAll (expose exposed token) rest) :=
      level_mono fun _ inner => exposeAll_iff.2 (.inl inner)
    change level names (exposeAll (expose exposed token) rest) < q at h
    rw [countFrom, ih h, if_neg (by omega)]

/-- The level reached at the end is that of the last token. -/
theorem countFrom_pos {names : List String} {exposed : String → Bool} {tokens : List Token}
    (h : tokens ≠ []) :
    0 < countFrom names (level names (exposeAll exposed tokens)) exposed tokens := by
  induction tokens generalizing exposed with
  | nil => contradiction
  | cons token rest ih =>
    cases rest with
    | nil =>
      rw [countFrom]
      change 0 < (if level names (expose exposed token) ≤ level names (expose exposed token) then 1
        else 0) + _
      rw [if_pos (Nat.le_refl _)]
      omega
    | cons next more =>
      have inner := @ih (expose exposed token) (List.cons_ne_nil next more)
      exact Nat.lt_of_lt_of_le inner (Nat.le_add_left _ _)

theorem countFrom_thins {names : List String} {q : Nat} {few many : List Token}
    (thin : Thins few many) {less more : String → Bool} (h : ∀ name, less name → more name) :
    countFrom names q less few ≤ countFrom names q more many := by
  induction thin generalizing less more with
  | nil => exact Nat.zero_le _
  | skip token _ ih =>
    refine Nat.le_trans (ih fun name exposed => ?_) (Nat.le_add_left _ _)
    exact expose_le more token name (h name exposed)
  | keep left right guarded _ ih =>
    have weaker : ∀ name, expose less left name → expose more right name := by
      intro name exposed
      simp only [expose, Bool.or_eq_true, Bool.and_eq_true, Bool.not_eq_true',
        decide_eq_false_iff_not] at exposed ⊢
      refine exposed.imp (h name) fun ⟨guard, bare⟩ => ?_
      obtain ⟨guardRight, hides⟩ := guarded guard
      exact ⟨guardRight, fun hidden => bare (hides name hidden)⟩
    have levels : level names (expose _ left) ≤ level names (expose _ right) := level_mono weaker
    have inner := ih weaker
    unfold countFrom
    split <;> split <;> omega

/-! ## The measure of a list of tokens -/

/-- Before the first token no name counts as exposed. -/
def unexposed : String → Bool := fun _ => false

/-- The measure of the tokens to come: how many there are from each level upwards. -/
def weigh (table : Table) (tokens : List Token) : Weights table.names.length :=
  .ofFunction (fun q => countFrom table.names q unexposed tokens) table.names.length

/-- One list of tokens has less left to expand than another. -/
def Less (table : Table) (few many : List Token) : Prop :=
  WellFoundedRelation.rel (weigh table few) (weigh table many)

theorem weigh_thins {table : Table} {few rest : List Token} (token : Token)
    (thin : Thins few rest) : Less table few (token :: rest) := by
  have below : ∀ q, countFrom table.names q unexposed few ≤
      countFrom table.names q (expose unexposed token) rest :=
    fun q => countFrom_thins thin fun name exposed => expose_le unexposed token name exposed
  refine Weights.ofFunction_lt 0 (Nat.zero_le _) ?_ fun q _ => ?_
  · have first := below 0
    simp only [countFrom, Nat.zero_le, if_true] at first ⊢
    omega
  · exact Nat.le_trans (below q) (Nat.le_add_left _ _)

theorem thins_self (tokens : List Token) : Thins tokens tokens := by
  induction tokens with
  | nil => exact .nil _
  | cons token rest ih => exact ih.cons_self token

theorem weigh_tail {table : Table} (token : Token) (rest : List Token) :
    Less table rest (token :: rest) := weigh_thins token (thins_self rest)

/-- Replacing `front` by tokens that hide a macro exposed in it, and everything that is hidden
throughout it. -/
theorem weigh_replace {table : Table} {front out rest : List Token} {name : String}
    (member : name ∈ table.names) (exposed : exposeAll unexposed front name)
    (hidden : ∀ token ∈ out, name ∈ token.hide)
    (kept : ∀ token ∈ out, ∀ other, other ∉ token.hide → exposeAll unexposed front other) :
    Less table (out ++ rest) (front ++ rest) := by
  have nonempty : front ≠ [] := by
    rintro rfl
    simp [exposeAll, unexposed] at exposed
  have weaker : ∀ other, exposeAll unexposed out other → exposeAll unexposed front other := by
    intro other bare
    rcases exposeAll_iff.1 bare with initial | ⟨token, produced, -, missing⟩
    · simp [unexposed] at initial
    · exact kept token produced other missing
  have covered : exposeAll unexposed out name = false := by
    rw [Bool.eq_false_iff]
    intro bare
    rcases exposeAll_iff.1 bare with initial | ⟨token, produced, -, missing⟩
    · simp [unexposed] at initial
    · exact missing (hidden token produced)
  have lower := level_lt weaker member exposed covered
  refine Weights.ofFunction_lt (level table.names (exposeAll unexposed front))
    (List.countP_le_length) ?_ fun q above => ?_
  · simp only [countFrom_append]
    rw [countFrom_eq_zero lower]
    have positive := @countFrom_pos table.names unexposed front nonempty
    have behind : countFrom table.names (level table.names (exposeAll unexposed front))
        (exposeAll unexposed out) rest ≤ _ := countFrom_mono weaker rest
    omega
  · simp only [countFrom_append]
    rw [countFrom_eq_zero (Nat.lt_trans lower above)]
    have behind : countFrom table.names q (exposeAll unexposed out) rest ≤ _ :=
      countFrom_mono weaker rest
    omega

end CPreprocessor.Expansion

import CPreprocessor.Proofs.Expansion.Refused
import Mathlib.Data.List.ModifyLast

/-!
# Arguments as a balanced split

What the arguments of a call are can be told without reading them one token after the other: up to
the first closing parenthesis that stands outside of all others, they are the only division at
commas into parts that are balanced and have no such comma inside.

* `nesting`: parentheses opened less parentheses closed. `openBehind_eq_some_iff`: it agrees with
  the count that stops where a parenthesis is closed too often.
* `ClosesAt`: such a closing parenthesis. `encloses_or_before`: the one that ends the call is the
  first of them.
* `IsSplit`: a division of the kind above. `isSplit_cut`: cutting at commas gives one.
  `cut_of_isSplit`: it gives no other.
* `gather`: reading arguments as a loop that keeps what it has consumed.
  `accounts_gather`: it comes to the same as `collect`, and no token gets lost.
* `collect_balanced_split`: all of it for all tokens.
-/

namespace CPreprocessor.Expansion

variable {depth : Nat} {tokens read behind : List Token} {closing : Token}

/-! ## Nesting -/

/-- A parenthesis counts for one more level or one less. -/
def weight (token : Token) : Int :=
  if token.isPunctuator "(" then 1 else if token.isPunctuator ")" then -1 else 0

/-- How many parentheses are opened among some tokens, less how many are closed. -/
def nesting : List Token → Int
  | [] => 0
  | token :: rest => weight token + nesting rest

@[simp] theorem nesting_nil : nesting [] = 0 := rfl

@[simp] theorem nesting_cons (token : Token) (rest : List Token) :
    nesting (token :: rest) = weight token + nesting rest := rfl

theorem weight_opening {token : Token} (h : token.isPunctuator "(") : weight token = 1 := if_pos h

theorem weight_closing {token : Token} (h : token.isPunctuator ")") : weight token = -1 := by
  have ho : ¬token.isPunctuator "(" := fun ho => absurd (Token.eq_of_isPunctuator h ho) (by decide)
  rw [weight, if_neg ho, if_pos h]

theorem weight_other {token : Token} (ho : ¬token.isPunctuator "(")
    (hc : ¬token.isPunctuator ")") : weight token = 0 := by
  rw [weight, if_neg ho, if_neg hc]

/-- As many parentheses are closed as opened, and none is closed before it is opened. -/
structure Balanced (tokens : List Token) : Prop where
  level : nesting tokens = 0
  nonneg : ∀ front, front <+: tokens → 0 ≤ nesting front

/-- No comma stands where `depth` parentheses opened before are all closed again. -/
def CommaFree (depth : Nat) (tokens : List Token) : Prop :=
  ∀ front token behind, tokens = front ++ token :: behind → depth + nesting front = 0 →
    ¬token.isPunctuator ","

/-- A closing parenthesis outside of all others that stand before it, in the same file. -/
structure ClosesAt (tokens read : List Token) (closing : Token) (behind : List Token) : Prop where
  split : tokens = read ++ closing :: behind
  inside : ∀ token ∈ read, token.kind ≠ .endOfFile
  level : nesting read = 0
  closing : closing.isPunctuator ")"

/-- Behind its first token a list goes on from the level that the token leads to. -/
theorem nonneg_cons_iff {token : Token} {next : Nat} (h : depth + weight token = next) :
    (∀ front, front <+: token :: tokens → 0 ≤ depth + nesting front) ↔
      ∀ front, front <+: tokens → 0 ≤ next + nesting front := by
  constructor
  · intro hn front hf
    have := hn (token :: front) ((List.prefix_cons_inj token).2 hf)
    rw [nesting_cons] at this
    omega
  · intro hn front hf
    rcases List.prefix_cons_iff.1 hf with rfl | ⟨later, rfl, hl⟩
    · rw [nesting_nil]
      omega
    · have := hn later hl
      rw [nesting_cons]
      omega

/-- The count of open parentheses is the nesting, as long as that does not fall below zero and the
file does not end. -/
theorem openBehind_eq_some_iff {left : Nat} :
    openBehind depth read = some left ↔
      (∀ token ∈ read, token.kind ≠ .endOfFile) ∧
        (∀ front, front <+: read → 0 ≤ depth + nesting front) ∧ depth + nesting read = left := by
  induction read generalizing depth with
  | nil =>
    simp only [openBehind, Option.some.injEq, List.prefix_nil, forall_eq, nesting_nil]
    exact ⟨fun h => ⟨List.forall_mem_nil _, by omega, by omega⟩, fun h => by omega⟩
  | cons token rest ih =>
    -- What is said of the tokens behind carries over from the level that the first one leads to.
    have step {next : Nat} (he : token.kind ≠ .endOfFile) (h : depth + weight token = next) :
        openBehind next rest = some left ↔ (∀ other ∈ token :: rest, other.kind ≠ .endOfFile) ∧
          (∀ front, front <+: token :: rest → 0 ≤ depth + nesting front) ∧
            depth + nesting (token :: rest) = left := by
      rw [ih, nonneg_cons_iff h, nesting_cons, ← Int.add_assoc, h]
      simp only [List.forall_mem_cons, he, ne_eq, not_false_eq_true, true_and]
    unfold openBehind
    split
    · next he =>
      refine iff_of_false (by simp) fun h => ?_
      exact h.1 token List.mem_cons_self he
    · next he =>
      split
      · next ho => exact step he (by rw [weight_opening ho]; rfl)
      · next ho =>
        split
        · next hp =>
          cases depth with
          | zero =>
            refine iff_of_false (by simp) fun h => ?_
            have := h.2.1 [token] ((List.prefix_cons_inj token).2 List.nil_prefix)
            simp [weight_closing hp] at this
          | succ depth => exact step he (by rw [weight_closing hp, Int.natCast_succ]; omega)
        · next hp => exact step he (by rw [weight_other ho hp, Int.add_zero])

theorem openBehind_eq_zero_iff :
    openBehind 0 read = some 0 ↔ (∀ token ∈ read, token.kind ≠ .endOfFile) ∧ Balanced read := by
  rw [openBehind_eq_some_iff]
  simp only [Int.natCast_zero, Int.zero_add]
  exact and_congr_right fun _ => ⟨fun h => ⟨h.2, h.1⟩, fun h => ⟨h.2, h.1⟩⟩

/-! ## The first closing parenthesis -/

/-- Where parentheses are closed too often, there is a first one. -/
theorem exists_closing_of_openBehind_eq_none (h : openBehind depth read = none)
    (hi : ∀ token ∈ read, token.kind ≠ .endOfFile) :
    ∃ front closing back, read = front ++ closing :: back ∧ openBehind depth front = some 0 ∧
      closing.isPunctuator ")" := by
  fun_induction openBehind depth read with
  | case1 => contradiction
  | case2 depth token rest he => exact absurd he (hi token List.mem_cons_self)
  | case3 depth token rest he ho ih =>
    obtain ⟨front, closing, back, rfl, hd, hc⟩ := ih h (List.forall_mem_cons.1 hi).2
    refine ⟨token :: front, closing, back, rfl, ?_, hc⟩
    simp only [openBehind, if_neg he, if_pos ho, hd]
  | case4 token rest he ho hp => exact ⟨[], token, rest, rfl, rfl, hp⟩
  | case5 token rest he ho hp depth ih =>
    obtain ⟨front, closing, back, rfl, hd, hc⟩ := ih h (List.forall_mem_cons.1 hi).2
    refine ⟨token :: front, closing, back, rfl, ?_, hc⟩
    simp only [openBehind, if_neg he, if_neg ho, if_pos hp, hd]
  | case6 depth token rest he ho hp ih =>
    obtain ⟨front, closing, back, rfl, hd, hc⟩ := ih h (List.forall_mem_cons.1 hi).2
    refine ⟨token :: front, closing, back, rfl, ?_, hc⟩
    simp only [openBehind, if_neg he, if_neg ho, if_neg hp, hd]

theorem Encloses.closesAt (h : Encloses tokens read closing behind) :
    ClosesAt tokens read closing behind := by
  obtain ⟨hi, hb⟩ := openBehind_eq_zero_iff.1 h.matched
  exact ⟨h.split, hi, hb.level, h.closing⟩

/-- A closing parenthesis at level zero is the one that ends the call, or the call has ended
before. -/
theorem encloses_or_before (h : ClosesAt tokens read closing behind) :
    Encloses tokens read closing behind ∨
      ∃ front first back, read = front ++ first :: back ∧
        Encloses tokens front first (back ++ closing :: behind) := by
  cases ho : openBehind 0 read with
  | some left =>
    obtain ⟨-, -, hl⟩ := openBehind_eq_some_iff.1 ho
    rw [h.level] at hl
    obtain rfl : left = 0 := by omega
    exact .inl ⟨h.split, ho, h.closing⟩
  | none =>
    obtain ⟨front, first, back, rfl, hd, hc⟩ := exists_closing_of_openBehind_eq_none ho h.inside
    refine .inr ⟨front, first, back, rfl, ?_, hd, hc⟩
    rw [h.split, List.append_assoc, List.cons_append]

/-- Arguments are read to their end where there is such a parenthesis. -/
theorem isClosed_collect_iff :
    (collect 0 tokens).isClosed ↔ ∃ read closing behind, ClosesAt tokens read closing behind := by
  constructor
  · intro hc
    cases h : collect 0 tokens with
    | closed first others closing behind =>
      obtain ⟨read, he⟩ := encloses_of_collect h
      exact ⟨read, closing, behind, he.closesAt⟩
    | ended | exhausted =>
      rw [h] at hc
      contradiction
  · rintro ⟨read, closing, behind, h⟩
    have he : ∃ read closing behind, Encloses tokens read closing behind := by
      rcases encloses_or_before h with h | ⟨front, first, back, -, h⟩
      · exact ⟨_, _, _, h⟩
      · exact ⟨_, _, _, h⟩
    obtain ⟨read, closing, behind, he⟩ := he
    obtain ⟨first, others, hc, -, -⟩ := collect_of_encloses he
    rw [hc]
    rfl

/-- The parenthesis that ends the call comes before every other one at level zero. -/
theorem Encloses.read_prefix (h : Encloses tokens read closing behind)
    {read' behind' : List Token} {closing' : Token} (h' : ClosesAt tokens read' closing' behind') :
    read <+: read' := by
  rcases encloses_or_before h' with he | ⟨front, first, back, rfl, he⟩
  · exact (h.unique he).1 ▸ List.prefix_refl _
  · exact (h.unique he).1 ▸ List.prefix_append _ _

/-! ## Division at commas -/

/-- The lists, with some comma between each two of them, make up the tokens. -/
inductive Joined : List (List Token) → List Token → Prop where
  | last (argument : List Token) : Joined [argument] argument
  | comma {token : Token} {arguments : List (List Token)} {rest : List Token}
      (argument : List Token) (hc : token.isPunctuator ",") (h : Joined arguments rest) :
      Joined (argument :: arguments) (argument ++ token :: rest)

/-- The tokens are divided at commas into balanced lists without a comma at level zero. -/
structure IsSplit (tokens : List Token) (arguments : List (List Token)) : Prop where
  joined : Joined arguments tokens
  balanced : ∀ argument ∈ arguments, Balanced argument
  commaFree : ∀ argument ∈ arguments, CommaFree 0 argument

theorem Joined.cons {first : List Token} {others : List (List Token)}
    (h : Joined (first :: others) tokens) (token : Token) :
    Joined ((token :: first) :: others) (token :: tokens) := by
  cases h with
  | last => exact .last _
  | comma _ hc h => exact .comma _ hc h

theorem Joined.mem {arguments : List (List Token)} (h : Joined arguments tokens)
    {argument : List Token} (ha : argument ∈ arguments) {token : Token} (ht : token ∈ argument) :
    token ∈ tokens := by
  induction h with
  | last _ =>
    rwa [← List.mem_singleton.1 ha]
  | comma argument _ _ ih =>
    rcases List.mem_cons.1 ha with rfl | ha
    · exact List.mem_append_left _ ht
    · exact List.mem_append_right _ (List.mem_cons_of_mem _ (ih ha))

theorem commaFree_nil (depth : Nat) : CommaFree depth [] :=
  fun front _ _ h => absurd h.symm (List.append_ne_nil_of_right_ne_nil front (List.cons_ne_nil _ _))

/-- A token that is no comma at level zero can be put in front. -/
theorem CommaFree.cons {token : Token} {next : Nat} (h : CommaFree next tokens)
    (hw : depth + weight token = next) (ht : depth = 0 → ¬token.isPunctuator ",") :
    CommaFree depth (token :: tokens) := by
  intro front other behind hs hl
  rcases List.cons_eq_append_iff.1 hs with ⟨rfl, hb⟩ | ⟨later, rfl, hb⟩
  · obtain ⟨rfl, -⟩ := List.cons.inj hb
    rw [nesting_nil] at hl
    exact ht (by omega)
  · rw [nesting_cons] at hl
    exact h later other behind hb (by omega)

/-- What stands behind the first token is free of commas, too. -/
theorem CommaFree.tail {token : Token} {next : Nat} (h : CommaFree depth (token :: tokens))
    (hw : depth + weight token = next) : CommaFree next tokens := by
  intro front other behind hs hl
  refine h (token :: front) other behind (by rw [hs, List.cons_append]) ?_
  rw [nesting_cons]
  omega

theorem CommaFree.head {token : Token} (h : CommaFree 0 (token :: tokens)) :
    ¬token.isPunctuator "," :=
  h [] token tokens rfl rfl

/-- What a division up to the end of a call comes to, if `depth` parentheses are open before: the
first part closes them. -/
structure CutFrom (depth : Nat) (read first : List Token) (others : List (List Token)) : Prop where
  joined : Joined (first :: others) read
  closes : openBehind depth first = some 0
  commaFree : CommaFree depth first
  matched : ∀ argument ∈ others, openBehind 0 argument = some 0
  commasFree : ∀ argument ∈ others, CommaFree 0 argument

theorem CutFrom.cons {first : List Token} {others : List (List Token)} {token : Token} {next : Nat}
    (h : CutFrom next read first others) (hw : depth + weight token = next)
    (ht : depth = 0 → ¬token.isPunctuator ",")
    (ho : openBehind depth (token :: first) = openBehind next first) :
    CutFrom depth (token :: read) (token :: first) others :=
  ⟨h.joined.cons token, ho.trans h.closes, h.commaFree.cons hw ht, h.matched, h.commasFree⟩

/-- Cutting at the commas divides the tokens of a call. -/
theorem cutFrom_cut (h : openBehind depth read = some 0) :
    CutFrom depth read (cutAtCommas (markCommas depth read)).1
      (cutAtCommas (markCommas depth read)).2 := by
  fun_induction openBehind depth read with
  | case1 depth =>
    exact ⟨.last [], h, commaFree_nil _, List.forall_mem_nil _, List.forall_mem_nil _⟩
  | case2 | case4 => contradiction
  | case3 depth token rest he ho ih =>
    have hc : ¬token.isPunctuator "," := fun hc =>
      absurd (Token.eq_of_isPunctuator ho hc) (by decide)
    rw [markCommas, if_pos ho]
    refine (ih h).cons (by rw [weight_opening ho]; rfl) (fun _ => hc) ?_
    simp only [openBehind, if_neg he, if_pos ho]
  | case5 token rest he ho hp depth ih =>
    have hc : ¬token.isPunctuator "," := fun hc =>
      absurd (Token.eq_of_isPunctuator hp hc) (by decide)
    rw [markCommas, if_neg ho, if_pos hp]
    refine (ih h).cons (by rw [weight_closing hp, Int.natCast_succ]; omega) (fun _ => hc) ?_
    simp only [openBehind, if_neg he, if_neg ho, if_pos hp]
  | case6 depth token rest he ho hp ih =>
    rw [markCommas, if_neg ho, if_neg hp]
    have hw : depth + weight token = depth := by rw [weight_other ho hp, Int.add_zero]
    cases hs : token.isPunctuator "," && decide (depth = 0) with
    | false =>
      refine (ih h).cons hw (fun hd hc => ?_) ?_
      · simp [hd, hc] at hs
      · simp only [openBehind, if_neg he, if_neg ho, if_neg hp]
    | true =>
      rw [Bool.and_eq_true, decide_eq_true_eq] at hs
      obtain ⟨hc, rfl⟩ := hs
      have hr := ih h
      exact ⟨.comma [] hc hr.joined, rfl, commaFree_nil 0,
        List.forall_mem_cons.2 ⟨hr.closes, hr.matched⟩,
        List.forall_mem_cons.2 ⟨hr.commaFree, hr.commasFree⟩⟩

/-- Cutting the tokens of a call at the commas is a division of the kind. -/
theorem isSplit_cut (h : openBehind 0 read = some 0) :
    IsSplit read ((cutAtCommas (markCommas 0 read)).1 :: (cutAtCommas (markCommas 0 read)).2) := by
  have hc := cutFrom_cut h
  exact ⟨hc.joined,
    List.forall_mem_cons.2 ⟨(openBehind_eq_zero_iff.1 hc.closes).2,
      fun argument ha => (openBehind_eq_zero_iff.1 (hc.matched argument ha)).2⟩,
    List.forall_mem_cons.2 ⟨hc.commaFree, hc.commasFree⟩⟩

/-- Commas are marked behind some tokens as from the level that these lead to. -/
theorem markCommas_append {left : Nat} (h : openBehind depth read = some left)
    (more : List Token) :
    markCommas depth (read ++ more) = markCommas depth read ++ markCommas left more := by
  fun_induction openBehind depth read with
  | case1 depth =>
    obtain rfl := Option.some.inj h
    rfl
  | case2 | case4 => contradiction
  | case3 depth token rest he ho ih =>
    simp only [List.cons_append, markCommas, if_pos ho, ih h]
  | case5 token rest he ho hp depth ih =>
    simp only [List.cons_append, markCommas, if_neg ho, if_pos hp, Nat.succ_eq_add_one,
      Nat.add_sub_cancel, ih h]
  | case6 depth token rest he ho hp ih =>
    simp only [List.cons_append, markCommas, if_neg ho, if_neg hp, ih h]

/-- Nothing is cut where there is no comma at level zero. -/
theorem cutAtCommas_append {left : Nat} (h : openBehind depth read = some left)
    (hf : CommaFree depth read) (entries : List (Token × Bool)) :
    cutAtCommas (markCommas depth read ++ entries) =
      (read ++ (cutAtCommas entries).1, (cutAtCommas entries).2) := by
  fun_induction openBehind depth read with
  | case1 depth => rfl
  | case2 | case4 => contradiction
  | case3 depth token rest he ho ih =>
    rw [markCommas, if_pos ho, List.cons_append, cutAtCommas,
      ih h (hf.tail (by rw [weight_opening ho]; rfl))]
    rfl
  | case5 token rest he ho hp depth ih =>
    rw [markCommas, if_neg ho, if_pos hp, List.cons_append, cutAtCommas, Nat.succ_eq_add_one,
      Nat.add_sub_cancel, ih h (hf.tail (by rw [weight_closing hp, Int.natCast_succ]; omega))]
    rfl
  | case6 depth token rest he ho hp ih =>
    have hm : (token.isPunctuator "," && decide (depth = 0)) = false := by
      rw [Bool.eq_false_iff, ne_eq, Bool.and_eq_true, decide_eq_true_eq]
      rintro ⟨hc, rfl⟩
      exact hf.head hc
    rw [markCommas, if_neg ho, if_neg hp, List.cons_append, cutAtCommas, hm,
      ih h (hf.tail (by rw [weight_other ho hp, Int.add_zero]))]
    rfl

/-- A division of the kind is the one that cutting at the commas gives. -/
theorem cut_of_isSplit {arguments : List (List Token)} (h : IsSplit read arguments)
    (hi : ∀ token ∈ read, token.kind ≠ .endOfFile) :
    arguments = (cutAtCommas (markCommas 0 read)).1 :: (cutAtCommas (markCommas 0 read)).2 := by
  obtain ⟨hj, hb, hf⟩ := h
  have hm : ∀ argument ∈ arguments, openBehind 0 argument = some 0 := fun argument ha =>
    openBehind_eq_zero_iff.2 ⟨fun token ht => hi token (hj.mem ha ht), hb argument ha⟩
  clear hi hb
  induction hj with
  | last argument =>
    have hc := cutAtCommas_append (hm argument List.mem_cons_self)
      (hf argument List.mem_cons_self) []
    simp only [List.append_nil, cutAtCommas] at hc
    rw [hc]
  | @comma token arguments rest argument hc hj ih =>
    obtain ⟨hm, hms⟩ := List.forall_mem_cons.1 hm
    obtain ⟨hf, hfs⟩ := List.forall_mem_cons.1 hf
    have ho : ¬token.isPunctuator "(" := fun ho =>
      absurd (Token.eq_of_isPunctuator ho hc) (by decide)
    have hp : ¬token.isPunctuator ")" := fun hp =>
      absurd (Token.eq_of_isPunctuator hp hc) (by decide)
    have ht : markCommas 0 (token :: rest) = (token, true) :: markCommas 0 rest := by
      rw [markCommas, if_neg ho, if_neg hp, hc]
      rfl
    rw [markCommas_append hm, ht, cutAtCommas_append hm hf, ih hfs hms]
    simp [cutAtCommas]

/-! ## The loop -/

/-- Where the loop that reads arguments stops: with the tokens that it has consumed, those that it
has not read, and the arguments and the closing parenthesis if it has come to that. -/
structure Gathered where
  consumed : List Token
  unread : List Token
  result : Option (List (List Token) × Token)

/-- Puts a token behind the last argument. -/
def growLast (arguments : List (List Token)) (token : Token) : List (List Token) :=
  arguments.modifyLast (· ++ [token])

/-- Reads on, with so many inner parentheses open and these arguments so far. The token that ends
the file is consumed like every other one. -/
def gatherFrom (consumed : List Token) (depth : Nat) (arguments : List (List Token)) :
    List Token → Gathered
  | [] => ⟨consumed, [], none⟩
  | token :: rest =>
    if token.kind = .endOfFile then ⟨consumed ++ [token], rest, none⟩
    else if token.isPunctuator "(" then
      gatherFrom (consumed ++ [token]) (depth + 1) (growLast arguments token) rest
    else if token.isPunctuator ")" then
      match depth with
      | 0 => ⟨consumed ++ [token], rest, some (arguments, token)⟩
      | depth + 1 => gatherFrom (consumed ++ [token]) depth (growLast arguments token) rest
    else if token.isPunctuator "," && depth = 0 then
      gatherFrom (consumed ++ [token]) depth (arguments ++ [[]]) rest
    else gatherFrom (consumed ++ [token]) depth (growLast arguments token) rest

/-- Reads the arguments behind an opening parenthesis, starting with an empty one. -/
def gather (tokens : List Token) : Gathered := gatherFrom [] 0 [[]] tokens

theorem growLast_concat (done : List (List Token)) (last : List Token) (token : Token) :
    growLast (done ++ [last]) token = done ++ [last ++ [token]] := by
  rw [growLast, List.modifyLast_concat]

/-- Each turn of the loop moves one token from the unread ones to the consumed ones. -/
theorem consumed_append_unread_gatherFrom (consumed : List Token) (depth : Nat)
    (arguments : List (List Token)) (tokens : List Token) :
    (gatherFrom consumed depth arguments tokens).consumed ++
      (gatherFrom consumed depth arguments tokens).unread = consumed ++ tokens := by
  have hs (consumed : List Token) (token : Token) (rest : List Token) :
      consumed ++ [token] ++ rest = consumed ++ token :: rest := by simp
  fun_induction gatherFrom consumed depth arguments tokens with
  | case1 => rfl
  | case2 | case4 => exact hs _ _ _
  | case3 _ _ _ _ _ _ _ ih | case5 _ _ _ _ _ _ _ _ ih | case6 _ _ _ _ _ _ _ _ _ ih
  | case7 _ _ _ _ _ _ _ _ _ ih => rw [ih, hs]

/-- The arguments, the closing parenthesis and what stands behind it, if the loop comes to that. -/
def Gathered.outcome (gathered : Gathered) : Option (List (List Token) × Token × List Token) :=
  gathered.result.map fun found => (found.1, found.2, gathered.unread)

/-- The same for arguments that are read on, behind those that there are so far. -/
def Collected.outcome (done : List (List Token)) (last : List Token) :
    Collected → Option (List (List Token) × Token × List Token)
  | closed first others closing rest => some (done ++ (last ++ first) :: others, closing, rest)
  | ended => none
  | exhausted => none

theorem Collected.outcome_add (done : List (List Token)) (last : List Token) (token : Token)
    (collected : Collected) :
    (collected.add token).outcome done last = collected.outcome done (last ++ [token]) := by
  cases collected <;> simp [add, outcome]

theorem Collected.outcome_separate (done : List (List Token)) (last : List Token)
    (collected : Collected) :
    collected.separate.outcome done last = collected.outcome (done ++ [last]) [] := by
  cases collected <;> simp [separate, outcome]

/-- The loop comes to what the recursion comes to. -/
theorem outcome_gatherFrom (consumed : List Token) (depth : Nat) (done : List (List Token))
    (last tokens : List Token) :
    (gatherFrom consumed depth (done ++ [last]) tokens).outcome =
      (collect depth tokens).outcome done last := by
  fun_induction collect depth tokens generalizing consumed done last with
  | case1 => rfl
  | case2 depth token rest he =>
    simp only [gatherFrom, if_pos he]
    rfl
  | case3 depth token rest he ho ih =>
    simp only [gatherFrom, if_neg he, if_pos ho, growLast_concat, ih, Collected.outcome_add]
  | case4 token rest he ho hp =>
    simp only [gatherFrom, if_neg he, if_neg ho, if_pos hp, Collected.outcome, List.append_nil]
    rfl
  | case5 token rest he ho hp depth ih =>
    simp only [gatherFrom, if_neg he, if_neg ho, if_pos hp, growLast_concat, ih,
      Collected.outcome_add]
  | case6 depth token rest he ho hp hs ih =>
    simp only [gatherFrom, if_neg he, if_neg ho, if_neg hp, if_pos hs, ih,
      Collected.outcome_separate]
  | case7 depth token rest he ho hp hs ih =>
    simp only [gatherFrom, if_neg he, if_neg ho, if_neg hp, if_neg hs, growLast_concat, ih,
      Collected.outcome_add]

/-- The loop accounts for all tokens and gives what the recursion gives. -/
structure Accounts (tokens : List Token) (gathered : Gathered) (collected : Collected) : Prop where
  conserved : gathered.consumed ++ gathered.unread = tokens
  result : ∀ arguments closing, gathered.result = some (arguments, closing) ↔
    ∃ first others, arguments = first :: others ∧
      collected = .closed first others closing gathered.unread

theorem accounts_gather (tokens : List Token) :
    Accounts tokens (gather tokens) (collect 0 tokens) := by
  refine ⟨consumed_append_unread_gatherFrom [] 0 [[]] tokens, fun arguments closing => ?_⟩
  have ho : (gather tokens).outcome = (collect 0 tokens).outcome [] [] :=
    outcome_gatherFrom [] 0 [] [] tokens
  have hg : (gather tokens).result = some (arguments, closing) ↔
      (gather tokens).outcome = some (arguments, closing, (gather tokens).unread) := by
    unfold Gathered.outcome
    cases (gather tokens).result <;> simp [Prod.ext_iff]
  rw [hg, ho]
  cases collect 0 tokens with
  | closed first others closing' rest =>
    simp only [Collected.outcome, List.nil_append, Option.some.injEq, Prod.mk.injEq,
      Collected.closed.injEq]
    constructor
    · rintro ⟨rfl, rfl, rfl⟩
      exact ⟨first, others, rfl, rfl, rfl, rfl, rfl⟩
    · rintro ⟨first', others', rfl, rfl, rfl, rfl, rfl⟩
      exact ⟨rfl, rfl, rfl⟩
  | ended | exhausted => simp [Collected.outcome]

/-- Reading arguments is the balanced split, for all tokens behind an opening parenthesis. It
succeeds where a closing parenthesis stands at level zero before the first end of a file, stops at
the first such one, and gives the only division of the tokens before it at commas into balanced
lists without a comma at level zero. Consumed and unread tokens are the tokens there were. -/
theorem collect_balanced_split (tokens : List Token) :
    ((collect 0 tokens).isClosed ↔ ∃ read closing behind, ClosesAt tokens read closing behind) ∧
      (∀ first others closing rest, collect 0 tokens = .closed first others closing rest →
        ∃ read, ClosesAt tokens read closing rest ∧
          (∀ read' closing' behind', ClosesAt tokens read' closing' behind' → read <+: read') ∧
          ∀ arguments, IsSplit read arguments ↔ arguments = first :: others) ∧
      Accounts tokens (gather tokens) (collect 0 tokens) := by
  refine ⟨isClosed_collect_iff, fun first others closing rest h => ?_, accounts_gather tokens⟩
  obtain ⟨read, he⟩ := encloses_of_collect h
  have hc := he.closesAt
  refine ⟨read, hc, fun _ _ _ h' => he.read_prefix h', fun arguments => ?_⟩
  have hcut := collect_eq_cut he.matched he.closing rest
  rw [← he.split, h] at hcut
  obtain ⟨rfl, rfl, -, -⟩ := Collected.closed.inj hcut
  constructor
  · exact fun hs => cut_of_isSplit hs hc.inside
  · rintro rfl
    exact isSplit_cut he.matched

/-- The tokens behind `F(` in `F(a,(,),))`. -/
def nestedTokens : List Token :=
  [lineToken .identifier "a" 3, lineToken .punctuator "," 4, lineToken .punctuator "(" 5,
    lineToken .punctuator "," 6, lineToken .punctuator ")" 7, lineToken .punctuator "," 8,
    lineToken .punctuator ")" 9, lineToken .punctuator ")" 10]

/-- A comma in inner parentheses divides nothing, the last argument is empty, and the call ends at
the first of two parentheses. -/
theorem collect_balanced_split_nested :
    let arguments := [[lineToken .identifier "a" 3], (nestedTokens.drop 2).take 3, []]
    collect 0 nestedTokens =
        .closed [lineToken .identifier "a" 3] [(nestedTokens.drop 2).take 3, []]
          (lineToken .punctuator ")" 9) [lineToken .punctuator ")" 10] ∧
      ∃ read, ClosesAt nestedTokens read (lineToken .punctuator ")" 9)
          [lineToken .punctuator ")" 10] ∧
        (∀ read' closing' behind', ClosesAt nestedTokens read' closing' behind' → read <+: read') ∧
        ∀ division, IsSplit read division ↔ division = arguments := by
  intro arguments
  have hc : collect 0 nestedTokens =
      .closed [lineToken .identifier "a" 3] [(nestedTokens.drop 2).take 3, []]
        (lineToken .punctuator ")" 9) [lineToken .punctuator ")" 10] := by decide
  exact ⟨hc, (collect_balanced_split nestedTokens).2.1 _ _ _ _ hc⟩

end CPreprocessor.Expansion

import CPreprocessor.Proofs.Source.Phases

/-!
# Logical text in parts

Where a physical text is cut behind a line terminator, the logical text is cut there too. Only a
terminator that is cut itself counts twice.

* `Closed`: a text in whose last line nothing has begun.
* `phases_append`: the logical text of two parts.
* `phases_plain_append`, `mem_phases`: what is kept, and which characters come out.
* `phases_concat`: a newline behind most characters is not spliced away.
* `phases_cut`: a text that is cut where no line is spliced. `exists_spliceFrom_append`: the
  characters in front of the cut keep their places.
-/

namespace CPreprocessor.Source

/-- The text is empty or ends with a newline. -/
def Closed (text : List Char) : Prop := ∀ c ∈ text.getLast?, c = '\n'

instance (text : List Char) : Decidable (Closed text) := Option.decidableForallMem text.getLast?

theorem closed_nil : Closed [] := nofun

theorem closed_concat (text : List Char) : Closed (text ++ ['\n']) := by
  intro c hc
  rw [List.getLast?_concat] at hc
  exact (Option.some.inj hc).symm

/-- A text that is closed is empty or has a newline at its end. -/
theorem Closed.cases {text : List Char} (h : Closed text) :
    text = [] ∨ ∃ front, text = front ++ ['\n'] := by
  cases hl : text.getLast? with
  | none => exact .inl (List.getLast?_eq_none_iff.1 hl)
  | some last =>
    obtain ⟨front, rfl⟩ := List.getLast?_eq_some_iff.1 hl
    rw [h last hl]
    exact .inr ⟨front, rfl⟩

theorem Closed.of_suffix {text behind : List Char} (h : Closed text) (hs : behind <:+ text) :
    Closed behind := by
  obtain ⟨front, rfl⟩ := hs
  intro c hc
  refine h c ?_
  rw [List.getLast?_append, Option.mem_def.1 hc]
  rfl

theorem Closed.mem {text : List Char} (h : Closed text) (hn : text ≠ []) : '\n' ∈ text := by
  obtain rfl | ⟨front, rfl⟩ := h.cases
  · contradiction
  · simp

/-! ## The second phase and the third one -/

/-- A character is kept where no trigraph begins. -/
theorem replaceTrigraphs_keep {c : Char} {rest : List Char}
    (h : ∀ mark more, c = '?' → rest = '?' :: mark :: more → trigraph? mark = none) :
    replaceTrigraphs (c :: rest) = c :: replaceTrigraphs rest := by
  rw [replaceTrigraphs.eq_def]
  split
  · contradiction
  · next mark more he =>
    obtain ⟨rfl, rfl⟩ := List.cons.inj he
    rw [h mark more rfl rfl]
  · next he =>
    obtain ⟨rfl, rfl⟩ := List.cons.inj he
    rfl

/-- No trigraph is cut between the texts. -/
def Uncut (left right : List Char) : Prop :=
  left.getLast? = some '?' → ∀ c ∈ right.head?, c ≠ '?' ∧ trigraph? c = none

theorem Uncut.tail {c : Char} {left right : List Char} (h : Uncut (c :: left) right) :
    Uncut left right := fun hl => h (by rw [List.getLast?_cons, hl]; rfl)

theorem Closed.uncut {left : List Char} (h : Closed left) (right : List Char) :
    Uncut left right := fun hl => absurd (h _ hl) (by decide)

/-- Trigraphs are replaced part by part where none is cut. -/
theorem replaceTrigraphs_append {left right : List Char} (h : Uncut left right) :
    replaceTrigraphs (left ++ right) = replaceTrigraphs left ++ replaceTrigraphs right := by
  fun_induction replaceTrigraphs left with
  | case1 => rfl
  | case2 mark rest char hm ih =>
    simp only [List.cons_append, replaceTrigraphs, hm, ih h.tail.tail.tail]
  | case3 mark rest hm ih =>
    have hr := ih h.tail
    simp only [List.cons_append] at hr
    simp only [List.cons_append, replaceTrigraphs, hm, hr]
  | case4 c rest hn ih =>
    rw [List.cons_append, List.cons_append, ← ih h.tail]
    refine replaceTrigraphs_keep fun mark more hc he => ?_
    subst hc
    -- A trigraph that begins here would end behind the cut.
    cases rest with
    | nil => exact absurd rfl (h rfl '?' (by rw [← List.nil_append right, he]; rfl)).1
    | cons d rest =>
      obtain ⟨rfl, hmark⟩ := List.cons.inj he
      cases rest with
      | nil => exact (h rfl mark (congrArg List.head? hmark)).2
      | cons e rest => exact (hn e rest rfl rfl).elim

/-- Lines are joined part by part where no spliced newline is cut. -/
theorem joinLines_append {left right : List Char}
    (h : left.getLast? = some '\\' → right.head? ≠ some '\n') :
    joinLines (left ++ right) = joinLines left ++ joinLines right := by
  fun_induction joinLines left with
  | case1 => rfl
  | case2 rest ih =>
    have hr : rest.getLast? = some '\\' → right.head? ≠ some '\n' :=
      fun hl => h (by simp [List.getLast?_cons, hl])
    rw [List.cons_append, List.cons_append, joinLines, ih hr]
  | case3 c rest hn ih =>
    have hr : rest.getLast? = some '\\' → right.head? ≠ some '\n' :=
      fun hl => h (by rw [List.getLast?_cons, hl]; rfl)
    rw [List.cons_append, joinLines, ih hr, List.cons_append]
    rintro more rfl he
    cases rest with
    | nil => exact h rfl (by rw [← List.nil_append right, he]; rfl)
    | cons d rest =>
      obtain ⟨rfl, -⟩ := List.cons.inj he
      exact hn rest rfl rfl

theorem closed_replaceTrigraphs {text : List Char} (h : Closed text) :
    Closed (replaceTrigraphs text) := by
  obtain rfl | ⟨front, rfl⟩ := h.cases
  · exact closed_nil
  · have hu : Uncut front ['\n'] := fun _ c hc => by
      obtain rfl := Option.some.inj hc
      decide
    rw [replaceTrigraphs_append hu]
    exact closed_concat _

/-! ## All phases -/

/-- What the second and the third phase make of a text with unified newlines. -/
def finished (trigraphs : Bool) (text : List Char) : List Char :=
  joinLines (if trigraphs then replaceTrigraphs text else text)

theorem finished_append (trigraphs : Bool) {left : List Char} (h : Closed left)
    (right : List Char) :
    finished trigraphs (left ++ right) = finished trigraphs left ++ finished trigraphs right := by
  unfold finished
  cases trigraphs with
  | false => exact joinLines_append fun hl => absurd (h _ hl) (by decide)
  | true =>
    simp only [if_true]
    rw [replaceTrigraphs_append (h.uncut right)]
    exact joinLines_append fun hl => absurd (closed_replaceTrigraphs h _ hl) (by decide)

theorem phases_eq_finished (trigraphs : Bool) (text : List Char) :
    phases trigraphs text = finished trigraphs (unifyNewlines text) := by
  cases trigraphs <;> rfl

/-- A character that begins no trigraph, splice or line terminator is a logical character. -/
theorem phases_cons (trigraphs : Bool) {c : Char} (hc : Inner c) (hq : c ≠ '?') (hb : c ≠ '\\')
    (rest : List Char) : phases trigraphs (c :: rest) = c :: phases trigraphs rest := by
  have hjoin (text : List Char) : joinLines (c :: text) = c :: joinLines text := by
    rw [joinLines]
    rintro _ rfl
    contradiction
  rw [phases_eq_finished, phases_eq_finished, unifyNewlines_inner hc, finished, finished]
  cases trigraphs with
  | false => exact hjoin _
  | true =>
    simp only [if_true]
    rw [replaceTrigraphs_keep fun _ _ h => absurd h hq]
    exact hjoin _

/-- Text in which no trigraph, splice or line terminator begins stays as it is. -/
theorem phases_plain_append (trigraphs : Bool) {left : List Char}
    (h : ∀ c ∈ left, Inner c ∧ c ≠ '?' ∧ c ≠ '\\') (right : List Char) :
    phases trigraphs (left ++ right) = left ++ phases trigraphs right := by
  induction left with
  | nil => rfl
  | cons c rest ih =>
    obtain ⟨⟨hc, hq, hb⟩, hrest⟩ := List.forall_mem_cons.1 h
    rw [List.cons_append, phases_cons trigraphs hc hq hb, ih hrest]
    rfl

theorem mem_replaceTrigraphs {c : Char} {text : List Char} (h : c ∈ replaceTrigraphs text) :
    c ∈ text ∨ ∃ mark, trigraph? mark = some c := by
  fun_induction replaceTrigraphs text with
  | case1 => contradiction
  | case2 mark rest char hm ih =>
    rcases List.mem_cons.1 h with rfl | h
    · exact .inr ⟨mark, hm⟩
    · exact (ih h).imp_left fun hc => by simp [hc]
  | case3 mark rest hm ih | case4 d rest hn ih =>
    rcases List.mem_cons.1 h with rfl | h
    · exact .inl List.mem_cons_self
    · exact (ih h).imp_left (List.mem_cons_of_mem _)

theorem mem_joinLines {c : Char} {text : List Char} (h : c ∈ joinLines text) : c ∈ text := by
  fun_induction joinLines text with
  | case1 => contradiction
  | case2 rest ih => simp [ih h]
  | case3 d rest hn ih =>
    rcases List.mem_cons.1 h with rfl | h
    · exact List.mem_cons_self
    · exact List.mem_cons_of_mem _ (ih h)

/-- A logical character of a text without line terminators is a character of the text, or spelled by
a trigraph. -/
theorem mem_phases {trigraphs : Bool} {c : Char} {text : List Char} (hi : ∀ d ∈ text, Inner d)
    (h : c ∈ phases trigraphs text) : c ∈ text ∨ ∃ mark, trigraph? mark = some c := by
  rw [phases_eq_finished, unifyNewlines_of_inner hi] at h
  have h := mem_joinLines h
  cases trigraphs with
  | false => exact .inl h
  | true => exact mem_replaceTrigraphs h

/-- Text on one line, trigraphs aside, is its own logical text. -/
theorem phases_of_inner {text : List Char} (h : ∀ c ∈ text, Inner c) :
    phases false text = text := by
  rw [phases_eq_finished, unifyNewlines_of_inner h]
  change joinLines text = text
  induction text with
  | nil => rfl
  | cons c rest ih =>
    obtain ⟨-, hrest⟩ := List.forall_mem_cons.1 h
    rw [joinLines]
    · rw [ih hrest]
    · rintro more rfl rfl
      exact (h '\n' (by simp)).2 rfl

/-- The last character of the text belongs to a line terminator. -/
def Terminated (text : List Char) : Prop := ∀ c ∈ text.getLast?, c = '\r' ∨ c = '\n'

instance (text : List Char) : Decidable (Terminated text) :=
  Option.decidableForallMem text.getLast?

theorem Terminated.tail {c : Char} {rest : List Char} (h : Terminated (c :: rest)) :
    Terminated rest := fun d hd => h d (by rw [List.getLast?_cons, Option.mem_def.1 hd]; rfl)

theorem closed_unifyNewlines {text : List Char} (h : Terminated text) :
    Closed (unifyNewlines text) := by
  have hcons {c : Char} {rest : List Char} (hr : Closed rest) (hc : rest = [] → c = '\n') :
      Closed (c :: rest) := by
    cases rest with
    | nil =>
      rw [hc rfl]
      exact closed_concat []
    | cons d rest => exact hr
  fun_induction unifyNewlines text with
  | case1 => exact closed_nil
  | case2 rest ih => exact hcons (ih h.tail.tail) fun _ => rfl
  | case3 c rest _ ih =>
    refine hcons (ih h.tail) fun he => ?_
    cases rest with
    | nil => rcases h c rfl with rfl | rfl <;> rfl
    | cons d rest =>
      unfold unifyNewlines at he
      split at he <;> contradiction

/-- The logical text of two parts, cut behind a line terminator. The second part has one newline
less where the terminator itself is cut. -/
theorem phases_append (trigraphs : Bool) {left : List Char} (h : Terminated left)
    (right : List Char) :
    ∃ rest, phases trigraphs (left ++ right) = phases trigraphs left ++ rest ∧
      (phases trigraphs right = rest ∨ phases trigraphs right = '\n' :: rest) := by
  simp only [phases_eq_finished]
  by_cases ha : Apart left right
  · refine ⟨_, ?_, .inl rfl⟩
    rw [unifyNewlines_append ha, finished_append trigraphs (closed_unifyNewlines h)]
  · obtain ⟨hl, hr⟩ : left.getLast? = some '\r' ∧ right.head? = some '\n' := by
      simpa [Apart] using ha
    obtain ⟨front, rfl⟩ := List.getLast?_eq_some_iff.1 hl
    obtain ⟨more, rfl⟩ := List.head?_eq_some_iff.1 hr
    have hfront (text : List Char) :
        unifyNewlines (front ++ '\r' :: text) =
          unifyNewlines front ++ unifyNewlines ('\r' :: text) :=
      unifyNewlines_append fun _ hc => absurd (Option.some.inj hc) (by decide)
    have hmore : unifyNewlines ('\n' :: more) = '\n' :: unifyNewlines more :=
      unifyNewlines_cons nofun
    have hclosed : Closed (unifyNewlines front ++ ['\n']) := closed_concat _
    refine ⟨finished trigraphs (unifyNewlines more), ?_, .inr ?_⟩
    · rw [List.append_assoc, List.singleton_append, hfront, hfront, unifyNewlines]
      have happend := finished_append trigraphs hclosed (unifyNewlines more)
      rw [List.append_assoc] at happend
      exact happend
    · have hnewline : finished trigraphs ['\n'] = ['\n'] := by
        cases trigraphs <;> simp [finished, joinLines, replaceTrigraphs]
      have happend := finished_append trigraphs (closed_concat []) (unifyNewlines more)
      rw [List.nil_append, hnewline] at happend
      rw [hmore]
      exact happend

/-- A character that begins and ends nothing, with a newline behind it, is kept with the newline. -/
theorem phases_concat (trigraphs : Bool) (text : List Char) {c : Char} (hc : Inner c)
    (hb : c ≠ '\\') (hq : c ≠ '?') (ht : trigraph? c = none) :
    phases trigraphs (text ++ [c, '\n']) = phases trigraphs text ++ [c, '\n'] := by
  have hunify : unifyNewlines (text ++ [c, '\n']) = unifyNewlines text ++ [c, '\n'] := by
    have ha : Apart text [c, '\n'] := fun _ hd => hc.2 (Option.some.inj hd)
    rw [unifyNewlines_append ha, unifyNewlines_inner hc]
    rfl
  have hjoin (front : List Char) :
      joinLines (front ++ [c, '\n']) = joinLines front ++ [c, '\n'] := by
    have hkeep : joinLines [c, '\n'] = [c, '\n'] := by
      rw [joinLines]
      · rfl
      · rintro _ rfl
        contradiction
    have ha : front.getLast? = some '\\' → [c, '\n'].head? ≠ some '\n' :=
      fun _ hd => hc.2 (Option.some.inj hd)
    rw [joinLines_append ha, hkeep]
  rw [phases_eq_finished, phases_eq_finished, hunify, finished, finished]
  cases trigraphs with
  | false => exact hjoin _
  | true =>
    have hu : Uncut (unifyNewlines text) [c, '\n'] := fun _ d hd => by
      obtain rfl := Option.some.inj hd
      exact ⟨hq, ht⟩
    have hkeep : replaceTrigraphs [c, '\n'] = [c, '\n'] := by
      rw [replaceTrigraphs_keep fun _ _ h => absurd h hq]
      rfl
    simp only [if_true]
    rw [replaceTrigraphs_append hu, hkeep]
    exact hjoin _

/-- A newline that ends a text is not spliced away where no backslash stands before it, as itself
or as a trigraph. -/
theorem closed_phases_concat (trigraphs : Bool) (text : List Char) {c : Char} (hc : Inner c)
    (hb : c ≠ '\\') (hq : c ≠ '?') (ht : trigraph? c = none) :
    Closed (phases trigraphs (text ++ [c, '\n'])) := by
  rw [phases_concat trigraphs text hc hb hq ht, List.append_cons]
  exact closed_concat _

/-! ## Cuts inside a line -/

theorem getLast?_unifyNewlines {text : List Char} (h : text.getLast? ≠ some '\\') :
    (unifyNewlines text).getLast? ≠ some '\\' := by
  intro hl
  rcases List.eq_nil_or_concat text with rfl | ⟨front, c, rfl⟩
  · contradiction
  rw [List.concat_eq_append] at h hl
  rw [List.getLast?_concat] at h
  by_cases hc : c = '\n'
  · have hclosed : Closed (unifyNewlines (front ++ [c])) := by
      refine closed_unifyNewlines fun d hd => ?_
      rw [List.getLast?_concat] at hd
      exact .inr (Option.some.inj hd ▸ hc)
    exact absurd (hclosed _ hl) (by decide)
  · have ha : Apart front [c] := fun _ hd => hc (Option.some.inj hd)
    have hlast : unifyNewlines [c] = [if c = '\r' then '\n' else c] :=
      unifyNewlines_cons fun _ => nofun
    rw [unifyNewlines_append ha, hlast, List.getLast?_concat] at hl
    split at hl
    · exact absurd (Option.some.inj hl) (by decide)
    · exact h hl

variable {left mark right : List Char}

/-- The logical text of two parts, if neither a terminator nor a spliced line is cut. -/
theorem phases_cut (ha : Apart left right) (hb : left.getLast? ≠ some '\\') :
    phases false (left ++ right) = phases false left ++ phases false right := by
  rw [phases_eq_finished, phases_eq_finished, phases_eq_finished, unifyNewlines_append ha]
  exact joinLines_append fun hl => absurd hl (getLast?_unifyNewlines hb)

/-- A line terminator in front of a text is a newline. -/
theorem phases_terminator (h : Terminates mark right) :
    phases false (mark ++ right) = '\n' :: phases false right := by
  rw [phases_eq_finished, phases_eq_finished, unifyNewlines_terminator h]
  change joinLines ('\n' :: unifyNewlines right) = '\n' :: joinLines (unifyNewlines right)
  rw [joinLines]
  exact fun _ hs => absurd hs (by decide)

/-- A line that does not end in a backslash is its own logical text, in front of any other ones. -/
theorem phases_line (h : ∀ c ∈ left, Inner c) (hb : left.getLast? ≠ some '\\')
    (right : List Char) :
    phases false (left ++ '\n' :: right) = left ++ '\n' :: phases false right := by
  have ha : Apart left ('\n' :: right) := fun hl => absurd rfl (h _ (List.mem_of_getLast? hl)).1
  rw [phases_cut ha hb, phases_of_inner h]
  exact congrArg (left ++ ·) (phases_terminator (.lf right))

theorem Terminates.append {rest : List Char} (h : Terminates mark rest)
    (ha : Apart (mark ++ rest) right) : Terminates mark (rest ++ right) := by
  cases h with
  | crlf => exact .crlf _
  | lf => exact .lf _
  | cr h =>
    refine .cr fun hd => ?_
    cases rest with
    | nil => exact ha rfl hd
    | cons c rest => exact h hd

/-- The logical characters of a text in front of a cut, with their places, if neither a terminator
nor a spliced line is cut. -/
theorem exists_spliceFrom_append (line column : Nat) (ha : Apart left right)
    (hb : left.getLast? = some '\\' → afterTerminator? right = none) :
    ∃ behind, spliceFrom false line column (left ++ right) =
      spliceFrom false line column left ++ behind := by
  have hsymbol (c : Char) (cs : List Char) : symbol false c cs = ⟨c, 1, cs⟩ := by
    rcases symbol_cases false c cs with ⟨_, _, _, h, -⟩ | ⟨h, -⟩
    · contradiction
    · exact h
  have hlast (front : List Char) {rest : List Char} {c : Char} (h : rest.getLast? = some c) :
      (front ++ rest).getLast? = some c := by rw [List.getLast?_append, h]; rfl
  induction left using splice_induction false generalizing line column with
  | nil => exact ⟨_, by rw [spliceFrom_nil, List.nil_append, List.nil_append]⟩
  | terminator mark rest ht ih =>
    obtain ⟨behind, he⟩ :=
      ih (line + 1) 1 (fun hl => ha (hlast mark hl)) fun hl => hb (hlast mark hl)
    refine ⟨behind, ?_⟩
    rw [List.append_assoc, spliceFrom_terminator false line column (ht.append ha),
      spliceFrom_terminator false line column ht, he, List.cons_append]
  | joined c cs rest hc hs hr ih =>
    simp only [hsymbol] at hr
    obtain ⟨mark, rfl, ht⟩ := terminates_of_afterTerminator? hr
    have hmore : afterTerminator? (mark ++ rest ++ right) = some (rest ++ right) := by
      rw [List.append_assoc]
      exact afterTerminator?_append (ht.append fun hl => ha (hlast [c] hl))
    obtain ⟨behind, he⟩ :=
      ih (line + 1) 1 (fun hl => ha (hlast (c :: mark) hl)) fun hl => hb (hlast (c :: mark) hl)
    have hleft : spliceFrom false line column (c :: (mark ++ rest)) =
        spliceFrom false (line + 1) 1 rest :=
      spliceFrom_joined false line column hc hs (by rw [hsymbol]; exact hr)
    have hwhole : spliceFrom false line column (c :: (mark ++ rest ++ right)) =
        spliceFrom false (line + 1) 1 (rest ++ right) :=
      spliceFrom_joined false line column hc (by rwa [hsymbol] at hs ⊢) (by rwa [hsymbol])
    exact ⟨behind, by rw [List.cons_append, hwhole, he, hleft]⟩
  | inner c cs hc hn ih =>
    simp only [hsymbol] at hn ih
    obtain ⟨behind, he⟩ :=
      ih line (column + 1) (fun hl => ha (hlast [c] hl)) fun hl => hb (hlast [c] hl)
    have hmore (hs : c = '\\') : afterTerminator? (cs ++ right) = none := by
      cases cs with
      | nil => exact hb (by rw [hs]; rfl)
      | cons d cs => exact afterTerminator?_inner (inner_of_afterTerminator? (hn hs)) _
    refine ⟨behind, ?_⟩
    rw [List.cons_append,
      spliceFrom_inner false line column hc (by simpa only [hsymbol] using hmore),
      spliceFrom_inner false line column hc (by simpa only [hsymbol] using hn)]
    simp only [hsymbol, he, List.cons_append]

end CPreprocessor.Source

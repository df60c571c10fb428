import CPreprocessor.Proofs.Macro.Table
import Mathlib.Data.List.Nodup

/-!
# Well-formed tables

What expansion relies on in the macros in force: each name has one definition, parameters can be
told apart, and the operators of a body have their operands. Reading a definition checks all of
this, so it holds in every table that is made of definitions that were read.

* `Definition.WellFormed`, `wellFormed_of_parse`: a definition that was read.
* `Table.Reachable`: the tables that a run can have, from its initial one through any operations
  that succeed or fail.
* `wellFormed_apply`, `wellFormed_of_reachable`: one operation keeps a table well-formed, so all of
  them do.
-/

namespace CPreprocessor.Macro

variable {site : Position} {tokens : List Token} {definition : Definition} {table : Table}

/-! ## Definitions -/

/-- The parameters differ from each other and from the name for further arguments. -/
structure Parameters.WellFormed (parameters : Parameters) : Prop where
  nodup : parameters.names.Nodup
  not_variadicName : variadicName ∉ parameters.names

/-- Behind every stringizing operator stands the name of an argument. -/
def Parameters.Stringizes (parameters : Parameters) (body : List Token) : Prop :=
  ∀ front operator behind, body = front ++ operator :: behind → operator.isPunctuator "#" →
    ∃ operand ∈ behind.head?, parameters.contains operand.text

/-- What expansion relies on in a definition. -/
structure Definition.WellFormed (definition : Definition) : Prop where
  name : definition.name ∉ ["__FILE__", "__LINE__", "defined"]
  parameters : ∀ parameters ∈ definition.parameters, parameters.WellFormed
  first : ∀ token ∈ definition.body.head?, token.isPaste = false
  last : ∀ token ∈ definition.body.getLast?, token.isPaste = false
  stringizes : ∀ parameters ∈ definition.parameters, parameters.Stringizes definition.body
  variadic : ∀ token ∈ definition.body, token.kind = .identifier → token.text = variadicName →
    definition.isVariadic

/-- The parameters that are read go on with those seen before, and all of them can be told apart. -/
theorem wellFormed_of_parseParameters {seen : List String} {parameters : Parameters}
    {body : List Token} (h : parseParameters site seen tokens = .ok (parameters, body))
    (hs : seen.Nodup) (hv : variadicName ∉ seen) : parameters.WellFormed := by
  -- A name is only added behind the checks that it is a name of its own.
  have hadd {seen : List String} {token : Token} (hs : seen.Nodup) (hv : variadicName ∉ seen)
      (hk : ¬(token.kind ≠ .identifier ∨ token.text = variadicName)) (hm : token.text ∉ seen) :
      (seen ++ [token.text]).Nodup ∧ variadicName ∉ seen ++ [token.text] := by
    refine ⟨hs.append (List.nodup_singleton _) (List.disjoint_singleton.2 hm), fun hn => ?_⟩
    rcases List.mem_append.1 hn with hn | hn
    · exact hv hn
    · exact hk (.inr (List.mem_singleton.1 hn).symm)
  fun_induction parseParameters site seen tokens with
  | case1 | case3 | case4 | case5 | case6 | case7 | case10 => contradiction
  | case2 =>
    obtain ⟨rfl, -⟩ := Prod.mk.inj (Except.ok.inj h)
    exact ⟨hs, hv⟩
  | case8 seen token _ hk hm =>
    obtain ⟨rfl, -⟩ := Prod.mk.inj (Except.ok.inj h)
    obtain ⟨hs, hv⟩ := hadd hs hv hk hm
    exact ⟨hs, hv⟩
  | case9 seen token _ hk hm _ _ _ _ ih =>
    obtain ⟨hs, hv⟩ := hadd hs hv hk hm
    exact ih h hs hv

theorem wellFormed_of_parseTail {parameters : Option Parameters} {body : List Token}
    (h : parseTail site tokens = .ok (parameters, body)) :
    ∀ found ∈ parameters, found.WellFormed := by
  obtain ⟨rfl, -⟩ | ⟨opening, rest, read, rfl, rfl, hr⟩ := parseTail_eq_ok h
  · exact fun found hm => absurd hm (Option.not_mem_none found)
  · rintro _ ⟨⟩
    obtain ⟨closing, -, -, rfl⟩ | hr := hr
    · exact ⟨List.nodup_nil, List.not_mem_nil⟩
    · exact wellFormed_of_parseParameters hr List.nodup_nil List.not_mem_nil

/-- A body is without a fault if every token of it is, in front of the tokens behind it. -/
theorem tokensIssue?_eq_none_iff {parameters : Option Parameters} {body : List Token} :
    tokensIssue? parameters body = none ↔
      ∀ front token behind, body = front ++ token :: behind →
        tokenFault? parameters token behind = none := by
  induction body with
  | nil => simp [tokensIssue?]
  | cons first rest ih =>
    rw [tokensIssue?]
    cases hf : tokenFault? parameters first rest with
    | some fault =>
      refine iff_of_false (Option.some_ne_none _) fun h => ?_
      rw [h [] first rest rfl] at hf
      contradiction
    | none =>
      refine ih.trans ⟨fun h front token behind hb => ?_, fun h front token behind hb => ?_⟩
      · cases front with
        | nil =>
          obtain ⟨rfl, rfl⟩ := List.cons.inj hb
          exact hf
        | cons _ front =>
          obtain ⟨-, hb⟩ := List.cons.inj hb
          exact h front token behind hb
      · exact h (first :: front) token behind (congrArg (first :: ·) hb)

/-- What a token without a fault is. -/
theorem tokenFault?_eq_none_iff {parameters : Option Parameters} {token : Token}
    {behind : List Token} :
    tokenFault? parameters token behind = none ↔
      (token.kind = .identifier → token.text = variadicName →
        parameters.any Parameters.variadic) ∧
      ∀ found ∈ parameters, token.isPunctuator "#" →
        ∃ operand ∈ behind.head?, found.contains operand.text := by
  unfold tokenFault?
  split
  · next hv =>
    refine iff_of_false nofun fun h => ?_
    simp only [Bool.and_eq_true, decide_eq_true_eq, Bool.not_eq_true'] at hv
    exact absurd (h.1 hv.1.1 hv.1.2) (by simp [hv.2])
  · next hv =>
    have hvariadic : token.kind = .identifier → token.text = variadicName →
        parameters.any Parameters.variadic := fun hk ht => by simpa [hk, ht] using hv
    rw [and_iff_right hvariadic]
    cases parameters with
    | none => simp
    | some found => simp [Option.any_eq_true]

/-- Reading a definition leaves nothing for expansion to stumble over. -/
theorem wellFormed_of_parse (h : Definition.parse site tokens = .ok definition) :
    definition.WellFormed := by
  obtain ⟨name, tail, body, -, -, hr, ht, -, hn, hi⟩ := parse_eq_ok h
  obtain ⟨hfirst, hlast, hi⟩ := bodyIssue?_eq_none_iff.1 hi
  have hfault {front behind : List Token} {token : Token}
      (hb : definition.body = front ++ token :: behind) :=
    tokenFault?_eq_none_iff.1 (tokensIssue?_eq_none_iff.1 hi front token behind hb)
  refine ⟨?_, wellFormed_of_parseTail ht, hfirst, hlast, ?_, ?_⟩
  · rw [hn]
    simpa [isReserved, builtinNames, and_assoc] using hr
  · intro parameters hp front operator behind hb ho
    exact (hfault hb).2 parameters hp ho
  · intro token hm hk ht
    obtain ⟨front, behind, hb⟩ := List.append_of_mem hm
    exact (hfault hb).1 hk ht

/-- A definition that was read behind `define` or on the command line. -/
inductive Definition.WasRead (definition : Definition) : Prop where
  | directive {site : Position} {tokens : List Token}
      (h : Definition.parse site tokens = .ok definition)
  | commandLine {text : String} (h : Definition.ofCommandLine text = .ok definition)

theorem Definition.WasRead.wellFormed (h : definition.WasRead) : definition.WellFormed := by
  cases h with
  | directive h => exact wellFormed_of_parse h
  | commandLine h =>
    obtain ⟨tokens, -, -, hp⟩ := exists_parse_of_ofCommandLine h
    exact wellFormed_of_parse hp

/-! ## Tables -/

/-- What can be done to a table. -/
inductive Operation where
  | define (definition : Definition)
  | install (definition : Definition)
  | erase (name : String)
deriving DecidableEq

/-- The operation only brings in a definition that was read. -/
def Operation.Sound : Operation → Prop
  | define definition | install definition => definition.WasRead
  | erase _ => True

namespace Table

/-- The table behind an operation. A definition that is in conflict leaves it as it was. -/
def apply (table : Table) : Operation → Table
  | .define definition => (table.define definition).toOption.getD table
  | .install definition => table.install definition
  | .erase name => table.erase name

/-- The tables that a run can have. -/
inductive Reachable : Table → Prop where
  | initial {defines undefines : List String} {table : Table}
      (h : Table.initial defines undefines = .ok table) : Reachable table
  | apply {table : Table} {operation : Operation} (h : Reachable table) (ho : operation.Sound) :
      Reachable (table.apply operation)

/-- Each name has one definition, and all definitions are well-formed. -/
structure WellFormed (table : Table) : Prop where
  keys : table.names.Nodup
  definitions : ∀ definition ∈ table.entries, definition.WellFormed

/-- Where each name has one definition, looking it up finds it. -/
theorem find?_eq_some_iff (h : table.names.Nodup) {name : String} :
    table.find? name = some definition ↔ definition ∈ table.entries ∧ definition.name = name := by
  refine ⟨fun hf => ⟨mem_of_find? hf, name_of_find? hf⟩, ?_⟩
  rintro ⟨hm, rfl⟩
  have hs : (table.find? definition.name).isSome := List.find?_isSome.2 ⟨definition, hm, by simp⟩
  obtain ⟨found, hf⟩ := Option.isSome_iff_exists.1 hs
  rw [hf, List.inj_on_of_nodup_map h (mem_of_find? hf) hm (name_of_find? hf)]

/-- A definition takes the place of the one of its name, or the next free place. -/
theorem names_place (definition : Definition) (entries : List Definition) :
    (place definition entries).map Definition.name =
      if definition.name ∈ entries.map Definition.name then entries.map Definition.name
      else entries.map Definition.name ++ [definition.name] := by
  induction entries with
  | nil => rfl
  | cons head tail ih =>
    rw [place]
    by_cases hn : head.name = definition.name
    · simp [hn]
    · have hm : definition.name ∈ (head :: tail).map Definition.name ↔
          definition.name ∈ tail.map Definition.name := by simp [Ne.symm hn]
      rw [if_neg hn, List.map_cons, ih]
      simp only [hm]
      split <;> rfl

theorem wellFormed_empty : WellFormed ∅ := ⟨List.nodup_nil, List.forall_mem_nil _⟩

theorem wellFormed_install (h : table.WellFormed) (hd : definition.WellFormed) :
    (table.install definition).WellFormed := by
  refine ⟨?_, fun other hm => ?_⟩
  · rw [names, install, names_place]
    split
    · exact h.keys
    · next hn => exact h.keys.append (List.nodup_singleton _) (List.disjoint_singleton.2 hn)
  · rcases mem_of_place hm with rfl | hm
    · exact hd
    · exact h.definitions other hm

theorem wellFormed_erase (h : table.WellFormed) (name : String) :
    (table.erase name).WellFormed :=
  ⟨h.keys.sublist (List.filter_sublist.map _),
    fun other hm => h.definitions other (List.mem_filter.1 hm).1⟩

theorem wellFormed_define {defined : Table} (h : table.WellFormed) (hd : definition.WellFormed)
    (ho : table.define definition = .ok defined) : defined.WellFormed := by
  unfold define at ho
  split at ho
  · obtain rfl := Except.ok.inj ho
    exact wellFormed_install h hd
  · split at ho
    · obtain rfl := Except.ok.inj ho
      exact h
    · contradiction

theorem wellFormed_installAll {texts : List String} {installed : Table} (h : table.WellFormed)
    (hi : table.installAll texts = .ok installed) : installed.WellFormed := by
  induction texts generalizing table with
  | nil =>
    obtain rfl := Except.ok.inj hi
    exact h
  | cons text rest ih =>
    rw [installAll] at hi
    cases ho : Definition.ofCommandLine text with
    | error issue =>
      rw [ho] at hi
      contradiction
    | ok definition =>
      rw [ho] at hi
      exact ih (wellFormed_install h (Definition.WasRead.commandLine ho).wellFormed) hi

theorem wellFormed_eraseAll {names : List String} {erased : Table} (h : table.WellFormed)
    (he : table.eraseAll names = .ok erased) : erased.WellFormed := by
  induction names generalizing table with
  | nil =>
    obtain rfl := Except.ok.inj he
    exact h
  | cons name rest ih =>
    rw [eraseAll] at he
    split at he
    · exact ih (wellFormed_erase h name) he
    · contradiction

theorem wellFormed_initial {defines undefines : List String} {initial : Table}
    (h : Table.initial defines undefines = .ok initial) : initial.WellFormed := by
  unfold Table.initial at h
  cases hi : installAll ∅ (standard ++ defines) with
  | error issue =>
    rw [hi] at h
    contradiction
  | ok installed =>
    rw [hi] at h
    exact wellFormed_eraseAll (wellFormed_installAll wellFormed_empty hi) h

/-- One operation keeps a table well-formed, whether it succeeds or fails. -/
theorem wellFormed_apply {operation : Operation} (h : table.WellFormed) (ho : operation.Sound) :
    (table.apply operation).WellFormed := by
  cases operation with
  | define definition =>
    rw [apply]
    cases hd : table.define definition with
    | error issue => exact h
    | ok defined => exact wellFormed_define h ho.wellFormed hd
  | install definition => exact wellFormed_install h ho.wellFormed
  | erase name => exact wellFormed_erase h name

/-- Every table that a run can have is well-formed. -/
theorem wellFormed_of_reachable (h : table.Reachable) : table.WellFormed := by
  induction h with
  | initial h => exact wellFormed_initial h
  | apply _ ho ih => exact wellFormed_apply ih ho

end Table

end CPreprocessor.Macro

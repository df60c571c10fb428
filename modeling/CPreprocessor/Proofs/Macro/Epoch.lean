import CPreprocessor.Proofs.Interleaving
import CPreprocessor.Proofs.Macro.Equivalent
import Mathlib.Data.List.DropRight

/-!
# The definition in force

A run over lines that define and undefine macros leaves to each name the definition that its last
epoch began with: a later definition of the name is ignored or a conflict, until the name is
undefined and the next epoch begins.

* `Act`: what such a line comes to. `epoch`: the acts since a name was last undefined.
* `inForce`, `reports`: the definition of a name behind acts, and what the acts report.
* `done_of_act`: one line leaves the definitions that its act leaves, and reports what it reports.
* `readLines_of_acts`: so do lines, one after the other.
* `definition_in_force`: so does a whole file.
-/

namespace CPreprocessor

open Include Interleaving

namespace Macro

/-! ## Acts -/

/-- What a line that defines or undefines a macro comes to. -/
inductive Act where
  | define (definition : Definition)
  | undefine (name : String)
  | malformed (issue : Issue)
deriving DecidableEq

namespace Act

/-- The act of a line that defines a macro. -/
def ofDefine (keyword : Token) (operands : List Token) : Act :=
  match Definition.parse keyword.position operands with
  | .ok definition => define definition
  | .error issue => malformed issue

/-- The act of a line that undefines a macro. -/
def ofUndefine (keyword : Token) (operands : List Token) : Act :=
  match operands.head?.filter (·.kind = .identifier) with
  | some name => undefine name.text
  | none => malformed (.placed .undefineOperand keyword.position)

/-- The act of a line, if it is a directive that defines or undefines a macro, well or not. -/
def ofLine? (line : Line) : Option Act :=
  match line.tokens with
  | hash :: keyword :: operands =>
    if hash.kind = .directiveHash ∧ keyword.kind = .identifier ∧ keyword.text = "define" then
      some (ofDefine keyword operands)
    else if hash.kind = .directiveHash ∧ keyword.kind = .identifier ∧ keyword.text = "undef" then
      some (ofUndefine keyword operands)
    else none
  | _ => none

/-- The definition that an act would give a name that has none. -/
def definition? (name : String) : Act → Option Definition
  | define definition => if definition.name = name then some definition else none
  | undefine _ | malformed _ => none

/-- What an act reports where `found` has the definitions in force: an error if it is malformed, a
conflict if it defines a name anew and the definitions do not agree. -/
def issues (found : String → Option Definition) : Act → List Issue
  | define definition =>
    match found definition.name with
    | none => []
    | some existing =>
      if existing.isEquivalent definition then []
      else [.placed (.redefinition definition.name existing.position) definition.position]
  | undefine _ => []
  | malformed issue => [issue]

end Act

/-- The acts since a name was last undefined, all of them if it never was. -/
def epoch (name : String) (acts : List Act) : List Act := acts.rtakeWhile (· ≠ .undefine name)

/-- The definition of a name behind acts: the one in the table in front of them if the name was
never undefined, or else the first one of the epoch. -/
def inForce (table : Table) (acts : List Act) (name : String) : Option Definition :=
  (if .undefine name ∈ acts then none else table.find? name).or
    ((epoch name acts).findSome? (Act.definition? name))

/-- What acts report, each with the definitions in force behind those before it. -/
def reports (table : Table) (before : List Act) : List Act → List Issue
  | [] => []
  | act :: rest => act.issues (inForce table before) ++ reports table (before ++ [act]) rest

theorem inForce_nil (table : Table) (name : String) : inForce table [] name = table.find? name :=
  Option.or_none

/-- An act undefines a name, or gives it a definition if it has none. -/
theorem inForce_concat (table : Table) (acts : List Act) (act : Act) (name : String) :
    inForce table (acts ++ [act]) name =
      if act = .undefine name then none
      else (inForce table acts name).or (act.definition? name) := by
  unfold inForce epoch
  by_cases h : act = .undefine name
  · rw [if_pos h, if_pos (List.mem_append_right _ (List.mem_singleton.2 h.symm)),
      List.rtakeWhile_concat_neg _ _ _ (by simpa using h)]
    rfl
  · have hm : .undefine name ∈ acts ++ [act] ↔ .undefine name ∈ acts := by
      simp [Ne.symm h]
    rw [if_neg h, List.rtakeWhile_concat_pos _ _ _ (by simpa using h), List.findSome?_append,
      Option.or_assoc]
    simp only [hm, List.findSome?_cons, List.findSome?_nil]
    cases act.definition? name <;> rfl

/-! ## Tables -/

namespace Table

theorem find?_install_of_ne (table : Table) {definition : Definition} {name : String}
    (h : definition.name ≠ name) : (table.install definition).find? name = table.find? name := by
  obtain ⟨entries⟩ := table
  unfold find? install
  dsimp only
  induction entries with
  | nil => simp [place, h]
  | cons head tail ih =>
    rw [place]
    by_cases hn : head.name = definition.name
    · simp [hn, h]
    · rw [if_neg hn, List.find?_cons, List.find?_cons, ih]

theorem find?_erase (table : Table) (erased name : String) :
    (table.erase erased).find? name = if erased = name then none else table.find? name := by
  unfold find? erase
  rw [List.find?_filter]
  split
  · next h => simp [h]
  · next h =>
    congr 1
    funext definition
    by_cases hn : definition.name = name
    · simp [hn, Ne.symm h]
    · simp [hn]

/-- A definition that a name has is kept. -/
theorem or_definition?_of_find? {table : Table} {definition existing : Definition}
    (h : table.find? definition.name = some existing) (name : String) :
    (table.find? name).or ((Act.define definition).definition? name) = table.find? name := by
  by_cases hn : definition.name = name
  · rw [← hn, h, Option.some_or]
  · rw [Act.definition?, if_neg hn, Option.or_none]

/-- Defining a name gives it the definition if it has none. -/
theorem find?_of_define {table made : Table} {definition : Definition}
    (h : table.define definition = .ok made) :
    (Act.define definition).issues table.find? = [] ∧
      ∀ name, made.find? name =
        (table.find? name).or ((Act.define definition).definition? name) := by
  unfold define at h
  split at h
  · next hf =>
    obtain rfl := Except.ok.inj h
    refine ⟨by rw [Act.issues, hf], fun name => ?_⟩
    by_cases hn : definition.name = name
    · rw [← hn, find?_install, hf, Act.definition?, if_pos rfl, Option.none_or]
    · rw [find?_install_of_ne table hn, Act.definition?, if_neg hn, Option.or_none]
  · next existing hf =>
    split at h
    · next he =>
      obtain rfl := Except.ok.inj h
      refine ⟨?_, fun name => (or_definition?_of_find? hf name).symm⟩
      rw [Act.issues, hf]
      exact if_pos he
    · contradiction

/-- Defining a name fails only where it has a definition that does not agree. -/
theorem issues_of_define {table : Table} {definition : Definition} {issue : Issue}
    (h : table.define definition = .error issue) :
    (Act.define definition).issues table.find? = [issue] ∧
      ∀ name, table.find? name =
        (table.find? name).or ((Act.define definition).definition? name) := by
  unfold define at h
  split at h
  · contradiction
  · next existing hf =>
    split at h
    · contradiction
    · next he =>
      obtain rfl := Except.error.inj h
      refine ⟨?_, fun name => (or_definition?_of_find? hf name).symm⟩
      rw [Act.issues, hf]
      exact if_neg he

end Table

/-! ## Malformed lines -/

/-- A malformed line is an error, and no conflict. -/
theorem Act.category_of_ofLine? {line : Line} {issue : Issue}
    (h : Act.ofLine? line = some (.malformed issue)) :
    issue.fault.category = .invalidDefinition ∨ issue.fault.category = .malformedDirective := by
  unfold ofLine? at h
  split at h
  · split at h
    · obtain h := Option.some.inj h
      unfold ofDefine at h
      split at h
      · contradiction
      · next hp =>
        obtain rfl := malformed.inj h
        exact .inl (category_of_parse hp)
    split at h
    · obtain h := Option.some.inj h
      unfold ofUndefine at h
      split at h
      · contradiction
      · obtain rfl := malformed.inj h
        exact .inr rfl
    · contradiction
  · contradiction

/-! ## Runs -/

variable {files : Files.Tree} {options : Options} {frame : Frame}

theorem isInclude_of_act {line : Line} {act : Act} (h : Act.ofLine? line = some act) :
    line.isDirective ∧ ¬line.isInclude := by
  obtain ⟨tokens, stop⟩ := line
  unfold Act.ofLine? at h
  dsimp only at h
  split at h
  · next hash keyword operands =>
    have hkeyword : hash.kind = .directiveHash ∧ keyword.text ≠ "include" := by
      split at h
      · next hd => exact ⟨hd.1, fun he => absurd (hd.2.2.symm.trans he) (by decide)⟩
      · split at h
        · next hu => exact ⟨hu.1, fun he => absurd (hu.2.2.symm.trans he) (by decide)⟩
        · contradiction
    refine ⟨decide_eq_true hkeyword.1, fun hi => hkeyword.2 ?_⟩
    unfold Line.isInclude at hi
    rw [Bool.and_eq_true] at hi
    exact of_decide_eq_true hi.2
  · contradiction

/-- An act was carried out: it reported what it reports, and left the definitions that it leaves. -/
def Act.Done (act : Act) (before : Session) (obeyed : List Issue × Session) : Prop :=
  obeyed.1 = act.issues before.macros.find? ∧
    ∀ name, obeyed.2.macros.find? name =
      if act = .undefine name then none
      else (before.macros.find? name).or (act.definition? name)

theorem done_define (session : Session) {hash keyword : Token} {operands : List Token}
    (hk : keyword.kind = .identifier) (ht : keyword.text = "define") (stop : Position) :
    (Act.ofDefine keyword operands).Done session
      (obey files options frame session ⟨hash :: keyword :: operands, stop⟩) := by
  unfold Act.Done obey Directive.execute Directive.define Act.ofDefine
  simp only [hk, ht, if_true]
  cases hp : Definition.parse keyword.position operands with
  | error issue => exact ⟨rfl, fun name => Option.or_none.symm⟩
  | ok definition =>
    cases hm : session.macros.define definition with
    | error issue =>
      simp only [bind, Except.bind, hm]
      obtain ⟨hi, hf⟩ := Table.issues_of_define hm
      exact ⟨hi.symm, hf⟩
    | ok made =>
      simp only [bind, Except.bind, hm]
      obtain ⟨hi, hf⟩ := Table.find?_of_define hm
      exact ⟨hi.symm, hf⟩

theorem done_undefine (session : Session) {hash keyword : Token} {operands : List Token}
    (hk : keyword.kind = .identifier) (ht : keyword.text = "undef") (stop : Position) :
    (Act.ofUndefine keyword operands).Done session
      (obey files options frame session ⟨hash :: keyword :: operands, stop⟩) := by
  unfold Act.Done obey Directive.execute Directive.undefine Act.ofUndefine
  simp only [hk, ht, if_true]
  cases operands with
  | nil => exact ⟨rfl, fun name => Option.or_none.symm⟩
  | cons first others =>
    by_cases hf : first.kind = .identifier
    · simp only [hf, List.head?_cons, Option.filter_some, decide_true, if_true]
      refine ⟨rfl, fun name => ?_⟩
      simp only [String.reduceEq, if_false, Outcome.changed, Table.find?_erase,
        Act.undefine.injEq, Act.definition?, Option.or_none]
    · simp only [hf, List.head?_cons, Option.filter_some, decide_false, if_false]
      exact ⟨rfl, fun name => Option.or_none.symm⟩

variable (files options frame) in
/-- A line is obeyed as its act. -/
theorem done_of_act (session : Session) {line : Line} {act : Act}
    (h : Act.ofLine? line = some act) :
    act.Done session (obey files options frame session line) := by
  obtain ⟨tokens, stop⟩ := line
  rcases tokens with _ | ⟨hash, _ | ⟨keyword, operands⟩⟩
  · simp [Act.ofLine?] at h
  · simp [Act.ofLine?] at h
  · unfold Act.ofLine? at h
    dsimp only at h
    split at h
    · next hd =>
      obtain rfl := Option.some.inj h
      exact done_define session hd.2.1 hd.2.2 stop
    split at h
    · next hu =>
      obtain rfl := Option.some.inj h
      exact done_undefine session hu.2.1 hu.2.2 stop
    · contradiction

variable (files options) in
/-- Lines leave the definitions in force behind their acts, and what comes out of them is what the
acts report. A line without tokens does nothing. -/
theorem readLines_of_acts (enter : SourceFile.Enter) (table : Table) {still moved : Session}
    {before : List Act} {lines : List Line} (h : Moved frame still moved)
    (hl : ∀ line ∈ lines, line.tokens ≠ [] → (Act.ofLine? line).isSome)
    (hb : still.macros.find? = inForce table before) (behind : List Item) :
    let reading := SourceFile.readLines files options enter moved lines
    reading.session.macros.find? = inForce table (before ++ lines.filterMap Act.ofLine?) ∧
      Emission.expandFrom none (reading.items ++ behind) =
        (reports table before (lines.filterMap Act.ofLine?)).map .issue ++
          Emission.expandFrom none behind := by
  induction lines generalizing still moved before with
  | nil =>
    refine ⟨?_, rfl⟩
    rw [SourceFile.readLines, h.macros, List.filterMap_nil, List.append_nil]
    exact hb
  | cons line rest ih =>
    have hrest : ∀ line ∈ rest, line.tokens ≠ [] → (Act.ofLine? line).isSome :=
      fun l hm => hl l (List.mem_cons_of_mem _ hm)
    rw [SourceFile.readLines]
    cases ha : Act.ofLine? line with
    | none =>
      have ht : line.tokens = [] := by
        by_contra hne
        simpa [ha] using hl line List.mem_cons_self hne
      have hd : ¬line.isDirective := by simp [Line.isDirective, ht]
      have hline := readLine_moved files options enter (h.moveTo line.stop)
        (mt Line.isDirective_of_isInclude hd)
      rw [if_neg hd, ht] at hline
      rw [List.filterMap_cons_none ha, ht]
      obtain ⟨hs, he⟩ := ih (h.moveTo line.stop) hrest hb
      simp only [hline]
      exact ⟨hs, (Emission.expandFrom_blank _ _).trans he⟩
    | some act =>
      have hi := isInclude_of_act ha
      have hline := readLine_moved files options enter (h.moveTo line.stop) hi.2
      rw [if_pos hi.1] at hline
      obtain ⟨next, hn, hr⟩ := hline
      obtain ⟨hraised, hfound⟩ := done_of_act files options frame still ha
      have hnext : (obey files options frame still line).2.macros.find? =
          inForce table (before ++ [act]) := by
        funext name
        rw [hfound, hb, inForce_concat]
      obtain ⟨hs, he⟩ := ih hn hrest hnext
      rw [List.filterMap_cons_some ha]
      simp only [hr]
      refine ⟨?_, ?_⟩
      · rw [List.append_cons]
        exact hs
      · rw [hraised, hb, reports, List.map_append, List.append_assoc, ← he]
        exact (congrArg _ (List.append_assoc _ _ _)).trans (Emission.expandFrom_issues none _ _)

/-- The acts of the lines of a file. -/
def actsOf (options : Options) (frame : Frame) (source : String) : List Act :=
  (linesOf options frame source).lines.filterMap Act.ofLine?

/-- The definition in force is the first of its epoch: a run over a file that only defines and
undefines macros, well or not, leaves to every name the definition that its last epoch began with,
and reports the conflicts and the malformed lines, each one once and nothing else. -/
theorem definition_in_force (files : Files.Tree) (options : Options) (session : Session)
    (frame : Frame) (source : String)
    (hl : (lex true options.trigraphs frame.filename source).issue = none)
    (ha : ∀ line ∈ (linesOf options frame source).lines,
      line.tokens ≠ [] → (Act.ofLine? line).isSome) :
    let run := Run.ofFrame files options session frame source
    let acts := actsOf options frame source
    (∀ name, run.session.macros.find? name = inForce session.macros acts name) ∧
      run.issues = reports session.macros [] acts ∧
      ∀ issue, .malformed issue ∈ acts → issue.fault.category = .invalidDefinition ∨
        issue.fault.category = .malformedDirective := by
  intro run acts
  have hi : ∀ line ∈ (linesOf options frame source).lines, ¬line.isInclude := by
    intro line hm
    by_cases ht : line.tokens = []
    · simp [Line.isInclude, ht]
    · obtain ⟨act, hact⟩ := Option.isSome_iff_exists.1 (ha line hm ht)
      exact (isInclude_of_act hact).2
  obtain ⟨enter, stop, -, hread⟩ := exists_read files session hl hi
  let reading := SourceFile.readLines files options enter (session.enter frame)
    (linesOf options frame source).lines
  let final := (reading.session.moveTo stop).leave
  have hbase : session.macros.find? = inForce session.macros [] :=
    funext fun name => (inForce_nil session.macros name).symm
  obtain ⟨hs, he⟩ := readLines_of_acts files options enter session.macros
    (moved_enter session frame) ha hbase [.text final [.endOfFile stop]]
  refine ⟨fun name => ?_, ?_, fun issue hm => ?_⟩
  · simp only [run, Run.ofFrame]
    rw [hread]
    exact congrFun hs name
  · simp only [run, Run.issues, Run.ofFrame, Run.ofReading]
    rw [Emission.filterMap_issue?_mergeFrom, hread, he, List.filterMap_append,
      Emission.expandFrom_endOfFile, List.filterMap_map]
    exact (List.append_nil _).trans List.filterMap_some
  · obtain ⟨line, -, hline⟩ := List.mem_filterMap.1 hm
    exact Act.category_of_ofLine? hline

/-- A file with two epochs of one name, a conflict in the first and a malformed line. -/
def epochSource : String :=
  "#define A 1\n#define A 1 // again\n#define A 2\n#undef A\n\n#define A 3\n#define\n#undef B\n"

/-- Where something stands in that file. -/
def epochPlace (line column : Nat) : Position := ⟨"<input>", line, column⟩

/-- The one definition in force behind it is that of the second epoch. -/
theorem definition_in_force_epochs :
    (lex true ({} : Options).trigraphs sampleFrame.filename epochSource).issue = none ∧
      (∀ line ∈ (linesOf {} sampleFrame epochSource).lines,
        line.tokens ≠ [] → (Act.ofLine? line).isSome) ∧
      let run := Run.ofFrame ⟨.directory [], []⟩ {} { macros := ∅, stack := .empty 200 }
        sampleFrame epochSource
      run.session.macros.find? "A" = some
        ⟨"A", none, [⟨.number, "3", epochPlace 6 11, ∅, false⟩], epochPlace 6 9⟩ ∧
      run.issues = [.placed (.redefinition "A" (epochPlace 1 9)) (epochPlace 3 9),
        .placed .nameMissing (epochPlace 7 2)] := by
  have hl : (lex true ({} : Options).trigraphs sampleFrame.filename epochSource).issue = none := by
    decide +kernel
  have ha : ∀ line ∈ (linesOf {} sampleFrame epochSource).lines,
      line.tokens ≠ [] → (Act.ofLine? line).isSome := by decide +kernel
  obtain ⟨hf, hi, -⟩ := definition_in_force ⟨.directory [], []⟩ {}
    { macros := ∅, stack := .empty 200 } sampleFrame epochSource hl ha
  refine ⟨hl, ha, (hf "A").trans ?_, hi.trans ?_⟩
  · decide +kernel
  · decide +kernel

end Macro

end CPreprocessor

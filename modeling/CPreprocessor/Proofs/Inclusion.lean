import CPreprocessor.Proofs.IncludeLine
import CPreprocessor.Proofs.Reader
import CPreprocessor.Proofs.Unplaced.Run

/-!
# Including a file and pasting its text

The line that includes a file is read as the lines of that file would be in its place: they change
the macros at most, and nothing else that is read again.

* `PlainRow`, `readRows_plain`: lines that include nothing and hold no pragma are read alike
  whatever files are open.
* `Opens`, `readLine_opened`: a line that includes such a file.
* `inclusion_eq_pasting`: the tokens and the macros of a run that includes a file are, but for the
  places, those of a run over the pasted text.
-/

namespace CPreprocessor

open Expansion Include

/-- Whether the line is a pragma. -/
def Line.isPragma (line : Line) : Bool :=
  match line.tokens with
  | hash :: keyword :: _ => hash.kind = .directiveHash && decide (Directive.IsPragma keyword)
  | _ => false

namespace Inclusion

variable {files : Files.Tree} {options : Options} {session : Session}

/-! ## Lines that are read alike in every file -/

/-- The line, if it is a directive, includes no file and is no pragma. -/
def PlainRow (row : List Token) : Prop :=
  ∀ hash keyword operands, row = hash :: keyword :: operands → hash.kind = .directiveHash →
    ¬Directive.Includes keyword ∧ ¬Directive.IsPragma keyword

theorem follow_of_stays (enter : SourceFile.Enter) {outcome : Outcome}
    (h : Directive.Stays outcome.result) :
    (SourceFile.follow enter outcome).unplaced = ⟨[], outcome.session.unplaced, none⟩ := by
  obtain ⟨raised, next, result⟩ := outcome
  obtain ⟨issue, rfl⟩ | rfl := h
  · rfl
  · rfl

/-- The line is read alike whatever is open: it gives `items`, and changes the macros to `defined`
and nothing else. -/
def ReadsAlike (files : Files.Tree) (options : Options) (macros : Macro.Table) (once : List String)
    (row : List Token) (items : List Item) (defined : Macro.Table) : Prop :=
  ∀ (enter : SourceFile.Enter) (stack : Stack), stack.top?.isSome → stack.unplaced = stack →
    (SourceFile.readLine files options enter { macros, stack, once } row).unplaced =
      ⟨items, { macros := defined, stack, once }, none⟩

theorem readsAlike_text (macros : Macro.Table) (once : List String) {row : List Token}
    (hk : ∀ first ∈ row.head?, first.kind ≠ .directiveHash) :
    ReadsAlike files options macros once row ([Item.ofMacros macros row].filterMap Item.unplaced?)
      macros.unplaced := by
  intro enter stack ht hs
  have hread : SourceFile.readLine files options enter { macros, stack, once } row =
      ⟨[.text { macros, stack, once } row], { macros, stack, once }, none⟩ := by
    cases row with
    | nil => rfl
    | cons first rest =>
      obtain ⟨frame, ht⟩ := Option.isSome_iff_exists.1 ht
      simp only [SourceFile.readLine, ht, if_neg (hk first rfl)]
  rw [hread]
  refine congrArg₂ (Reading.mk · · none) ?_ ?_
  · cases row <;> rfl
  · simp only [Session.unplaced, hs]

theorem readsAlike_hash (macros : Macro.Table) (once : List String) {hash : Token}
    (hk : hash.kind = .directiveHash) :
    ReadsAlike files options macros once [hash] [] macros.unplaced := by
  intro enter stack ht hs
  obtain ⟨frame, ht⟩ := Option.isSome_iff_exists.1 ht
  simp only [SourceFile.readLine, ht, if_pos hk, Reading.unplaced, Session.unplaced, hs]
  rfl

theorem readsAlike_directive (macros : Macro.Table) (once : List String)
    {hash keyword : Token} {operands : List Token} (hk : hash.kind = .directiveHash)
    (hi : ¬Directive.Includes keyword) (hp : ¬Directive.IsPragma keyword) :
    ∃ defined, ReadsAlike files options macros once (hash :: keyword :: operands) [] defined := by
  -- What the directive does is settled in a session where nothing is open.
  let bare : Session := { macros, stack := .empty 0 }
  let frame : Frame := ⟨"", "", none, nowhere⟩
  let still := Directive.execute files options bare frame hash keyword operands
  have he : Directive.Effect bare keyword operands still := Directive.effect_execute
  obtain ⟨-, hstay⟩ := he.stays hi
  refine ⟨still.session.macros.unplaced, fun enter stack ht hs => ?_⟩
  obtain ⟨top, ht⟩ := Option.isSome_iff_exists.1 ht
  have hmoved := Directive.execute_of_not_isPragma files options bare frame hash operands hi hp
    { macros, stack, once } top
  have hresult := congrArg (·.result) hmoved
  simp only [SourceFile.readLine, ht, if_pos hk]
  rw [Reading.unplaced_raising]
  refine (follow_of_stays enter (hresult ▸ hstay)).trans ?_
  refine congrArg (Reading.mk [] · none) ((congrArg (·.session.unplaced) hmoved).trans ?_)
  simp only [Session.unplaced, hs]
  rfl

/-- A plain line is read alike whatever is open, and changes the macros at most. -/
theorem readLine_plain (files : Files.Tree) (options : Options) {row : List Token}
    (hr : PlainRow row) (macros : Macro.Table) (once : List String) :
    ∃ items defined, ReadsAlike files options macros once row items defined := by
  cases row with
  | nil =>
    exact ⟨_, _, readsAlike_text macros once fun first hm => absurd hm (Option.not_mem_none first)⟩
  | cons hash rest =>
    by_cases hk : hash.kind = .directiveHash
    · cases rest with
      | nil => exact ⟨_, _, readsAlike_hash macros once hk⟩
      | cons keyword operands =>
        obtain ⟨hi, hp⟩ := hr hash keyword operands rfl hk
        obtain ⟨defined, h⟩ := readsAlike_directive macros once hk hi hp
        exact ⟨[], defined, h⟩
    · refine ⟨_, _, readsAlike_text macros once fun first hm => ?_⟩
      rwa [← Option.some.inj hm]

/-- Plain lines are read alike whatever is open, and change the macros at most. -/
theorem readRows_plain (files : Files.Tree) (options : Options) {lines : List (List Token)}
    (hr : ∀ row ∈ lines, PlainRow row) (macros : Macro.Table) (once : List String) :
    ∃ items defined, ∀ (enter : SourceFile.Enter) (stack : Stack), stack.top?.isSome →
      stack.unplaced = stack →
      readRows files options enter { macros, stack, once } lines =
        ⟨items, { macros := defined, stack, once }, none⟩ := by
  induction lines generalizing macros with
  | nil => exact ⟨[], macros, fun _ _ _ _ => rfl⟩
  | cons row rest ih =>
    obtain ⟨shown, defined, hfirst⟩ :=
      readLine_plain files options (hr row List.mem_cons_self) macros once
    obtain ⟨items, final, hrest⟩ := ih (fun row hm => hr row (List.mem_cons_of_mem _ hm)) defined
    refine ⟨shown ++ items, final, fun enter stack ht hs => ?_⟩
    rw [readRows, hfirst enter stack ht hs, Reading.andThen_none, hrest enter stack ht hs]
    rfl

/-! ## The number of files that may be open -/

/-- The limit on open files stays as it is. -/
def KeepsLimit (enter : SourceFile.Enter) : Prop :=
  ∀ session frame source, (enter session frame source).session.stack.limit = session.stack.limit

theorem limit_andThen {reading : Reading} {next : Session → Reading}
    (h : (next reading.session).session.stack.limit = reading.session.stack.limit) :
    (reading.andThen next).session.stack.limit = reading.session.stack.limit := by
  cases hh : reading.halt with
  | some fault => rw [Reading.andThen_of_some hh]
  | none => rw [Reading.andThen_of_none hh]; exact h

theorem limit_readLine {enter : SourceFile.Enter} (he : KeepsLimit enter) (session : Session)
    (tokens : List Token) :
    (SourceFile.readLine files options enter session tokens).session.stack.limit =
      session.stack.limit := by
  unfold SourceFile.readLine
  split
  · next hash rest frame _ =>
    split
    · split
      · rfl
      · next keyword operands =>
        have hstack : (Directive.execute files options session frame hash keyword
            operands).session.stack = session.stack := Directive.effect_execute.stack
        dsimp only [Reading.raising, Reading.after, SourceFile.follow]
        split
        · exact congrArg Stack.limit hstack
        · exact congrArg Stack.limit hstack
        · exact congrArg Stack.limit hstack
        · exact (he _ _ _).trans (congrArg Stack.limit hstack)
    · rfl
  · rfl

theorem limit_readLines {enter : SourceFile.Enter} (he : KeepsLimit enter) (session : Session)
    (lines : List Line) :
    (SourceFile.readLines files options enter session lines).session.stack.limit =
      session.stack.limit := by
  induction lines generalizing session with
  | nil => rfl
  | cons line rest ih =>
    rw [SourceFile.readLines]
    refine (limit_andThen (ih _)).trans ((limit_readLine he _ _).trans ?_)
    exact Stack.limit_moveTo session.stack line.stop

theorem keepsLimit_readFile (files : Files.Tree) (options : Options) (room : Nat) :
    KeepsLimit (SourceFile.readFile files options room) := by
  induction room with
  | zero => exact fun _ _ _ => rfl
  | succ room ih =>
    intro session frame source
    have hlines (lines : List Line) :
        (SourceFile.readLines files options (SourceFile.readFile files options room)
          (session.enter frame) lines).session.stack.limit = session.stack.limit :=
      limit_readLines ih _ lines
    unfold SourceFile.readFile
    refine (limit_andThen ?_).trans (hlines _)
    cases (Lines.ofTokens (lex true options.trigraphs frame.filename source).tokens).finish with
    | none => rfl
    | some position => exact Stack.limit_moveTo _ position

/-! ## The file that a line includes -/

/-- The file that the directive on a line opens, in the session that the line is read in. -/
def opened? (files : Files.Tree) (options : Options) (session : Session) (tokens : List Token) :
    Option Included :=
  match tokens, session.stack.top? with
  | hash :: keyword :: operands, some frame =>
    if hash.kind = .directiveHash then
      match (Directive.execute files options session frame hash keyword operands).result with
      | .ok included => included
      | .error _ => none
    else none
  | _, _ => none

theorem opened?_eq_some {tokens : List Token} {included : Included}
    (h : opened? files options session tokens = some included) :
    ∃ hash keyword operands frame, tokens = hash :: keyword :: operands ∧
      session.stack.top? = some frame ∧ hash.kind = .directiveHash ∧
      (Directive.execute files options session frame hash keyword operands).result =
        .ok (some included) := by
  unfold opened? at h
  split at h
  · next hash keyword operands frame ht =>
    split at h
    · next hk =>
      split at h
      · next hr => exact ⟨hash, keyword, operands, frame, rfl, ht, hk, h ▸ hr⟩
      · contradiction
    · contradiction
  · contradiction

/-- No place is looked at where a file is included by its name in quotes or brackets. -/
theorem placelessLine_of_isHeaderName {below : Session → Frame → String → Prop}
    {tokens : List Token} (h : Directive.isHeaderName (tokens.drop 2))
    (hb : ∀ included ∈ opened? files options session tokens,
      ∀ session, below session included.frame included.source) :
    PlacelessLine files options below session tokens := by
  match tokens, ht : session.stack.top? with
  | hash :: keyword :: operands, some frame =>
    unfold PlacelessLine
    rw [ht]
    refine fun hk => ⟨fun _ => .inl h, fun included hr => hb included ?_ _⟩
    simp only [opened?, ht, if_pos hk, hr, Option.mem_def]
  | hash :: keyword :: operands, none =>
    unfold PlacelessLine
    rw [ht]
    trivial
  | [], _ | [_], _ => trivial

/-- A file is included only where one more may be open than are. -/
theorem depth_lt_of_opened? {tokens : List Token} {included : Included}
    (h : opened? files options session tokens = some included) :
    1 < session.stack.limit := by
  obtain ⟨hash, keyword, operands, frame, rfl, ht, -, hr⟩ := opened?_eq_some h
  have he : Directive.Effect session keyword operands
      (Directive.execute files options session frame hash keyword operands) :=
    Directive.effect_execute
  have hd := Stack.depth_lt_of_obstacle? (he.obstacle? hr)
  rw [he.stack] at hd
  have hpos : 0 < session.stack.depth := by
    refine List.length_pos_iff.2 fun hnil => ?_
    rw [Stack.top?, hnil] at ht
    contradiction
  omega

theorem follow_of_included (enter : SourceFile.Enter) {outcome : Outcome} {included : Included}
    (h : outcome.result = .ok (some included)) :
    let inner := (enter outcome.session included.frame included.source).unplaced
    (SourceFile.follow enter outcome).unplaced =
      ⟨inner.items, inner.session.leave, inner.halt⟩ := by
  obtain ⟨raised, next, result⟩ := outcome
  subst h
  exact congrArg (Reading.mk _ · _) (Session.unplaced_leave _)

/-- An include changes nothing but the trace. -/
theorem unplaced_of_included {keyword : Token} {operands : List Token} {outcome : Outcome}
    {included : Included} (h : Directive.Effect session keyword operands outcome)
    (hr : outcome.result = .ok (some included)) :
    outcome.session.unplaced = session.unplaced := by
  cases h with
  | including => rfl
  | failing | defining | erasing | recording => exact absurd hr nofun

/-- Where a line includes a file of plain lines, reading it is reading them in its place. -/
theorem readLine_opened {room : Nat} {tokens : List Token} {included : Included}
    (hp : PlacelessLine files options (PlacelessFile files options (room + 1)) session tokens)
    (ho : opened? files options session tokens = some included)
    (hr : ∀ row ∈ texts options.trigraphs included.source, PlainRow row) :
    (SourceFile.readLine files options (readTexts files options (room + 1)) session.unplaced
        (tokens.map Token.unplaced)).unplaced =
      readRows files options (readTexts files options (room + 1)) session.unplaced
        (texts options.trigraphs included.source) := by
  obtain ⟨hash, keyword, operands, frame, rfl, ht, hk, hresult⟩ := opened?_eq_some ho
  have hsame := unplaced_of_included Directive.effect_execute hresult
  have hbelow := hp
  unfold PlacelessLine at hbelow
  rw [ht] at hbelow
  have hinner := reflects_readTexts (room + 1) _ _ _ _ rfl ((hbelow hk).2 included hresult)
  obtain ⟨items, defined, hplain⟩ :=
    readRows_plain files options hr session.macros.unplaced session.once
  have htop : session.stack.unplaced.top?.isSome := by
    rw [Stack.top?_unplaced, ht]
    rfl
  have hpush : (session.stack.unplaced.push included.frame.unplaced).unplaced =
      session.stack.unplaced.push included.frame.unplaced := by
    simp [Stack.unplaced, Stack.push, Frame.unplaced]
  have hpasted := hplain (readTexts files options (room + 1)) session.stack.unplaced htop
    (Stack.unplaced_unplaced _)
  have hnested := hplain (readTexts files options room)
    (session.stack.unplaced.push included.frame.unplaced) rfl hpush
  rw [readLine_unplaced (reflects_readTexts (room + 1)) hp]
  simp only [SourceFile.readLine, ht, if_pos hk]
  rw [Reading.unplaced_raising, follow_of_included _ hresult, ← hinner, readTexts,
    Session.unplaced_enter, hsame]
  refine (congrArg (fun inner => Reading.mk inner.items inner.session.leave inner.halt)
    hnested).trans ?_
  exact hpasted.symm

/-! ## Pasting the text of a header -/

theorem plainRow_unplaced {line : Line} (h : ¬line.isInclude ∧ ¬line.isPragma) :
    PlainRow line.unplaced := by
  obtain ⟨tokens, stop⟩ := line
  intro hash keyword operands he hk
  obtain ⟨hash, rest, rfl, rfl, hrest⟩ := List.map_eq_cons_iff.1 he
  obtain ⟨keyword, operands, rfl, rfl, -⟩ := List.map_eq_cons_iff.1 hrest
  have hmark : hash.kind = .directiveHash := hk
  refine ⟨fun ⟨hkind, htext⟩ => h.1 ?_, fun hpragma => h.2 ?_⟩
  · have hkind : keyword.kind = .identifier := hkind
    have htext : keyword.text = "include" := htext
    simp [Line.isInclude, hmark, hkind, htext]
  · have hpragma : Directive.IsPragma keyword := hpragma
    simp [Line.isPragma, hmark, hpragma]

/-- The lines of a text that stands alone come before those of what follows it. -/
theorem texts_append {trigraphs : Bool} {left : String} (h : StandsAlone trigraphs left)
    (right : String) :
    texts trigraphs (left ++ right) = texts trigraphs left ++ texts trigraphs right := by
  obtain ⟨behind, hrows, hright⟩ := rows_append h right
  rw [texts, texts, texts, hrows, List.filter_append]
  obtain hright | hright := hright <;> rw [hright]
  rfl

/-- No place is looked at in lines where none is in the first ones and, if reading comes there, in
the rest behind them. -/
theorem placelessLines_append {enter : SourceFile.Enter} {below : Session → Frame → String → Prop}
    {front behind : List Line} :
    PlacelessLines files options enter below session (front ++ behind) ↔
      PlacelessLines files options enter below session front ∧
        let reading := SourceFile.readLines files options enter session front
        reading.halt = none → PlacelessLines files options enter below reading.session behind := by
  induction front generalizing session with
  | nil => exact ⟨fun h => ⟨trivial, fun _ => h⟩, fun h => h.2 rfl⟩
  | cons line rest ih =>
    simp only [List.cons_append, PlacelessLines, SourceFile.readLines, and_assoc]
    refine and_congr_right fun _ => ?_
    cases hh : (SourceFile.readLine files options enter (session.moveTo line.stop)
      line.tokens).halt with
    | some fault => simp [Reading.andThen_of_some hh, hh]
    | none =>
      rw [Reading.andThen_of_none hh]
      simpa [Reading.after] using ih

/-- The file that the line behind the text `above` of a main file includes. -/
def Opens (files : Files.Tree) (options : Options) (session : Session) (frame : Frame)
    (above source : String) (included : Included) : Prop :=
  let lines := (Interleaving.linesOf options frame source).lines
  let count := (Interleaving.linesOf options frame above).lines.length
  let enter := SourceFile.readFile files options (options.depthLimit - 1)
  let reading := SourceFile.readLines files options enter (session.enter frame) (lines.take count)
  reading.halt = none ∧ ∃ line ∈ lines[count]?,
    opened? files options (reading.session.moveTo line.stop) line.tokens = some included

instance (files : Files.Tree) (options : Options) (session : Session) (frame : Frame)
    (above source : String) (included : Included) :
    Decidable (Opens files options session frame above source included) :=
  @instDecidableAnd _ _ inferInstance (Option.decidableExistsMem (_ : Option Line))

variable {frame : Frame} {above header below name : String} {path : Files.Path}

variable (below) in
/-- The include line is the line behind the text above it. -/
theorem rows_above (ha : StandsAlone options.trigraphs above)
    (hn : IsLine options.trigraphs frame.filename (includeLine name)) :
    ∃ row more, rows options.trigraphs (above ++ includeLine name ++ below) =
        rows options.trigraphs above ++ row :: more ∧
      texts options.trigraphs (includeLine name) = [row] := by
  obtain ⟨halone, hash, rest, hrow⟩ := rows_includeLine hn
  obtain ⟨behind, hwhole, hright⟩ := rows_append ha (includeLine name ++ below)
  obtain ⟨more, hline, -⟩ := rows_append halone below
  rw [hrow] at hline
  refine ⟨hash :: rest, more, ?_, by rw [texts, hrow]; rfl⟩
  rw [String.append_assoc, hwhole]
  obtain hright | hright := hright
  · rw [← hright, hline]
    rfl
  · rw [hline] at hright
    cases (List.cons.inj hright).1

/-- The lines of a main file are those above the include line, that line, and those below. -/
theorem lines_above {line : Line} (ha : StandsAlone options.trigraphs above)
    (hn : IsLine options.trigraphs frame.filename (includeLine name)) :
    let lines := (Interleaving.linesOf options frame (above ++ includeLine name ++ below)).lines
    let count := (Interleaving.linesOf options frame above).lines.length
    line ∈ lines[count]? →
      (lines.take count).map Line.unplaced = rows options.trigraphs above ∧
        texts options.trigraphs (includeLine name) = [line.unplaced] ∧
        lines = lines.take count ++ line :: lines.drop (count + 1) := by
  intro lines count hline
  obtain ⟨row, more, hrows, hrow⟩ := rows_above below ha hn
  have hlines : lines.map Line.unplaced = rows options.trigraphs above ++ row :: more :=
    (unplaced_linesOf options frame _).trans hrows
  have hcount : (rows options.trigraphs above).length = count := by
    rw [← unplaced_linesOf options frame above, List.length_map]
  refine ⟨?_, ?_, ?_⟩
  · rw [List.map_take, hlines, ← hcount, List.take_left]
  · have hget : (lines.map Line.unplaced)[count]? = some line.unplaced := by
      rw [List.getElem?_map, Option.mem_def.1 hline]
      rfl
    rw [hlines, ← hcount, List.getElem?_append_right (Nat.le_refl _), Nat.sub_self] at hget
    rw [hrow, ← Option.some.inj hget]
  · obtain ⟨hlt, hget⟩ := List.getElem?_eq_some_iff.1 (Option.mem_def.1 hline)
    rw [← hget, ← List.drop_eq_getElem_cons hlt, List.take_append_drop]

/-- A main file includes another one only where two may be open. -/
theorem limit_of_opens {source : String} {included : Included}
    (hs : session.stack = .empty options.depthLimit)
    (ho : Opens files options session frame above source included) : 1 < options.depthLimit := by
  obtain ⟨-, line, -, hopen⟩ := ho
  have hlimit := depth_lt_of_opened? hopen
  rw [Session.moveTo, Stack.limit_moveTo, limit_readLines (keepsLimit_readFile files options _),
    Session.enter, hs]
    at hlimit
  exact hlimit

/-- What reading without places makes of the two main files. -/
theorem readTexts_pasted (hs : session.stack = .empty options.depthLimit)
    (hn : IsLine options.trigraphs frame.filename (includeLine name))
    (ha : StandsAlone options.trigraphs above) (hh : StandsAlone options.trigraphs header)
    (hp : ∀ row ∈ texts options.trigraphs header, PlainRow row)
    (ho : Opens files options session frame above (above ++ includeLine name ++ below)
      ⟨path, header⟩)
    (hfile : PlacelessFile files options options.depthLimit session frame
      (above ++ includeLine name ++ below)) :
    readTexts files options options.depthLimit session frame
        (above ++ includeLine name ++ below) =
      readTexts files options options.depthLimit session frame (above ++ header ++ below) := by
  have hlimit := limit_of_opens hs ho
  obtain ⟨room, hroom⟩ : ∃ room, options.depthLimit = room + 2 :=
    ⟨options.depthLimit - 2, by omega⟩
  have hless : options.depthLimit - 1 = room + 1 := by omega
  obtain ⟨hhalt, line, hline, hopen⟩ := ho
  obtain ⟨hfront, hrow, hsplit⟩ := lines_above ha hn hline
  obtain ⟨halone, -⟩ := rows_includeLine hn
  rw [hless] at hhalt hopen
  rw [hroom] at hfile ⊢
  unfold PlacelessFile at hfile
  rw [hsplit] at hfile
  obtain ⟨hplaceless, hbehind⟩ := placelessLines_append.1 hfile
  obtain ⟨hinclude, -⟩ := hbehind hhalt
  have habove := readLines_unplaced (reflects_readTexts (room + 1)) hplaceless
  rw [hfront] at habove
  have hopened := readLine_opened hinclude hopen hp
  rw [Session.unplaced_moveTo] at hopened
  rw [readTexts, readTexts, String.append_assoc, String.append_assoc, texts_append ha,
    texts_append ha, texts_append halone, texts_append hh, hrow,
    readRows_append _ _ (texts options.trigraphs above) ([line.unplaced] ++ _),
    readRows_append _ _ (texts options.trigraphs above) (texts options.trigraphs header ++ _)]
  rw [texts, habove]
  have hwhole : (SourceFile.readLines files options (SourceFile.readFile files options (room + 1))
      (session.enter frame) _).unplaced.halt = none := hhalt
  rw [Reading.andThen_of_none hwhole, Reading.andThen_of_none hwhole]
  refine congrArg (Reading.after _) ?_
  rw [List.singleton_append, readRows, readRows_append]
  exact congrArg (fun first : Reading => first.andThen fun session => readRows files options
    (readTexts files options (room + 1)) session (texts options.trigraphs below)) hopened

/-- Including a header is pasting its text: where the line `#include "name"` behind the text
`above` leads to a file with the text `header`, which includes no file itself and holds no pragma,
the tokens that come out are the same but for their places as with that text in place of the line,
and so are the macros behind the main file. The texts may be cut anywhere between two lines, in the
middle of a call as well, and the one `below` is any. -/
theorem inclusion_eq_pasting (files : Files.Tree) (options : Options) (session : Session)
    (frame : Frame) {above header below name : String} {path : Files.Path}
    (hs : session.stack = .empty options.depthLimit)
    (hn : IsLine options.trigraphs frame.filename (includeLine name))
    (ha : Passage options.trigraphs frame.filename above)
    (hh : Passage options.trigraphs path.render header)
    (hp : ∀ line ∈ (Interleaving.linesOf options (Included.frame ⟨path, header⟩) header).lines,
      ¬line.isInclude ∧ ¬line.isPragma)
    (ho : Opens files options session frame above (above ++ includeLine name ++ below)
      ⟨path, header⟩)
    (hi : Run.Placeless files options session frame (above ++ includeLine name ++ below))
    (ht : Run.Placeless files options session frame (above ++ header ++ below)) :
    let included := Run.ofFrame files options session frame (above ++ includeLine name ++ below)
    let pasted := Run.ofFrame files options session frame (above ++ header ++ below)
    included.tokens.map Token.unplaced = pasted.tokens.map Token.unplaced ∧
      included.session.macros.names = pasted.session.macros.names ∧
      ∀ name left right, included.session.macros.find? name = some left →
        pasted.session.macros.find? name = some right → left.isEquivalent right := by
  intro included pasted
  have hplain : ∀ row ∈ texts options.trigraphs header, PlainRow row := by
    intro row hm
    have hrow := List.mem_of_mem_filter hm
    rw [← unplaced_linesOf options (Included.frame ⟨path, header⟩)] at hrow
    obtain ⟨line, hline, rfl⟩ := List.mem_map.1 hrow
    exact plainRow_unplaced (hp line hline)
  have hread := readTexts_pasted hs hn ha.standsAlone hh.standsAlone hplain ho hi.directives
  obtain ⟨htokens, hmacros⟩ := Run.unplaced_ofFrame hi
  obtain ⟨htokens', hmacros'⟩ := Run.unplaced_ofFrame ht
  have hsame : included.session.macros.unplaced = pasted.session.macros.unplaced := by
    rw [hmacros, hmacros', hread]
  refine ⟨by rw [htokens, htokens', hread], ?_, fun name left right hl hr => ?_⟩
  · rw [← Macro.Table.names_unplaced, hsame, Macro.Table.names_unplaced]
  · have hfind := congrArg (·.find? name) hsame
    simp only [Macro.Table.find?_unplaced, hl, hr, Option.map_some] at hfind
    rw [← Macro.Definition.isEquivalent_unplaced, Option.some.inj hfind]
    simp [Macro.Definition.isEquivalent]

/-! ## A call across the end of a header -/

/-- A file in which a call of a macro without parameters begins. -/
def sampleAbove : String := "#define f() 0\nf(\n"

/-- A header in which that call ends. -/
def sampleHeader : String := ")\n"

/-- A file system with the header. -/
def sampleFiles : Files.Tree := ⟨.directory [("h", .file [41, 10])], []⟩

/-- The path of the header. -/
def samplePath : Files.Path := ⟨.root, ["h"]⟩

/-- The frame of the main file. -/
def sampleFrame : Frame := ⟨"/m", "m", some ⟨.root, []⟩, .start "m"⟩

/-- The session before the main file. -/
def sampleSession : Session := { macros := ∅, stack := .empty 200 }

/-- The macro that the main file defines. -/
def sampleMacro : Macro.Definition :=
  ⟨"f", some ⟨[], false⟩, [{ kind := .number, text := "0", position := ⟨"m", 1, 13⟩ }],
    ⟨"m", 1, 9⟩⟩

/-- The beginning of the call. -/
def sampleHead : Head :=
  ⟨sampleMacro, ⟨[], false⟩, { kind := .identifier, text := "f", position := ⟨"m", 2, 1⟩ }⟩

/-- The call, as far as it stands in the main file. -/
def sampleCall : Suspended :=
  ⟨sampleHead, [{ kind := .punctuator, text := "(", position := ⟨"m", 2, 2⟩ }]⟩

/-- The texts of a run in which the call ends at a given place. -/
def sampleTexts (place : Position) : List (Macro.Table × List Token) :=
  [(⟨[sampleMacro]⟩, sampleHead.site :: sampleCall.read),
    (⟨[sampleMacro]⟩, [{ kind := .punctuator, text := ")", position := place }]),
    (⟨[sampleMacro]⟩, [.endOfFile ⟨"m", 4, 1⟩])]

theorem placelessTexts_sample (place : Position) : PlacelessTexts none (sampleTexts place) := by
  let table : Macro.Table := ⟨[sampleMacro]⟩
  let closing : Token := { kind := .punctuator, text := ")", position := place }
  have hopen : step table true sampleHead.site sampleCall.read = .wait sampleCall := by
    decide +kernel
  have hclose : sampleHead.step true (sampleCall.read ++ [closing]) =
      .invoke ⟨sampleMacro, sampleHead.site, closing, []⟩ [] := rfl
  obtain ⟨produced, hk, hresult⟩ : ∃ produced : Token, produced.kind ≠ .identifier ∧
      (Invocation.result ⟨sampleMacro, sampleHead.site, closing, []⟩ table).2 = [produced] :=
    ⟨_, (by decide : Token.Kind.number ≠ .identifier), rfl⟩
  have hfirst : feed table true none (sampleHead.site :: sampleCall.read) =
      ⟨[], some sampleCall⟩ := by
    rw [feed, drain_cons, hopen]
    rfl
  have hsecond : (feed table true (some sampleCall) [closing]).held = none := by
    rw [feed_some]
    change ((sampleHead.step true (sampleCall.read ++ [closing])).proceed _ _ _).held = none
    rw [hclose, Step.proceed, Progress.held_after, hresult, List.append_nil, drain_cons,
      passes_of_kind hk, Step.proceed, drain_nil]
    rfl
  refine ⟨.cons (by decide +kernel) ?_, ?_⟩
  · rw [hopen]
    exact .wait _ _ _
  rw [hfirst]
  refine ⟨?_, ?_⟩
  · change PlacelessBehind _ _ _ (sampleHead.step true (sampleCall.read ++ [closing]))
    rw [hclose]
    refine .invoke _ (fun _ hm => absurd hm List.not_mem_nil) ?_
    rw [hresult]
    exact placeless_of_kind hk true
  rw [hsecond]
  exact ⟨placeless_of_kind (by decide) true, trivial⟩

theorem placeless_pasted : Run.Placeless sampleFiles {} sampleSession sampleFrame
    (sampleAbove ++ sampleHeader ++ "") where
  directives := placelessLines_of_not_isInclude (by decide +kernel)
  text := by
    have hread : (SourceFile.read sampleFiles {} sampleSession sampleFrame
        (sampleAbove ++ sampleHeader ++ "")).items.filterMap Item.text? =
          sampleTexts ⟨"m", 3, 1⟩ := by decide +kernel
    rw [hread]
    exact placelessTexts_sample _

theorem placeless_including : Run.Placeless sampleFiles {} sampleSession sampleFrame
    (sampleAbove ++ includeLine "h" ++ "") where
  directives := by
    let lines := (Interleaving.linesOf {} sampleFrame (sampleAbove ++ includeLine "h" ++ "")).lines
    have hline : ∃ line ∈ lines[2]?, lines = lines.take 2 ++ [line] ∧
        Directive.isHeaderName (line.tokens.drop 2) ∧
        opened? sampleFiles {} ((SourceFile.readLines sampleFiles {}
          (SourceFile.readFile sampleFiles {} 199) (sampleSession.enter sampleFrame)
          (lines.take 2)).session.moveTo line.stop) line.tokens =
            some ⟨samplePath, sampleHeader⟩ := by decide +kernel
    obtain ⟨line, -, hsplit, hname, hopen⟩ := hline
    change PlacelessLines sampleFiles {} (SourceFile.readFile sampleFiles {} 199)
      (PlacelessFile sampleFiles {} 199) (sampleSession.enter sampleFrame) lines
    rw [hsplit, placelessLines_append]
    refine ⟨placelessLines_of_not_isInclude (by decide +kernel),
      fun _ => ⟨placelessLine_of_isHeaderName hname fun included hm session => ?_,
        fun _ => trivial⟩⟩
    rw [hopen] at hm
    obtain rfl := Option.some.inj hm
    exact placelessLines_of_not_isInclude (by decide +kernel)
  text := by
    have hread : (SourceFile.read sampleFiles {} sampleSession sampleFrame
        (sampleAbove ++ includeLine "h" ++ "")).items.filterMap Item.text? =
          sampleTexts ⟨"/h", 1, 1⟩ := by decide +kernel
    rw [hread]
    exact placelessTexts_sample _

/-- A call that is opened in a file is ended by a header as by the text of the header. -/
theorem inclusion_eq_pasting_open_call :
    let including := sampleAbove ++ includeLine "h" ++ ""
    let pasted := sampleAbove ++ sampleHeader ++ ""
    IsLine false sampleFrame.filename (includeLine "h") ∧
      Passage false sampleFrame.filename sampleAbove ∧
      Passage false samplePath.render sampleHeader ∧
      (∀ line ∈ (Interleaving.linesOf {} (Included.frame ⟨samplePath, sampleHeader⟩)
        sampleHeader).lines, ¬line.isInclude ∧ ¬line.isPragma) ∧
      Opens sampleFiles {} sampleSession sampleFrame sampleAbove including
        ⟨samplePath, sampleHeader⟩ ∧
      Run.Placeless sampleFiles {} sampleSession sampleFrame including ∧
      Run.Placeless sampleFiles {} sampleSession sampleFrame pasted ∧
      (Run.ofFrame sampleFiles {} sampleSession sampleFrame including).tokens.map Token.unplaced =
        (Run.ofFrame sampleFiles {} sampleSession sampleFrame pasted).tokens.map
          Token.unplaced := by
  intro including pasted
  have hn : IsLine false sampleFrame.filename (includeLine "h") :=
    isLine_includeLine false _ (by simp [Source.Inner])
  have ha : Passage false sampleFrame.filename sampleAbove :=
    ⟨by decide +kernel, by decide +kernel, by decide +kernel, by decide +kernel⟩
  have hh : Passage false samplePath.render sampleHeader :=
    ⟨by decide +kernel, by decide +kernel, by decide +kernel, by decide +kernel⟩
  have hp : ∀ line ∈ (Interleaving.linesOf {} (Included.frame ⟨samplePath, sampleHeader⟩)
      sampleHeader).lines, ¬line.isInclude ∧ ¬line.isPragma := by decide +kernel
  have ho : Opens sampleFiles {} sampleSession sampleFrame sampleAbove including
      ⟨samplePath, sampleHeader⟩ := by decide +kernel
  exact ⟨hn, ha, hh, hp, ho, placeless_including, placeless_pasted,
    (inclusion_eq_pasting sampleFiles {} sampleSession sampleFrame rfl hn ha hh hp ho
      placeless_including placeless_pasted).1⟩

end Inclusion

end CPreprocessor

import CPreprocessor.Proofs.Unplaced.Reading

/-!
# Runs without places

What a run produces and the macros it ends with are settled, but for places, by what is read
without places (`Run.unplaced_ofFrame`), as long as no token is replaced by its place.
-/

namespace CPreprocessor

open Expansion

/-- The macros and the tokens of a text. -/
def Item.text? : Item → Option (Macro.Table × List Token)
  | text session tokens => some (session.macros, tokens)
  | issue _ => none

namespace Literal

/-- Merges string literals, one being held back already. The last one comes out if that is the
`whole`, and is lost if more was to come. -/
def mergePart (whole : Bool) (held : Option Token) : List Token → List Token
  | [] => if whole then held.toList else []
  | token :: rest => (absorb held token).1 ++ mergePart whole (absorb held token).2 rest

@[simp] theorem mergePart_true (held : Option Token) (tokens : List Token) :
    mergePart true held tokens = mergeFrom held tokens := by
  induction tokens generalizing held with
  | nil => rfl
  | cons token rest ih => rw [mergePart, mergeFrom, ih]

theorem mergePart_unplaced (whole : Bool) (held : Option Token) (tokens : List Token) :
    mergePart whole (held.map Token.unplaced) (tokens.map Token.unplaced) =
      (mergePart whole held tokens).map Token.unplaced := by
  induction tokens generalizing held with
  | nil => cases whole <;> cases held <;> rfl
  | cons token rest ih =>
    rw [List.map_cons, mergePart, mergePart, absorb_unplaced, List.map_append, ← ih]

end Literal

namespace Emission

@[simp] theorem token?_token (session : Session) (produced : Token) :
    (Emission.token session produced).token? = some produced := rfl

@[simp] theorem token?_issue (raised : Issue) : (Emission.issue raised).token? = none := rfl

theorem filterMap_token?_ofEvent (session : Session) (p : Progress) :
    (p.events.map (ofEvent session)).filterMap token? = p.tokens := by
  rw [List.filterMap_map, Progress.tokens]
  congr 1
  funext event
  cases event <;> rfl

/-- The tokens of texts without their places, lines without tokens left out, are those of the
texts. -/
theorem expandFrom_unplaced {held : Option Suspended} {items : List Item}
    (hw : ∀ suspended ∈ held, suspended.Waits)
    (hp : PlacelessTexts held (items.filterMap Item.text?)) :
    (expandFrom (held.map Suspended.unplaced) (items.filterMap Item.unplaced?)).filterMap token? =
      ((expandFrom held items).filterMap token?).map Token.unplaced := by
  induction items generalizing held with
  | nil => rfl
  | cons item rest ih =>
    match item with
    | .issue raised => exact ih hw hp
    | .text session [] =>
      have hfeed : feed session.macros true held [] = ⟨[], held⟩ := feed_nil hw
      have hrest := hp.2
      rw [hfeed] at hrest
      rw [expandFrom, hfeed]
      exact ih hw hrest
    | .text session (first :: more) =>
      obtain ⟨htext, hrest⟩ := hp
      have hfeed := feed_unplaced htext
      have hwaits := waits_of_mem_held_feed session.macros held (first :: more)
      have hitem : (Item.text session (first :: more)).unplaced? =
          some (.ofMacros session.macros.unplaced ((first :: more).map Token.unplaced)) := rfl
      rw [List.filterMap_cons_some hitem, Item.ofMacros, expandFrom, expandFrom]
      dsimp only
      rw [hfeed, List.filterMap_append, List.filterMap_append, filterMap_token?_ofEvent,
        filterMap_token?_ofEvent, List.map_append, Progress.tokens_unplaced, ← ih hwaits hrest]
      rfl

theorem filterMap_token?_mergeFrom (whole : Bool) (held : Option (Session × Token))
    (emissions : List Emission) : (mergeFrom whole held emissions).filterMap token? =
      Literal.mergePart whole (held.map Prod.snd) (emissions.filterMap token?) := by
  induction emissions generalizing held with
  | nil => cases whole <;> cases held <;> rfl
  | cons first rest ih =>
    cases first with
    | issue raised => exact ih held
    | token session produced =>
      have hready (tokens : List Token) :
          (tokens.map (token session)).filterMap token? = tokens := by
        rw [List.filterMap_map]
        exact List.filterMap_some
      rw [mergeFrom, List.filterMap_append, hready, ih,
        List.filterMap_cons_some (token?_token session produced), Literal.mergePart,
        Option.map_map]
      congr 2
      exact congrFun Option.map_id _

end Emission

namespace Run

/-- No token is replaced by its place in a run over the main file of a frame. -/
structure Placeless (files : Files.Tree) (options : Options) (session : Session)
    (frame : Include.Frame) (source : String) : Prop where
  directives : PlacelessFile files options options.depthLimit session frame source
  text : PlacelessTexts none
    ((SourceFile.read files options session frame source).items.filterMap Item.text?)

/-- The tokens that a reading gives. -/
theorem tokens_ofReading (reading : Reading) :
    (ofReading reading).tokens = Literal.mergePart reading.halt.isNone none
      ((Emission.expandFrom none reading.items).filterMap Emission.token?) :=
  Emission.filterMap_token?_mergeFrom _ none _

/-- What is read of a main file without places, with its end behind it unless it is broken off. -/
def ended (reading : Reading) : Reading :=
  reading.andThen fun final => ⟨[.ofMacros final.macros [.endOfFile nowhere]], final, none⟩

/-- The tokens of a run and the macros behind it are, but for the places, those that reading
without places gives. -/
theorem unplaced_ofFrame {files : Files.Tree} {options : Options} {session : Session}
    {frame : Include.Frame} {source : String}
    (h : Placeless files options session frame source) :
    let reading := ended (readTexts files options options.depthLimit session frame source)
    (ofFrame files options session frame source).tokens.map Token.unplaced =
        (ofReading reading).tokens ∧
      (ofFrame files options session frame source).session.macros.unplaced =
        reading.session.macros := by
  intro reading
  have hread : reading = ended
      (SourceFile.readFile files options options.depthLimit session frame source).unplaced :=
    congrArg ended (reflects_readTexts options.depthLimit _ _ _ _ rfl h.directives)
  -- The session behind the file has left it, which is all that it differs in.
  have hend : ∃ final, (SourceFile.read files options session frame source).unplaced =
      { reading with session := final } ∧ final.macros = reading.session.macros := by
    rw [hread, SourceFile.read]
    generalize SourceFile.readFile files options options.depthLimit session frame source = whole
    obtain ⟨items, session, halt⟩ := whole
    cases halt with
    | some fault => exact ⟨_, rfl, rfl⟩
    | none =>
      refine ⟨session.leave.unplaced, ?_, rfl⟩
      rw [Reading.andThen_none, Reading.unplaced_after]
      rfl
  obtain ⟨final, hunplaced, hmacros⟩ := hend
  have hwaits : ∀ suspended ∈ (none : Option Suspended), suspended.Waits :=
    fun suspended hm => absurd hm (Option.not_mem_none suspended)
  have hexpand := Emission.expandFrom_unplaced hwaits h.text
  refine ⟨?_, ?_⟩
  · have hitems := congrArg Reading.items hunplaced
    have hhalt := congrArg Reading.halt hunplaced
    unfold Reading.unplaced at hitems hhalt
    dsimp only at hitems hhalt
    rw [ofFrame, tokens_ofReading, tokens_ofReading, ← Literal.mergePart_unplaced, ← hexpand,
      hitems, hhalt]
    rfl
  · rw [← hmacros]
    exact congrArg (fun reading => reading.session.macros) hunplaced

end Run

end CPreprocessor

import CPreprocessor.Proofs.Files.Lookup
import CPreprocessor.Proofs.Include.MacroLine

/-!
# Includes of headers that cannot be looked up

An include of a header that the system refuses to look up raises no issue of its own, and nothing
behind it is read.

* `readLine_of_refused`: the line of such an include, in any file.
* `ofFrame_literalSource`: a main file that is one gives a run that nothing comes out of, not even
  its end of file. `ofFrame_of_isOverlong`: so does one whose header has too long a name.
-/

namespace CPreprocessor

open Include Interleaving Expanded

variable {files : Files.Tree} {options : Options} {session : Session} {frame : Frame}
  {reference : Reference} {fault : Files.Overlong}

/-- Such a line is broken off when its operand has been expanded. -/
theorem readLine_of_refused {enter : SourceFile.Enter} {hash keyword : Token}
    {operands : List Token} {raised : List Issue} (hf : session.stack.top? = some frame)
    (hh : hash.kind = .directiveHash) (hk : Directive.Includes keyword)
    (hr : Directive.reference? session.macros operands = (raised, some reference))
    (hl : reference.locate files options frame.directory = .error fault) :
    SourceFile.readLine files options enter session (hash :: keyword :: operands) =
      ⟨raised.map .issue, session, some fault⟩ := by
  have hexecute : Directive.execute files options session frame hash keyword operands =
      { raised, session, result := .error (.overlong fault) } := by
    rw [Directive.execute_include hk, Directive.includeFile, hr]
    simp only [hl]
  simp only [SourceFile.readLine, hf, if_pos hh, hexecute]
  exact congrArg (Reading.mk · _ _) (List.append_nil _)

/-- A main file that is such an include is broken off there, and nothing has come out of it. -/
theorem ofFrame_literalSource (ht : options.trigraphs = false)
    (hi : ∀ c ∈ reference.name.toList, Source.Inner c ∧ c ≠ Lexeme.closer reference.angled)
    (hl : reference.locate files options frame.directory = .error fault) :
    Run.ofFrame files options session frame (literalSource reference) =
      ⟨[], session, some fault⟩ := by
  obtain ⟨line, hash, keyword, header, hlines, hsplit, hkind, hincludes, hreference⟩ :=
    exists_literalLine frame ht hi
  obtain ⟨room, hroom⟩ := Nat.exists_eq_add_of_lt options.depthLimit_pos
  let moved := (session.enter frame).moveTo line.stop
  have htop : moved.stack.top? = some { frame with position := line.stop } := rfl
  have hread : SourceFile.readLine files options (SourceFile.readFile files options room) moved
      [hash, keyword, header] = ⟨[], moved, some fault⟩ :=
    readLine_of_refused htop hkind hincludes (hreference _) hl
  have hfile : SourceFile.readFile files options options.depthLimit session frame
      (literalSource reference) = ⟨[], moved, some fault⟩ := by
    rw [hroom, SourceFile.readFile]
    change (SourceFile.readLines files options _ (session.enter frame)
      (linesOf options frame (literalSource reference)).lines).andThen _ = _
    rw [hlines, SourceFile.readLines, hsplit, Nat.zero_add, hread]
    rfl
  rw [Run.ofFrame, SourceFile.read, hfile]
  rfl

/-! ## Names that are too long -/

variable {name : String} {directory : Files.Path} {entries : List (String × Files.Node)}

/-- A header in quotes is looked for next to the file that includes it before anywhere else. -/
theorem locate_of_isOverlong (hw : files.walk directory = .ok (.directory entries))
    (hz : directory.isNameable) (hb : ∀ earlier ∈ directory.components, ¬Files.isOverlong earlier)
    (hn : Files.isOverlong name) (hc : ∀ c ∈ name.toList, c ≠ '\x00' ∧ c ≠ '/') :
    (Reference.mk name false).locate files options (some directory) =
      .error ⟨directory ++ Files.Path.ofString name⟩ := by
  have hname := Files.Path.ofString_name (fun hs => (hc _ hs).2 rfl)
    (Files.isComponent_of_isOverlong hn)
  rw [Reference.locate_eq_error_iff]
  refine ⟨[], _, rfl, ?_, List.forall_mem_nil _⟩
  dsimp only
  rw [hname]
  exact Files.Tree.refuses_append hw hz hb hn fun hs => (hc _ hs).1 rfl

/-- An include in quotes of a name that is too long is all that is read of a main file. -/
theorem ofFrame_of_isOverlong (ht : options.trigraphs = false)
    (hd : frame.directory = some directory)
    (hw : files.walk directory = .ok (.directory entries)) (hz : directory.isNameable)
    (hb : ∀ earlier ∈ directory.components, ¬Files.isOverlong earlier)
    (hn : Files.isOverlong name)
    (hi : ∀ c ∈ name.toList, (Source.Inner c ∧ c ≠ '"') ∧ c ≠ '\x00' ∧ c ≠ '/') :
    Run.ofFrame files options session frame (literalSource ⟨name, false⟩) =
      ⟨[], session, some ⟨directory ++ Files.Path.ofString name⟩⟩ := by
  refine ofFrame_literalSource ht (fun c hc => (hi c hc).1) ?_
  rw [hd]
  exact locate_of_isOverlong hw hz hb hn fun c hc => (hi c hc).2

end CPreprocessor

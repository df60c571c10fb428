import CPreprocessor.Lexeme.Scan

/-!
# How a lexeme is read

A lexeme is read in one of a few ways, which are tried in order.

* `ReadAs`: these ways, each with what rules out those before it. `readAs_of_read`: there is no
  other.
* `front_of_read`: what is read stands in front.
-/

namespace CPreprocessor.Lexeme

variable {directives : Bool} {context : Context} {c : Char} {rest : List Char} {kind : Token.Kind}
  {cut : Cut}

/-- The ways in which the lexeme that begins with `c` is read. -/
inductive ReadAs (directives : Bool) (context : Context) (c : Char) (rest : List Char) :
    Token.Kind → Cut → Prop where
  | newline (hc : c = '\n') : ReadAs directives context c rest .newline ⟨[c], rest⟩
  | hash {cut : Cut} (hc : c ≠ '\n') (hd : directives)
      (h : directiveHash? context (c :: rest) = some cut) :
      ReadAs directives context c rest .directiveHash cut
  | header {cut : Cut} (hc : c ≠ '\n') (hd : directives → directiveHash? context (c :: rest) = none)
      (hi : context = .header) (h : headerName? (c :: rest) = some cut) :
      ReadAs directives context c rest .headerName cut
  | block {cut : Cut} (hd : directives → directiveHash? context (c :: rest) = none)
      (ha : context.afterAsm) (hb : c = '\x7b') (h : closeBrace? 0 rest = some cut) :
      ReadAs directives context c rest .asmBlock (cut.cons c)
  | literal {kind : Token.Kind} {cut : Cut} (hc : c ≠ '\n')
      (hd : directives → directiveHash? context (c :: rest) = none)
      (hh : context = .header → headerName? (c :: rest) = none)
      (hb : ¬(context.afterAsm ∧ c = '\x7b')) (h : readLiteral c rest = .lexeme kind cut) :
      ReadAs directives context c rest kind cut

theorem readAs_of_read (h : read directives context c rest = .lexeme kind cut) :
    ReadAs directives context c rest kind cut := by
  unfold read at h
  split at h
  · next hc =>
    obtain ⟨rfl, rfl⟩ := Reading.lexeme.inj h
    exact .newline hc
  next hc =>
  split at h
  · next hf =>
    obtain ⟨rfl, rfl⟩ := Reading.lexeme.inj h
    split at hf
    · next hd => exact .hash hc hd hf
    · contradiction
  next hnone =>
  have hd (hd : directives) : directiveHash? context (c :: rest) = none := by
    rwa [if_pos hd] at hnone
  split at h
  · next hf =>
    obtain ⟨rfl, rfl⟩ := Reading.lexeme.inj h
    split at hf
    · next hi => exact .header hc hd hi hf
    · contradiction
  next hh =>
  unfold readText at h
  split at h
  · next hb =>
    rw [Bool.and_eq_true, decide_eq_true_eq] at hb
    split at h
    · next hclose =>
      obtain ⟨rfl, rfl⟩ := Reading.lexeme.inj h
      exact .block hd hb.1 hb.2 hclose
    · contradiction
  · next hb =>
    rw [Bool.and_eq_true, decide_eq_true_eq] at hb
    exact .literal hc hd (fun hi => by rwa [if_pos hi] at hh) hb h

/-- What is read stands in front, and is not empty. -/
theorem front_of_read (h : read directives context c rest = .lexeme kind cut) :
    cut.text <+: c :: rest ∧ c ∈ cut.text.head? := by
  have hcover := covers_read directives context c rest
  rw [h] at hcover
  obtain ⟨hw, hne⟩ := hcover
  obtain ⟨d, more, ht⟩ := List.exists_cons_of_ne_nil hne
  refine ⟨⟨cut.rest, hw⟩, ?_⟩
  rw [Cut.whole, ht] at hw
  rw [ht]
  exact congrArg some (List.cons.inj hw).1

end CPreprocessor.Lexeme

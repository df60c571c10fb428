import CPreprocessor.Expansion.Step

/-!
# Macro expansion

Tokens are expanded from front to back. A replacement is put in front of the tokens behind the call
and expanded again with them, while arguments are expanded on their own first. Tokens and issues
come out in the order in which they arise. Where the tokens run out in the middle of a call and
more can come, the call is suspended and taken up again with the next ones.
-/

namespace CPreprocessor.Expansion

open Macro

/-- What expansion produces. -/
inductive Event where
  | token (token : Token)
  | issue (issue : Issue)
deriving DecidableEq

namespace Event

/-- The token, if it is one. -/
def token? : Event → Option Token
  | token produced => some produced
  | issue _ => none

/-- The issue, if it is one. -/
def issue? : Event → Option Issue
  | issue raised => some raised
  | token _ => none

end Event

/-- What expansion has produced, and the call that waits for more tokens. -/
structure Progress where
  events : List Event
  held : Option Suspended
deriving DecidableEq

namespace Progress

/-- Nothing is left to do. -/
def done : Progress := ⟨[], none⟩

/-- Puts events in front. -/
def after (events : List Event) (progress : Progress) : Progress :=
  ⟨events ++ progress.events, progress.held⟩

/-- The tokens produced. -/
def tokens (progress : Progress) : List Token := progress.events.filterMap Event.token?

/-- The issues raised. -/
def issues (progress : Progress) : List Issue := progress.events.filterMap Event.issue?

end Progress

/-- The issues raised before the tokens of a replacement come out: those of its arguments, then
those of its pastes. -/
def callEvents (arguments : List (String × Progress)) (pasting : List Issue) : List Event :=
  (arguments.flatMap (·.2.issues) ++ pasting).map .issue

/-- The bindings that expanded arguments give. -/
def expandedBindings (arguments : List (String × Progress)) : Bindings :=
  arguments.map fun argument => (argument.1, argument.2.tokens)

/-- Expands tokens. If `more` can come, a call at their end waits for them. -/
def drain (table : Table) (more : Bool) : List Token → Progress
  | [] => .done
  | token :: rest =>
    match _ : step table more token rest with
    | .emit produced => (drain table more rest).after [.token produced]
    | .refuse issue painted => (drain table more rest).after [.issue issue, .token painted]
    | .wait suspended => ⟨[], some suspended⟩
    | .invoke call behind =>
      let arguments := call.wanted.attach.map fun wanted =>
        (wanted.1.1, drain table false wanted.1.2)
      let replacement := call.replacement (expandedBindings arguments)
      (drain table more (replacement.2 ++ behind)).after (callEvents arguments replacement.1)
termination_by tokens => weigh table tokens
decreasing_by
  · exact weigh_tail token rest
  · exact weigh_tail token rest
  · exact less_of_mem_wanted (invokes_of_step ‹_›).1 wanted.2
  · exact less_of_step ‹_› _

/-- Takes up a suspended call with the next tokens. -/
def resume (table : Table) (more : Bool) (suspended : Suspended) (tokens : List Token) :
    Progress :=
  let rest := suspended.read ++ tokens
  match suspended.head.step more rest with
  | .emit produced => (drain table more rest).after [.token produced]
  | .refuse issue painted => (drain table more rest).after [.issue issue, .token painted]
  | .wait suspended => ⟨[], some suspended⟩
  | .invoke call behind =>
    let arguments := call.wanted.map fun wanted => (wanted.1, drain table false wanted.2)
    let replacement := call.replacement (expandedBindings arguments)
    (drain table more (replacement.2 ++ behind)).after (callEvents arguments replacement.1)

/-- Expands the next tokens of a text that may be in the middle of a call. -/
def feed (table : Table) (more : Bool) (held : Option Suspended) (tokens : List Token) :
    Progress :=
  match held with
  | none => drain table more tokens
  | some suspended => resume table more suspended tokens

/-- Expands a list of tokens that nothing follows. -/
def expand (table : Table) (tokens : List Token) : List Event := (drain table false tokens).events

/-- What expansion gives where nothing takes its issues: the tokens in front of the first issue, and
that issue, which is raised and ends it. -/
structure Unreported where
  tokens : List Token
  raised : Option Issue
deriving DecidableEq

/-- The events up to the first issue. -/
def Unreported.ofEvents : List Event → Unreported
  | [] => ⟨[], none⟩
  | .token produced :: rest =>
    let more := ofEvents rest
    { more with tokens := produced :: more.tokens }
  | .issue issue :: _ => ⟨[], some issue⟩

/-- Expands a list of tokens where nothing takes the issues. -/
def expandUnreported (table : Table) (tokens : List Token) : Unreported :=
  .ofEvents (expand table tokens)

end CPreprocessor.Expansion

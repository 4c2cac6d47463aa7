/-
  HornClause.Derivation.Search

  The steps of a derivation. A step may end in a value or be abandoned, and in
  both cases leaves a context, a trace and a log behind.
-/
import HornClause.Derivation.Context
import HornClause.Log
import HornClause.Trace.Basic

namespace HornClause

/-- What a derivation leaves behind: its context, the traces of the goals and rules
    at the present level, and the events noted. -/
structure Search where
  context : Context
  trace : Array Trace := #[]
  log : Array Event := #[]

/-- A step of a derivation. -/
abbrev SearchM (α : Type) := EStateM ProofError Search α

namespace SearchM

/-- Notes an event. -/
def note (e : Event) : SearchM Unit :=
  modify fun s => { s with log := s.log.push e }

/-- Adds to the trace of the present level. -/
def record (t : Trace) : SearchM Unit :=
  modify fun s => { s with trace := s.trace.push t }

/-- Abandons the derivation, which is noted. -/
def abandon {α : Type} (e : ProofError) : SearchM α := do
  note e.event
  throw e

/-- Changes the context, or abandons the derivation. -/
def change (f : Context → Except ProofError Context) : SearchM Unit := do
  match f (← get).context with
  | .ok c => modify fun s => { s with context := c }
  | .error e => abandon e

/-- The value found earlier for a symbol. -/
def lookUp (symbol : Char) : SearchM (Option Bool) :=
  return (← get).context.cache.get? symbol

/-- Remembers the value of a symbol. -/
def save (symbol : Char) (value : Bool) : SearchM Unit := do
  note (.saved symbol value)
  modify fun s => { s with context := s.context.save symbol value }

/-- Goes one goal deeper. -/
def descend : SearchM Unit := change Context.descend

/-- Comes back from a goal. -/
def ascend : SearchM Unit := modify fun s => { s with context := s.context.ascend }

/-- Takes up a goal. -/
def enter (symbol : Char) : SearchM Unit := change (·.enter symbol)

/-- Lays down the goal that was taken up last. -/
def leave : SearchM Unit := modify fun s => { s with context := s.context.leave }

/-- Runs a step at a level of its own. If it ends, its trace goes below a new node,
    which shows the value found; if it is abandoned, its trace is lost. -/
def below (label : String) (step : SearchM Bool) : SearchM Bool := fun s =>
  match step { s with trace := #[] } with
  | .ok value t =>
      .ok value { t with trace := s.trace.push (.settled label value t.trace.toList) }
  | .error e t => .error e { t with trace := s.trace }

/-- Runs a step for a goal that was taken up, and lays the goal down and comes back
    from it however the step ends. -/
def closing (step : SearchM Bool) : SearchM Bool := fun s =>
  match step s with
  | .ok value t => .ok value { t with context := t.context.leave.ascend }
  | .error e t => .error e { t with context := t.context.leave.ascend }

end SearchM

end HornClause

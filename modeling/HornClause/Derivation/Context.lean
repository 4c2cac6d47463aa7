/-
  HornClause.Derivation.Context

  The state that one query's derivation carries along: the values found so far,
  how many goals are nested, and, if cycles are checked for, which goals those
  are.
-/
import HornClause.Derivation.Cache
import HornClause.Settings

namespace HornClause

/-- What a derivation has come to. -/
structure Context where
  /-- The greatest depth allowed. -/
  limit : Nat
  /-- The number of goals whose derivation has begun and not ended. -/
  depth : Nat := 0
  /-- Those goals, the innermost first, if cycles are checked for. -/
  underway : Option (List Char) := none
  /-- The values found so far. -/
  cache : Cache := {}

namespace Context

/-- The context at the start of a query. -/
def start (settings : Settings) : Context where
  limit := settings.depthLimit.value
  underway := if settings.cycleCheck.value then some [] else none

/-- How many more goals may be nested. -/
def room (c : Context) : Nat := c.limit - c.depth

/-- Goes one goal deeper, if the limit allows. -/
def descend (c : Context) : Except ProofError Context :=
  if c.limit ≤ c.depth then .error (.tooDeep c.limit) else .ok { c with depth := c.depth + 1 }

/-- Comes back from a goal. -/
def ascend (c : Context) : Context := { c with depth := c.depth - 1 }

/-- Takes up a goal, unless it is underway already and cycles are checked for. -/
def enter (c : Context) (symbol : Char) : Except ProofError Context :=
  match c.underway with
  | none => .ok c
  | some goals =>
      if symbol ∈ goals then .error (.cycle symbol)
      else .ok { c with underway := some (symbol :: goals) }

/-- Lays down the goal that was taken up last. -/
def leave (c : Context) : Context := { c with underway := c.underway.map List.tail }

/-- Remembers the value of a symbol. -/
def save (c : Context) (symbol : Char) (value : Bool) : Context :=
  { c with cache := c.cache.insert symbol value }

/-- Coming back undoes going deeper. -/
theorem ascend_of_descend {c d : Context} (h : c.descend = .ok d) : d.ascend = c := by
  simp only [descend] at h
  split at h
  · cases h
  · cases h; simp [ascend]

/-- Laying a goal down undoes taking it up. -/
theorem leave_of_enter {c d : Context} {symbol : Char} (h : c.enter symbol = .ok d) :
    d.leave = c := by
  rcases c with ⟨limit, depth, _ | goals, cache⟩
  · simp only [enter] at h
    cases h; rfl
  · simp only [enter] at h
    split at h
    · cases h
    · cases h; rfl

end Context

end HornClause

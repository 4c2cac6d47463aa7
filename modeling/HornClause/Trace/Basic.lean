/-
  HornClause.Trace.Basic

  The record of a derivation is a tree. Its root carries the query, each rule
  that was tried is a node above the derivation of its premise, and each goal
  that was settled without a rule is a leaf.
-/

namespace HornClause

/-! ## Outcomes -/

/-- How a goal or a rule came out: whether it holds, and whether that was derived
    here or taken from the cache. -/
inductive Outcome where
  | proved
  | failed
  | alreadyProved
  | alreadyFailed
deriving DecidableEq

namespace Outcome

/-- The outcome of a derivation. -/
def fresh (value : Bool) : Outcome := if value then .proved else .failed

/-- The outcome of a look-up in the cache. -/
def cached (value : Bool) : Outcome := if value then .alreadyProved else .alreadyFailed

/-- Whether the goal or rule holds. -/
def value : Outcome → Bool
  | .proved | .alreadyProved => true
  | .failed | .alreadyFailed => false

/-- Whether the value was taken from the cache. -/
def isCached : Outcome → Bool
  | .alreadyProved | .alreadyFailed => true
  | .proved | .failed => false

@[simp] theorem value_fresh (v : Bool) : (fresh v).value = v := by cases v <;> rfl
@[simp] theorem value_cached (v : Bool) : (cached v).value = v := by cases v <;> rfl
@[simp] theorem isCached_fresh (v : Bool) : (fresh v).isCached = false := by cases v <;> rfl
@[simp] theorem isCached_cached (v : Bool) : (cached v).isCached = true := by cases v <;> rfl

/-- The one-word name of an outcome. -/
def name : Outcome → String
  | .proved => "proved"
  | .failed => "failed"
  | .alreadyProved => "already-proved"
  | .alreadyFailed => "already-failed"

/-- What follows the value of a goal that was taken from the cache. -/
def remark (o : Outcome) : String := if o.isCached then " (already proved)" else ""

/-- An outcome in words: the value, and a remark if it comes from the cache. -/
def text (o : Outcome) : String := toString o.value ++ o.remark

end Outcome

/-! ## Traces -/

/-- A labelled node, its outcome once there is one, and its children in order. -/
inductive Trace where
  | node (label : String) (outcome : Option Outcome) (children : List Trace)

namespace Trace

/-- A settled node without children. -/
def leaf (label : String) (outcome : Outcome) : Trace := .node label (some outcome) []

/-- A settled node above the derivation that settled it. -/
def settled (label : String) (value : Bool) (children : List Trace) : Trace :=
  .node label (some (.fresh value)) children

/-- The label of the root. -/
def label : Trace → String
  | .node l _ _ => l

/-- The outcome of the root. -/
def outcome : Trace → Option Outcome
  | .node _ o _ => o

/-- The subtrees below the root. -/
def children : Trace → List Trace
  | .node _ _ cs => cs

@[simp] theorem label_node (l : String) (o : Option Outcome) (cs : List Trace) :
    (node l o cs).label = l := rfl
@[simp] theorem outcome_node (l : String) (o : Option Outcome) (cs : List Trace) :
    (node l o cs).outcome = o := rfl
@[simp] theorem children_node (l : String) (o : Option Outcome) (cs : List Trace) :
    (node l o cs).children = cs := rfl

/-- Whether there is nothing below the root. -/
def isLeaf (t : Trace) : Bool := t.children.isEmpty

/-- The first subtree below the root with the given label. -/
def child? (t : Trace) (label : String) : Option Trace :=
  t.children.find? (·.label == label)

end Trace

end HornClause

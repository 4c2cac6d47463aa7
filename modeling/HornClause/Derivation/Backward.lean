/-
  HornClause.Derivation.Backward

  Backward chaining, from a goal to the facts and rules that support it.

  A compound goal is resolved operand by operand, from left to right and without
  shortcuts, and the truth functions of its connectives are applied to the values
  found. An atom is looked for in the cache, then among the facts, and is then
  derived by the rules for it, in order:

  * a rule whose premise holds by the facts alone proves it;
  * a rule whose premise is a single atom decides it, one way or the other;
  * a rule with a compound premise proves it, or the next rule is tried.

  Every rule for an atom is tried one level deeper than the atom was asked for,
  so the room left under the depth limit bounds the recursion. The bound decides
  nothing: the limit is enforced by `descend`, before the bound is ever reached.
-/
import HornClause.Derivation.Search

namespace HornClause.Derivation

open SearchM

/-! ## Compound goals -/

/-- Joins a value with the operands that wait to its right, from left to right. -/
def joinPending (value : Bool) : List (Connective × SearchM Bool) → SearchM Bool
  | [] => return value
  | (connective, operand) :: pending => do
      let right ← operand
      joinPending (connective.apply value right) pending

/-- Follows the left operands of a goal down to its leftmost atom, while the right
    operands wait, and then joins the values found on the way back. -/
def descendLeft (prove : Atom → SearchM Bool) :
    Formula → List (Connective × SearchM Bool) → SearchM Bool
  | .atom a, pending => do
      let value ← prove a
      joinPending value pending
  | .compound connective left right, pending =>
      descendLeft prove left ((connective, descendLeft prove right []) :: pending)

/-- Resolves a goal of any shape, where atoms are proved by `prove`. -/
def resolve (prove : Atom → SearchM Bool) (goal : Formula) : SearchM Bool :=
  descendLeft prove goal []

/-! ## Atoms -/

/-- Remembers that the conclusion of a rule holds, if it is an atom. -/
def saveConclusion (rule : Rule) : SearchM Unit :=
  match rule.conclusion.asAtom? with
  | some conclusion => save conclusion.symbol true
  | none => return ()

/-- Remembers the value of the premise of a rule, if it is an atom. -/
def savePremise (rule : Rule) (value : Bool) : SearchM Unit :=
  match rule.premise.asAtom? with
  | some premise => save premise.symbol value
  | none => return ()

/-- Tries rules for a goal in turn. A rule with a single atom for its premise is the
    last one tried, whether or not the atom is proved. -/
def tryRules (prove : Atom → SearchM Bool) (symbol : Char) : List Rule → SearchM Bool
  | [] => do
      note (.exhausted symbol)
      record (.leaf (String.singleton symbol) .failed)
      save symbol false
      return false
  | rule :: rest => do
      note (.attempted symbol rule.text)
      if rule.premise.evaluate then
        record (.leaf rule.text .proved)
        saveConclusion rule
        return true
      else
        let value ← below rule.text (resolve prove rule.premise)
        savePremise rule value
        if value then
          saveConclusion rule
          return true
        else if rule.premise.isAtom then
          return false
        else
          tryRules prove symbol rest

/-- Settles an atom by the cache or the facts, and otherwise as told. -/
def settleOr (a : Atom) (otherwise : SearchM Bool) : SearchM Bool := do
  match ← lookUp a.symbol with
  | some value =>
      note (.recalled a.symbol value)
      record (.leaf a.text (.cached value))
      return value
  | none =>
      if a.value then
        note (.declared a.symbol)
        record (.leaf a.text .proved)
        return true
      else
        otherwise

/-- Derives an atom by the rules for it, as a goal of its own one level deeper. -/
def derive (kb : KnowledgeBase) (prove : Atom → SearchM Bool) (a : Atom) : SearchM Bool := do
  descend
  enter a.symbol
  closing (tryRules prove a.symbol (kb.rulesFor (.atom a)))

/-- Proves an atom, where the atoms of premises are proved by `prove`. -/
def proveBy (kb : KnowledgeBase) (prove : Atom → SearchM Bool) (a : Atom) : SearchM Bool :=
  settleOr a (derive kb prove a)

/-- Abandons a goal that would be nested too deep. -/
def abandonGoal (_ : Atom) : SearchM Bool := do
  abandon (.tooDeep (← get).context.limit)

/-- Proves an atom where at most `room` more goals may be nested. Where the room is
    what the limit leaves and there is none, `descend` gives up, and no premise is
    ever looked at. -/
def proveWithin (kb : KnowledgeBase) : Nat → Atom → SearchM Bool
  | 0 => proveBy kb abandonGoal
  | room + 1 => proveBy kb (proveWithin kb room)

/-! ## Goals -/

/-- Proves an atom in the room that the context leaves. -/
def proveAtom (kb : KnowledgeBase) (a : Atom) : SearchM Bool := do
  proveWithin kb (← get).context.room a

/-- Resolves a goal in the room that the context leaves. -/
def resolveGoal (kb : KnowledgeBase) (goal : Formula) : SearchM Bool := do
  resolve (proveWithin kb (← get).context.room) goal

end HornClause.Derivation

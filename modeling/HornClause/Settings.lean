/-
  HornClause.Settings

  A setting is a named value that stays within bounds. Two settings govern every
  derivation: how many goals may be nested, and whether a goal that asks for
  itself is reported at once.
-/
import HornClause.Error

namespace HornClause

/-! ## One setting -/

/-- A named value with its bounds, both of which it may take. -/
structure Setting (α : Type) where
  name : String
  least : α
  greatest : α
  value : α

namespace Setting

variable {α : Type} [LT α] [DecidableLT α] [ToString α]

/-- Changes the value of a setting, unless the new value is out of bounds. -/
def set (s : Setting α) (value : α) : Except SettingError (Setting α) :=
  if value < s.least ∨ s.greatest < value then
    .error ⟨s.name, toString value⟩
  else
    .ok { s with value }

/-- Only the value changes, and only to one within the bounds. -/
theorem set_eq_ok_iff {s t : Setting α} {value : α} :
    s.set value = .ok t ↔
      (¬ value < s.least ∧ ¬ s.greatest < value) ∧ t = { s with value } := by
  simp only [set]
  split <;> rename_i h
  · simp only [reduceCtorEq, false_iff, not_and]
    grind
  · simp only [not_or] at h
    simp [h, eq_comm]

end Setting

/-! ## The settings of a derivation -/

/-- At most this many goals are nested, unless told otherwise. -/
def defaultDepthLimit : Nat := 512

/-- What governs a derivation. -/
structure Settings where
  depthLimit : Setting Nat := ⟨"depth_limit", 1, 4096, defaultDepthLimit⟩
  cycleCheck : Setting Bool := ⟨"cycle_check", false, true, false⟩

namespace Settings

/-- Changes the depth limit. -/
def setDepthLimit (s : Settings) (limit : Nat) : Except SettingError Settings := do
  let depthLimit ← s.depthLimit.set limit
  return { s with depthLimit }

/-- Turns the cycle check on or off. -/
def setCycleCheck (s : Settings) (check : Bool) : Except SettingError Settings := do
  let cycleCheck ← s.cycleCheck.set check
  return { s with cycleCheck }

/-- The default settings with the given values in place, the depth limit first. -/
def configure (limit : Option Nat) (check : Option Bool) : Except SettingError Settings := do
  let limited ← match limit with
    | some n => setDepthLimit {} n
    | none => .ok {}
  match check with
    | some b => limited.setCycleCheck b
    | none => return limited

end Settings

end HornClause

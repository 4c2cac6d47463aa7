/-
  HornClause.Formula.Basic

  Formulas are built from atoms by two connectives, conjunction and implication.
  A conjunction is written by juxtaposition and an implication with the arrow
  `=>`; no brackets are written, so the text of a formula does not determine its
  tree.
-/
import HornClause.Atom

namespace HornClause

/-! ## Connectives -/

/-- The two ways to join formulas. -/
inductive Connective where
  | conjunction
  | implication
deriving DecidableEq

namespace Connective

/-- The truth function of a connective. -/
def apply : Connective → Bool → Bool → Bool
  | .conjunction, left, right => left && right
  | .implication, left, right => !left || right

/-- What is written between the two operands. -/
def token : Connective → List Char
  | .conjunction => []
  | .implication => ['=', '>']

end Connective

/-! ## Formulas -/

/-- An atom, or two formulas joined by a connective. -/
inductive Formula where
  | atom (a : Atom)
  | compound (connective : Connective) (left right : Formula)
deriving DecidableEq

namespace Formula

/-- The truth value that the declared facts alone give to a formula. -/
def evaluate : Formula → Bool
  | .atom a => a.value
  | .compound c left right => c.apply left.evaluate right.evaluate

@[simp]
theorem evaluate_atom (a : Atom) : (atom a).evaluate = a.value := rfl

@[simp]
theorem evaluate_compound (c : Connective) (left right : Formula) :
    (compound c left right).evaluate = c.apply left.evaluate right.evaluate := rfl

/-- The characters of a formula, in front of others that follow: its operands with
    the connective's token between. -/
def charsOnto : Formula → List Char → List Char
  | .atom a, tail => a.symbol :: tail
  | .compound c left right, tail => left.charsOnto (c.token ++ right.charsOnto tail)

/-- The characters of a formula. -/
def chars (f : Formula) : List Char := f.charsOnto []

/-- The text of a formula. -/
def text (f : Formula) : String := String.ofList f.chars

theorem charsOnto_eq (f : Formula) (tail : List Char) : f.charsOnto tail = f.chars ++ tail := by
  induction f generalizing tail with
  | atom a => rfl
  | compound c left right ihl ihr =>
    simp only [chars, charsOnto]
    rw [ihl, ihl (c.token ++ _), ihr, ihr []]
    simp

@[simp]
theorem chars_atom (a : Atom) : (atom a).chars = [a.symbol] := rfl

@[simp]
theorem chars_compound (c : Connective) (left right : Formula) :
    (compound c left right).chars = left.chars ++ c.token ++ right.chars := by
  rw [chars, charsOnto, charsOnto_eq, charsOnto_eq right]
  simp

@[simp]
theorem toList_text (f : Formula) : f.text.toList = f.chars := by
  simp [text]

/-- A formula's atom, if it is one. -/
def asAtom? : Formula → Option Atom
  | .atom a => some a
  | .compound .. => none

/-- Whether a formula is an atom. -/
def isAtom (f : Formula) : Bool := f.asAtom?.isSome

/-- The outermost connective of a compound formula and its operands. -/
def operands? : Formula → Option (Connective × Formula × Formula)
  | .atom _ => none
  | .compound c left right => some (c, left, right)

/-- The left-nested conjunction of an atom with further atoms: `A`, `B`, `C` give
    the conjunction of `AB` with `C`. -/
def conjoin (first : Atom) (others : List Atom) : Formula :=
  others.foldl (fun f a => .compound .conjunction f (.atom a)) (.atom first)

end Formula

end HornClause

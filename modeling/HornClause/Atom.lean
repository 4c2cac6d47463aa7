/-
  HornClause.Atom

  A letter is an uppercase ASCII letter, so there are twenty-six of them. An
  atom is a letter together with the value that the declared facts give it.
-/
import HornClause.Error

namespace HornClause

/-! ## Letters -/

/-- A propositional symbol: one of the letters `A` to `Z`. -/
@[ext]
structure Letter where
  char : Char
  isUpper : char.isUpper = true
deriving DecidableEq

namespace Letter

/-- The letter that a character spells, if it is uppercase. -/
def ofChar? (c : Char) : Option Letter :=
  if h : c.isUpper = true then some ⟨c, h⟩ else none

@[simp]
theorem ofChar?_char (l : Letter) : ofChar? l.char = some l := by
  simp [ofChar?, l.isUpper]

theorem ofChar?_eq_some_iff {c : Char} {l : Letter} : ofChar? c = some l ↔ l.char = c := by
  constructor
  · intro h
    simp only [ofChar?] at h
    split at h
    · cases h; rfl
    · cases h
  · rintro rfl
    exact ofChar?_char l

theorem ofChar?_eq_none_iff {c : Char} : ofChar? c = none ↔ c.isUpper = false := by
  simp [ofChar?]

/-- The letters in alphabetical order. -/
def alphabet : List Letter :=
  "ABCDEFGHIJKLMNOPQRSTUVWXYZ".toList.filterMap ofChar?

theorem length_alphabet : alphabet.length = 26 := by decide +kernel

/-- There are no letters but those of the alphabet. -/
theorem mem_alphabet (l : Letter) : l ∈ alphabet := by
  have upper : 65 ≤ l.char.toNat ∧ l.char.toNat ≤ 90 := by
    have h : 65 ≤ l.char.val ∧ l.char.val ≤ 90 := of_decide_eq_true l.isUpper
    exact ⟨UInt32.le_iff_toNat_le.mp h.1, UInt32.le_iff_toNat_le.mp h.2⟩
  have spelt : ∀ n, n < 91 → 65 ≤ n →
      Char.ofNat n ∈ "ABCDEFGHIJKLMNOPQRSTUVWXYZ".toList := by
    decide +kernel
  have h := spelt l.char.toNat (by omega) upper.1
  rw [Char.ofNat_toNat] at h
  exact List.mem_filterMap.mpr ⟨l.char, h, ofChar?_char l⟩

/-- A letter as text. -/
def text (l : Letter) : String := String.singleton l.char

/-- Reads a letter from a character. -/
def ofChar (c : Char) : Except ParseError Letter :=
  match ofChar? c with
  | some l => .ok l
  | none => .error (.badSymbol (String.singleton c))

/-- Reads a letter from a text of exactly one character. -/
def ofSymbol (symbol : String) : Except ParseError Letter :=
  match symbol.toList with
  | [c] => ofChar c
  | _ => .error (.badSymbol symbol)

end Letter

/-! ## Atoms -/

/-- A letter and its value: true if the letter is declared as a fact. The value is
    fixed when the atom is read; what a derivation finds is kept elsewhere. -/
@[ext]
structure Atom where
  letter : Letter
  value : Bool
deriving DecidableEq

namespace Atom

/-- The character of an atom's letter. -/
def symbol (a : Atom) : Char := a.letter.char

/-- The text of an atom is its letter. -/
def text (a : Atom) : String := a.letter.text

@[simp]
theorem toList_text (a : Atom) : a.text.toList = [a.symbol] := by
  simp [text, Letter.text, symbol]

/-- Reads an atom with a given value from a character. -/
def ofChar (value : Bool) (c : Char) : Except ParseError Atom :=
  (Letter.ofChar c).map (Atom.mk · value)

/-- Reads an atom with a given value from a text of exactly one character. -/
def ofSymbol (value : Bool) (symbol : String) : Except ParseError Atom :=
  (Letter.ofSymbol symbol).map (Atom.mk · value)

end Atom

end HornClause

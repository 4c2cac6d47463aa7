/-
  HornClause.Text.Blank

  Blank characters are those with the Unicode property White_Space. They carry
  no meaning in a knowledge base (`dense` drops them) and part the words of a
  command (`words`).
-/

namespace HornClause.Text

/-! ## The property White_Space -/

/-- The code points with the property White_Space, as closed ranges in ascending
    order. -/
def blankRanges : List (Nat × Nat) :=
  [(0x09, 0x0D), (0x20, 0x20), (0x85, 0x85), (0xA0, 0xA0), (0x1680, 0x1680),
   (0x2000, 0x200A), (0x2028, 0x2029), (0x202F, 0x202F), (0x205F, 0x205F),
   (0x3000, 0x3000)]

/-- Whether a character is blank. Zero-width characters and the separators
    U+001C to U+001F are not. -/
def isBlank (c : Char) : Bool :=
  blankRanges.any fun (low, high) => low ≤ c.toNat && c.toNat ≤ high

/-- Every character that the core library takes for whitespace is blank. -/
theorem isBlank_of_isWhitespace {c : Char} (h : c.isWhitespace = true) :
    isBlank c = true := by
  simp only [Char.isWhitespace, Bool.or_eq_true, decide_eq_true_eq] at h
  rcases h with ((h | h) | h) | h <;> subst h <;> decide

/-! ## Text without blanks, and its words -/

/-- The characters of a text that are not blank. -/
def dense (text : List Char) : List Char :=
  text.filter fun c => !isBlank c

@[simp]
theorem mem_dense {c : Char} {text : List Char} :
    c ∈ dense text ↔ c ∈ text ∧ isBlank c = false := by
  simp [dense]

/-- Dropping blanks a second time changes nothing. -/
@[simp]
theorem dense_dense (text : List Char) : dense (dense text) = dense text := by
  simp [dense]

/-- The words of a text: its maximal runs of characters that are not blank, from
    left to right. -/
def words (text : String) : List String :=
  ((text.toList.splitOnP isBlank).filter fun run => !run.isEmpty).map String.ofList

end HornClause.Text

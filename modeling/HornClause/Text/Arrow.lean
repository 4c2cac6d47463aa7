/-
  HornClause.Text.Arrow

  The arrow `=>` parts the premise of an implication from its conclusion.
  Occurrences are taken from left to right and do not overlap, so `A==>B` has
  the parts `A=` and `B`.
-/

namespace HornClause.Text

/-- The parts of a text between its arrows, in order. There is one part more than
    there are arrows. -/
def arrowParts : List Char → List (List Char)
  | [] => [[]]
  | '=' :: '>' :: rest => [] :: arrowParts rest
  | c :: rest => (arrowParts rest).modifyHead (c :: ·)

@[simp]
theorem arrowParts_nil : arrowParts [] = [[]] := by
  simp [arrowParts]

@[simp]
theorem arrowParts_arrow (rest : List Char) :
    arrowParts ('=' :: '>' :: rest) = [] :: arrowParts rest := by
  simp [arrowParts]

/-- A character that does not start an arrow belongs to the first part. -/
theorem arrowParts_cons {c : Char} {rest : List Char} (h : c = '=' → rest.head? ≠ some '>') :
    arrowParts (c :: rest) = (arrowParts rest).modifyHead (c :: ·) := by
  rw [arrowParts]
  rintro tail rfl rfl
  exact h rfl rfl

/-- Every text has at least one part. -/
theorem arrowParts_ne_nil (text : List Char) : arrowParts text ≠ [] := by
  fun_induction arrowParts text with
  | case1 => simp
  | case2 => simp
  | case3 c rest _ ih =>
    cases h : arrowParts rest with
    | nil => exact absurd h ih
    | cons => simp

end HornClause.Text

/-
  HornClause.Rule

  A rule concludes its conclusion wherever its premise holds. Either side may be
  a conjunction, as in `AB=>CD`. Which goals a rule is tried for is a matter of
  text: whether that of the goal occurs in that of the conclusion.
-/
import HornClause.Formula.Basic

namespace HornClause

namespace Text

/-- Whether some characters occur next to each other, in order, in a text. No
    characters at all occur in every text. -/
def occursIn (block : List Char) : List Char → Bool
  | [] => block.isEmpty
  | c :: rest => block.isPrefixOf (c :: rest) || occursIn block rest

theorem occursIn_iff {block text : List Char} :
    occursIn block text = true ↔ block <:+: text := by
  induction text with
  | nil => simp [occursIn]
  | cons c rest ih => simp [occursIn, ih, List.infix_cons_iff]

end Text

/-- An implication, taken apart. -/
@[ext]
structure Rule where
  premise : Formula
  conclusion : Formula
deriving DecidableEq

namespace Rule

/-- The rule that a formula states, if it is an implication. -/
def ofFormula : Formula → Except ParseError Rule
  | .compound .implication premise conclusion => .ok ⟨premise, conclusion⟩
  | f => .error (.notARule f.text)

/-- The implication that a rule states. -/
def toFormula (r : Rule) : Formula := .compound .implication r.premise r.conclusion

@[simp]
theorem ofFormula_toFormula (r : Rule) : ofFormula r.toFormula = .ok r := rfl

/-- The text of a rule is that of its implication. -/
def text (r : Rule) : String := r.toFormula.text

/-- Whether a rule is one for the goal of the given text: whether that text occurs
    in the text of the conclusion. -/
def concludes (r : Rule) (goal : String) : Bool :=
  Text.occursIn goal.toList r.conclusion.chars

theorem concludes_iff {r : Rule} {goal : String} :
    r.concludes goal = true ↔ goal.toList <:+: r.conclusion.chars := by
  simp [concludes, Text.occursIn_iff]

end Rule

end HornClause

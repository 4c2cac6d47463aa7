/-
  HornClause.KnowledgeBase.Basic

  A knowledge base is a map of facts, the list of the letters that were declared,
  and a list of rules. Facts are looked up in the map. The list has the order of
  first declaration, and is only seen when the base is written out; the order of the
  rules is the order in which they are tried.

  Map and list are filled side by side, by `declare`. Nothing in the type keeps them
  in agreement.
-/
import HornClause.KnowledgeBase.FactMap
import HornClause.Rule

namespace HornClause

/-- Facts, the letters declared, and rules. -/
@[ext]
structure KnowledgeBase where
  facts : FactMap := .empty
  declared : List Letter := []
  rules : List Rule := []
deriving DecidableEq

namespace KnowledgeBase

/-- Puts an atom among the facts. Its letter is declared if nothing stood under it. -/
def declare (kb : KnowledgeBase) (a : Atom) : KnowledgeBase :=
  { kb with
    facts := kb.facts.insert a.letter a
    declared :=
      if (kb.facts.get? a.letter).isNone then kb.declared ++ [a.letter] else kb.declared }

/-- What a character is known as in a knowledge base: a fact, or nothing. -/
def known (kb : KnowledgeBase) (c : Char) : Option Atom :=
  (Letter.ofChar? c).bind kb.facts.get?

@[simp]
theorem known_char (kb : KnowledgeBase) (l : Letter) : kb.known l.char = kb.facts.get? l := by
  simp [known]

/-- The rules for a goal, in the order in which they are tried. -/
def rulesFor (kb : KnowledgeBase) (goal : Formula) : List Rule :=
  let text := goal.text
  kb.rules.filter (·.concludes text)

theorem mem_rulesFor {kb : KnowledgeBase} {goal : Formula} {r : Rule} :
    r ∈ kb.rulesFor goal ↔ r ∈ kb.rules ∧ goal.chars <:+: r.conclusion.chars := by
  simp [rulesFor, Rule.concludes_iff]

/-- A knowledge base as text: the facts on one line, then each rule on its own. -/
def text (kb : KnowledgeBase) : String :=
  let facts := ", ".intercalate (kb.declared.map Letter.text)
  let rules := ",\n".intercalate (kb.rules.map Rule.text)
  if kb.declared.isEmpty then rules
  else if kb.rules.isEmpty then facts
  else facts ++ ",\n" ++ rules

end KnowledgeBase

end HornClause

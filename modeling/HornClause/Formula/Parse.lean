/-
  HornClause.Formula.Parse

  Reading a formula: a sequence of letters is a conjunction, and two such
  sequences with one arrow between them are an implication.
-/
import HornClause.Formula.Basic
import HornClause.Text.Arrow

namespace HornClause.Formula

/-- What a text is read for. An entry of a knowledge base has to be a fact or a
    rule, whereas a query may also be a bare conjunction. -/
inductive Reading where
  | entry
  | query
deriving DecidableEq

/-- The atom of one character. A known character stands for the atom it is known
    as, whatever it is; any other must be a letter, and its value is false. -/
def readAtom (known : Char → Option Atom) (c : Char) : Except ParseError Atom :=
  match known c with
  | some a => .ok a
  | none => Atom.ofChar false c

/-- The conjunction that a sequence of characters spells. The first character that
    is no atom is the one reported. -/
def readConjunction (known : Char → Option Atom) : List Char → Except ParseError Formula
  | [] => .error .empty
  | c :: rest => do
      let first ← readAtom known c
      let others ← rest.mapM (readAtom known)
      return conjoin first others

/-- Reads a formula. A text with an arrow must have exactly one, with something on
    either side; the premise is read before the conclusion. -/
def parse (known : Char → Option Atom) (reading : Reading) (text : String) :
    Except ParseError Formula :=
  match Text.arrowParts text.toList with
  | [letters] => do
      let f ← readConjunction known letters
      if reading = .entry ∧ letters.length > 1 then
        .error (.bareConjunction text)
      else
        return f
  | [premise, conclusion] =>
      if premise.isEmpty || conclusion.isEmpty then
        .error (.badImplication text)
      else do
        let left ← readConjunction known premise
        let right ← readConjunction known conclusion
        return .compound .implication left right
  | _ => .error (.badImplication text)

end HornClause.Formula

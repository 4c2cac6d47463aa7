/-
  HornClause.KnowledgeBase.Parse

  Reading a knowledge base. Blanks carry no meaning, and commas part the entries.
  An entry of one character is a fact, any other a rule. All facts are read
  before any rule, so a rule may mention a fact that is declared after it.
-/
import HornClause.Formula.Parse
import HornClause.KnowledgeBase.Basic
import HornClause.Text.Blank

namespace HornClause.KnowledgeBase

/-- The entries of a text: what stands between the commas once blanks are gone. -/
def entries (text : String) : List (List Char) :=
  (Text.dense text.toList).splitOn ','

/-- Whether an entry declares a fact. -/
def isFactEntry (entry : List Char) : Bool := entry.length == 1

/-- Reads the entry of a fact, which is true. -/
def readFact (entry : List Char) : Except ParseError Atom :=
  Atom.ofSymbol true (String.ofList entry)

/-- Reads the entry of a fact and declares it. -/
def declareEntry (kb : KnowledgeBase) (entry : List Char) : Except ParseError KnowledgeBase := do
  let a ← readFact entry
  return kb.declare a

/-- Reads the entry of a rule, where some characters are known. -/
def readRule (known : Char → Option Atom) (entry : List Char) : Except ParseError Rule := do
  let f ← Formula.parse known .entry (String.ofList entry)
  Rule.ofFormula f

/-- Reads a knowledge base. A fact declared again stays where it was first. -/
def parse (text : String) : Except ParseError KnowledgeBase :=
  if (Text.dense text.toList).isEmpty then
    .error .emptyBase
  else do
    let base ← ((entries text).filter isFactEntry).foldlM declareEntry {}
    let rules ← ((entries text).filter (!isFactEntry ·)).mapM (readRule base.known)
    return { base with rules }

end HornClause.KnowledgeBase

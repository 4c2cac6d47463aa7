/-
  HornClause.Trace.Tree

  A trace drawn as a tree, one line per node. Siblings that share a label are
  numbered from the second on, and a leaf shows its outcome, in colour if asked.
  The control sequences for colour are those of `crossterm`, restated here.
-/
import HornClause.Trace.Basic

namespace HornClause

/-! ## Colours -/

/-- The colours of outcomes on a terminal. -/
inductive Colour where
  | green
  | yellow
  | red
deriving DecidableEq

namespace Colour

/-- The number of a colour in the palette of 256. -/
def code : Colour → String
  | .green => "10"
  | .yellow => "11"
  | .red => "9"

/-- The control sequence that turns a colour on. -/
def opening (c : Colour) : String := "\x1b[38;5;" ++ c.code ++ "m"

/-- The control sequence that turns any colour off. -/
def closing : String := "\x1b[39m"

/-- A text in a colour. -/
def paint (c : Colour) (text : String) : String := c.opening ++ text ++ closing

end Colour

namespace Outcome

/-- What was proved is green, what was proved before yellow, and what failed red. -/
def colour : Outcome → Colour
  | .proved => .green
  | .alreadyProved => .yellow
  | .failed | .alreadyFailed => .red

/-- An outcome in words. Only the value is painted, not the remark. -/
def shown (coloured : Bool) (o : Outcome) : String :=
  let value := toString o.value
  (if coloured then o.colour.paint value else value) ++ o.remark

/-- Without colour an outcome is shown as its text. -/
@[simp]
theorem shown_plain (o : Outcome) : o.shown false = o.text := by
  simp [shown, text]

end Outcome

namespace Trace

/-! ## Labels of siblings -/

/-- A label that has occurred `earlier` times already: bare at first, then followed
    by its number. -/
def numbered (label : String) (earlier : Nat) : String :=
  if earlier = 0 then label else label ++ toString (earlier + 1)

/-- Numbers labels by their earlier occurrences, some of which have been seen. -/
def numberLabels (seen : List String) : List String → List String
  | [] => []
  | l :: rest => numbered l (seen.count l) :: numberLabels (l :: seen) rest

/-- The labels under which siblings are shown. -/
def siblingLabels (siblings : List Trace) : List String :=
  numberLabels [] (siblings.map label)

/-! ## Lines -/

/-- What joins a child to its parent: a corner for the last one. -/
def branch (last : Bool) : String := if last then "└─ " else "├─ "

/-- What stands to the left of all that is below a child: a rail while more
    children follow. -/
def rail (last : Bool) : String := if last then "   " else "│  "

/-- What follows the label of a node: the outcome of a leaf. -/
def suffix (coloured : Bool) (t : Trace) : String :=
  match t.isLeaf, t.outcome with
  | true, some o => ": " ++ o.shown coloured
  | _, _ => ""

mutual

/-- The lines below the root, each after the given margin. -/
def linesBelow (coloured : Bool) (margin : String) : Trace → List String
  | .node _ _ children => siblingLines coloured margin children (siblingLabels children)

/-- The lines of siblings that are shown under the given labels. -/
def siblingLines (coloured : Bool) (margin : String) : List Trace → List String → List String
  | t :: rest, label :: labels =>
      (margin ++ branch rest.isEmpty ++ label ++ t.suffix coloured)
        :: t.linesBelow coloured (margin ++ rail rest.isEmpty)
        ++ siblingLines coloured margin rest labels
  | _, _ => []

end

/-- The lines of a trace, the root's label first. -/
def lines (coloured : Bool) (t : Trace) : List String :=
  t.label :: t.linesBelow coloured ""

/-- A trace drawn as a tree. -/
def drawing (coloured : Bool) (t : Trace) : String :=
  String.join ((t.lines coloured).map (· ++ "\n"))

end Trace

end HornClause

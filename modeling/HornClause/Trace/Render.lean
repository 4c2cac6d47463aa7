/-
  HornClause.Trace.Render

  The ways in which a trace is shown: drawn as a tree, or as JSON. A node is an
  object with its label, its outcome if there is one, and its children if there are
  any, in this order.
-/
import HornClause.Text.Json
import HornClause.Trace.Tree

namespace HornClause

/-! ## JSON -/

namespace Trace

open Text.Json

/-- The fields of a node that tell its label and its outcome. -/
def ownFields (margin label : String) (outcome : Option Outcome) : List String :=
  field margin "label" (quoted label)
    :: outcome.toList.map fun o => field margin "outcome" (quoted o.name)

mutual

/-- A node as an object that starts on a line with the given margin. -/
def jsonAt (margin : String) : Trace → String
  | .node label outcome [] => object margin (ownFields (indented margin) label outcome)
  | .node label outcome (t :: rest) =>
      let inner := indented margin
      let items := jsonItems (indented inner) (t :: rest)
      object margin (ownFields inner label outcome ++ [field inner "children" (array inner items)])

/-- Nodes as the items of an array, each on lines of its own. -/
def jsonItems (margin : String) : List Trace → List String
  | [] => []
  | t :: rest => (margin ++ t.jsonAt margin) :: jsonItems margin rest

end

/-- A trace as JSON, without a line break at its end. -/
def json (t : Trace) : String := t.jsonAt ""

end Trace

/-! ## Styles -/

/-- How traces are shown: as a tree, with or without colour, or as JSON. -/
inductive Style where
  | plain
  | coloured
  | json
deriving DecidableEq

/-- The style of two switches. JSON has no colour. -/
def Style.ofSwitches (json colour : Bool) : Style :=
  if json then .json else if colour then .coloured else .plain

/-- A trace in a style. JSON ends without a line break. -/
def Trace.render (t : Trace) : Style → String
  | .plain => t.drawing false
  | .coloured => t.drawing true
  | .json => t.json

end HornClause

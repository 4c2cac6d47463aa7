/-
  HornClause.Error

  The reasons for which a text is no formula, a derivation is abandoned, a
  setting is refused or a query has no answer, each with its message.
-/

namespace HornClause

/-! ## Reading formulas and knowledge bases -/

/-- Why a text cannot be read as a formula, a rule or a knowledge base. -/
inductive ParseError where
  /-- A formula has at least one letter. -/
  | empty
  /-- A knowledge base has at least one entry. -/
  | emptyBase
  /-- More than one arrow in the text, or nothing on one side of it. -/
  | badImplication (text : String)
  /-- A symbol that is not one uppercase letter. -/
  | badSymbol (symbol : String)
  /-- A bare conjunction is neither a fact nor a rule. -/
  | bareConjunction (text : String)
  /-- A formula whose outermost connective is not an implication. -/
  | notARule (text : String)
deriving DecidableEq

/-- The wording of a parse error. -/
def ParseError.message : ParseError → String
  | .empty => "Invalid expression: ''"
  | .emptyBase => "Invalid knowledge base: ''"
  | .badImplication text => "Invalid expression: '" ++ text ++ "'"
  | .badSymbol symbol => "Invalid symbol: '" ++ symbol ++ "'"
  | .bareConjunction text =>
      "Invalid expression: '" ++ text ++ "' (entries must be facts or rules)"
  | .notARule text => "Invalid rule: '" ++ text ++ "'"

/-! ## Deriving -/

/-- Why a derivation is abandoned. -/
inductive ProofError where
  /-- More goals are nested than the limit allows. -/
  | tooDeep (limit : Nat)
  /-- The derivation of a goal asks for the goal itself. -/
  | cycle (symbol : Char)
deriving DecidableEq

/-- The wording of a proof error. -/
def ProofError.message : ProofError → String
  | .tooDeep limit => "Derivation exceeded the depth limit of " ++ toString limit
  | .cycle symbol => "Derivation of '" ++ String.singleton symbol ++ "' requires itself"

/-! ## Settings -/

/-- A value outside the bounds of the setting it was meant for. -/
structure SettingError where
  name : String
  value : String
deriving DecidableEq

/-- The wording of a refused value. -/
def SettingError.message (e : SettingError) : String :=
  "Invalid value for '" ++ e.name ++ "': " ++ e.value

/-! ## Asking -/

/-- Why a query has no answer. -/
inductive AskError where
  /-- No knowledge base is installed. -/
  | noBase
  /-- The query is no formula. -/
  | parse (e : ParseError)
  /-- The derivation was abandoned. -/
  | proof (e : ProofError)
deriving DecidableEq

/-- The wording of a failed query. -/
def AskError.message : AskError → String
  | .noBase => "Cannot evaluate your query, knowledge base is empty."
  | .parse e => e.message
  | .proof e => e.message

end HornClause

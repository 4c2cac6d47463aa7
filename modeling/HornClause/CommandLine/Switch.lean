/-
  HornClause.CommandLine.Switch

  The switches of the command line, under their long and short names.
-/

namespace HornClause

/-- A switch. -/
inductive Switch where
  | kb
  | ask
  | trace
  | json
  | noColor
  | depthLimit
  | cycleCheck
  | logLevel
  | markdownHelp
  | help
  | version
deriving DecidableEq

namespace Switch

/-- Every switch. -/
def all : List Switch :=
  [.kb, .ask, .trace, .json, .noColor, .depthLimit, .cycleCheck, .logLevel, .markdownHelp,
   .help, .version]

/-- The name that follows two dashes. -/
def long : Switch → String
  | .kb => "kb"
  | .ask => "ask"
  | .trace => "trace"
  | .json => "json"
  | .noColor => "no-color"
  | .depthLimit => "depth-limit"
  | .cycleCheck => "cycle-check"
  | .logLevel => "log-level"
  | .markdownHelp => "markdown-help"
  | .help => "help"
  | .version => "version"

/-- The letter that follows one dash, for those that have one. -/
def short? : Switch → Option Char
  | .kb => some 'k'
  | .ask => some 'a'
  | .trace => some 't'
  | .help => some 'h'
  | .version => some 'V'
  | _ => none

/-- Whether a switch is followed by a value. -/
def takesValue : Switch → Bool
  | .kb | .ask | .depthLimit | .logLevel => true
  | _ => false

/-- Whether a switch may be given more than once. -/
def repeats (s : Switch) : Bool := s = .ask

/-- The switch of a long name, which has to be spelt out. -/
def ofLong? (name : String) : Option Switch := all.find? (·.long = name)

/-- The switch of a short name. -/
def ofShort? (c : Char) : Option Switch := all.find? (·.short? = some c)

theorem mem_all (s : Switch) : s ∈ all := by
  cases s <;> decide

end Switch

end HornClause

/-
  HornClause.CommandLine.Options

  Reading the command line. Arguments are taken from left to right; the first one
  that is wrong, or asks for help or for the version, decides. The conventions are
  those of `clap`, restated for these switches; the texts of its help and of its
  complaints are left out, so that only the kind of each is told apart.
-/
import HornClause.CommandLine.Switch
import HornClause.Log
import HornClause.Settings
import HornClause.Trace.Render

namespace HornClause

/-! ## Values -/

/-- The least level of the events to show: none at all, or a level by its name in
    any case. -/
def Level.threshold? (name : String) : Option (Option Level) :=
  let upper := name.map Char.toUpper
  if upper = "OFF" then some none
  else ([.error, .warn, .info, .debug, .trace].find? (·.name = upper)).map some

/-- The name of a threshold. -/
def Level.thresholdName : Option Level → String
  | none => "OFF"
  | some level => level.name

/-- The number that decimal digits spell. -/
def digitsValue (digits : List Char) : Nat :=
  digits.foldl (fun n c => 10 * n + (c.toNat - '0'.toNat)) 0

/-- The least number that does not fit in 64 bits. -/
def numberBound : Nat := 0x10000000000000000

/-- A number of at most 64 bits: decimal digits, with an optional plus sign. -/
def readNumber? (text : String) : Option Nat :=
  let digits := match text.toList with
    | '+' :: rest => rest
    | all => all
  if digits.isEmpty || !digits.all Char.isDigit then none
  else
    let n := digitsValue digits
    if n < numberBound then some n else none

/-! ## Options -/

/-- What the command line asks for. -/
structure Options where
  /-- The file of the knowledge base to start with. -/
  kb : Option String := none
  /-- The queries to answer instead of reading commands. -/
  ask : List String := []
  /-- Whether these are answered with their traces. -/
  trace : Bool := false
  json : Bool := false
  noColor : Bool := false
  depthLimit : Nat := defaultDepthLimit
  cycleCheck : Bool := false
  logLevel : Option Level := some .warn
  markdownHelp : Bool := false

namespace Options

/-- The settings that the options ask for. -/
def settings (o : Options) : Except SettingError Settings :=
  Settings.configure (some o.depthLimit) (some o.cycleCheck)

/-- The style that the options ask for. -/
def style (o : Options) : Style := .ofSwitches o.json (!o.noColor)

/-- Why the arguments give no options. -/
inductive Refusal where
  | help
  | version
  | usage
deriving DecidableEq

/-- Sets a switch that has no value. -/
def setFlag (o : Options) : Switch → Except Refusal Options
  | .trace => .ok { o with trace := true }
  | .json => .ok { o with json := true }
  | .noColor => .ok { o with noColor := true }
  | .cycleCheck => .ok { o with cycleCheck := true }
  | .markdownHelp => .ok { o with markdownHelp := true }
  | .help => .error .help
  | .version => .error .version
  | .kb | .ask | .depthLimit | .logLevel => .error .usage

/-- Sets a switch to a value. A path may not be empty, whereas a query may. -/
def setValue (o : Options) (s : Switch) (value : String) : Except Refusal Options :=
  match s with
  | .kb => if value = "" then .error .usage else .ok { o with kb := some value }
  | .ask => .ok { o with ask := o.ask ++ [value] }
  | .depthLimit =>
      match readNumber? value with
      | some n => .ok { o with depthLimit := n }
      | none => .error .usage
  | .logLevel =>
      match Level.threshold? value with
      | some level => .ok { o with logLevel := level }
      | none => .error .usage
  | _ => .error .usage

/-! ## Arguments -/

/-- The options read so far, and what they leave open. -/
structure Reader where
  options : Options := {}
  /-- The switches given so far. -/
  given : List Switch := []
  /-- The switch whose value is to come. -/
  pending : Option Switch := none
  /-- Whether `--` has ended the switches. -/
  closed : Bool := false

namespace Reader

/-- Marks a switch as given. Most may be given only once. -/
def mark (r : Reader) (s : Switch) : Except Refusal Reader :=
  if s ∈ r.given ∧ s.repeats = false then .error .usage
  else .ok { r with given := s :: r.given }

/-- Takes a switch without a value. -/
def flag (r : Reader) (s : Switch) : Except Refusal Reader := do
  let marked ← r.mark s
  let options ← marked.options.setFlag s
  return { marked with options }

/-- Takes a switch with its value. -/
def value (r : Reader) (s : Switch) (value : String) : Except Refusal Reader := do
  let marked ← r.mark s
  let options ← marked.options.setValue s value
  return { marked with options, pending := none }

/-- Takes an argument of the form `--name` or `--name=value`. -/
def long (r : Reader) (body : List Char) : Except Refusal Reader :=
  let name := String.ofList (body.takeWhile (· ≠ '='))
  match Switch.ofLong? name, body.dropWhile (· ≠ '=') with
  | none, _ => .error .usage
  | some s, [] => if s.takesValue then .ok { r with pending := some s } else r.flag s
  | some s, _ :: attached =>
      if s.takesValue then r.value s (String.ofList attached) else .error .usage

/-- Takes an argument of short names after one dash. The first that has a value
    takes what follows it for that, less an equals sign in front, and takes the
    next argument if nothing follows. -/
def cluster (r : Reader) : List Char → Except Refusal Reader
  | [] => .ok r
  | c :: rest =>
      match Switch.ofShort? c with
      | none => .error .usage
      | some s =>
          if s.takesValue then
            match rest with
            | [] => .ok { r with pending := some s }
            | '=' :: attached => r.value s (String.ofList attached)
            | attached => r.value s (String.ofList attached)
          else do
            let next ← r.flag s
            next.cluster rest

/-- Takes an argument. Where a value is to come, it may not look like a switch, but
    a dash alone does not. There are no arguments beside the switches. -/
def take (r : Reader) (argument : String) : Except Refusal Reader :=
  if r.closed then .error .usage
  else match r.pending, argument.toList with
    | some s, ['-'] => r.value s argument
    | some _, '-' :: _ => .error .usage
    | some s, _ => r.value s argument
    | none, ['-', '-'] => .ok { r with closed := true }
    | none, '-' :: '-' :: body => r.long body
    | none, '-' :: c :: rest => r.cluster (c :: rest)
    | none, _ => .error .usage

/-- The options, once all arguments are taken and no value is to come. -/
def finish (r : Reader) : Except Refusal Options :=
  if r.pending.isSome then .error .usage else .ok r.options

end Reader

/-- Reads the options from the arguments. -/
def parse (arguments : List String) : Except Refusal Options := do
  let r ← arguments.foldlM Reader.take {}
  r.finish

end Options

end HornClause

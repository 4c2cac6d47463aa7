/-
  HornClause.Program

  The program as a whole. It loads a knowledge base if told to, and then either
  answers the queries of the command line or runs the console on its input.
-/
import HornClause.CommandLine.Options
import HornClause.Console.Basic

namespace HornClause.Program

/-! ## Start -/

/-- What the options alone lead to. -/
inductive Start where
  /-- The program is done. -/
  | finished (code : Nat) (output : Output)
  /-- The console takes over. -/
  | interactive (console : Console) (output : Output)

/-- The answers to some queries, one after the other. -/
def answers (c : Console) (queries : List String) (traced : Bool) : Output :=
  queries.foldl (fun output query => output ++ c.ask query traced) {}

/-- What follows the loading of a knowledge base: answers, or the console. Where
    queries were to be answered, a failed loading ends the program. -/
def proceed (o : Options) (loaded : Console.Step × Bool) : Start :=
  let (step, success) := loaded
  if o.ask.isEmpty then .interactive step.console step.output
  else if success then .finished 0 (step.output ++ answers step.console o.ask o.trace)
  else .finished 1 step.output

/-- Starts the program. Settings out of bounds end it. -/
def start (files : Files) (o : Options) : Start :=
  match o.settings with
  | .error e => .finished 2 (.complaint e.message)
  | .ok settings =>
      let console : Console := { session := { settings }, style := o.style }
      match o.kb with
      | some path => proceed o (console.load files path)
      | none => proceed o ({ console }, true)

/-! ## The whole run -/

/-- The exit code of a program and what it wrote. -/
structure Report where
  code : Nat
  output : Output

/-- What remains to be said after the console has run. -/
def close (r : Console.Run) : Report :=
  match r.failure with
  | none => ⟨0, r.output⟩
  | some e => ⟨1, r.output ++ .complaint e.message⟩

/-- Runs the program on some input. -/
def run (files : Files) (o : Options) (input : List UInt8) : Report :=
  match start files o with
  | .finished code output => ⟨code, output⟩
  | .interactive console output =>
      let report := close (console.run files input)
      { report with output := output ++ report.output }

end HornClause.Program

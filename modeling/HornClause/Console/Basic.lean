/-
  HornClause.Console.Basic

  The console reads commands line by line and writes to two streams, one for
  answers and one for complaints. Its only state is the session, which nothing
  but a successful `loadkb` changes.
-/
import HornClause.Console.Command
import HornClause.Files.Basic
import HornClause.Session
import HornClause.Trace.Render

namespace HornClause

/-! ## Output -/

/-- What has been written to the two streams. -/
@[ext]
structure Output where
  out : String := ""
  err : String := ""
deriving DecidableEq

namespace Output

instance : Append Output where
  append a b := ⟨a.out ++ b.out, a.err ++ b.err⟩

@[simp] theorem out_append (a b : Output) : (a ++ b).out = a.out ++ b.out := rfl
@[simp] theorem err_append (a b : Output) : (a ++ b).err = a.err ++ b.err := rfl

/-- A line of an answer. -/
def answer (line : String) : Output := { out := line ++ "\n" }

/-- A line of complaint. -/
def complaint (line : String) : Output := { err := line ++ "\n" }

/-- What shows that the console waits for a line. -/
def prompt : Output := { out := "> " }

end Output

/-! ## Commands -/

/-- A session and the style in which it shows traces. -/
structure Console where
  session : Session := {}
  style : Style := .plain

namespace Console

/-- What a command leads to. -/
structure Step where
  console : Console
  output : Output := {}
  /-- Whether the console is left. -/
  exits : Bool := false

/-- Loads a knowledge base and shows it. On failure the present one is kept. The
    flag tells whether a knowledge base was loaded. -/
def load (files : Files) (c : Console) (path : String) : Step × Bool :=
  match KnowledgeBase.load files path with
  | .ok kb =>
      ({ console := { c with session := c.session.install kb }
         output := .answer kb.text ++ .answer "Knowledge base loaded successfully" }, true)
  | .error e => ({ console := c, output := .complaint e.message }, false)

/-- How a trace is written: on lines of its own. -/
def traceText (style : Style) (t : Trace) : String :=
  match style with
  | .json => t.render style ++ "\n"
  | .plain | .coloured => t.render style

/-- Answers a query, with its trace first if asked for. -/
def ask (c : Console) (query : String) (traced : Bool) : Output :=
  match c.session.reply query traced with
  | .ok r =>
      let trace : Output := { out := (r.trace.map (traceText c.style)).getD "" }
      trace ++ .answer (toString r.result)
  | .error e => .complaint e.message

/-- Carries out a command. -/
def perform (files : Files) (c : Console) : Command → Step
  | .nothing => { console := c }
  | .load path => (c.load files path).1
  | .ask query traced => { console := c, output := c.ask query traced }
  | .incomplete name argument =>
      { console := c, output := .complaint (Command.usageText name argument) }
  | .help => { console := c, output := .answer Command.helpText }
  | .exit => { console := c, exits := true }
  | .unknown name => { console := c, output := .complaint (Command.unknownText name) }

/-- Carries out the command of a line. -/
def handle (files : Files) (c : Console) (line : String) : Step :=
  c.perform files (.ofLine line)

/-! ## Runs -/

/-- What a run over some lines leads to. -/
structure Run where
  console : Console
  output : Output := {}
  /-- Why the run was broken off, if it was. -/
  failure : Option ReadError := none

/-- Carries out the commands of lines until one leaves the console or cannot be read.
    A prompt follows every line but the last of these. -/
def runLines (files : Files) (c : Console) : List (Option String) → Run
  | [] => { console := c }
  | none :: _ => { console := c, failure := some .notText }
  | some line :: rest =>
      let step := c.handle files line
      if step.exits then
        { console := step.console, output := step.output }
      else
        let further := step.console.runLines files rest
        { further with output := step.output ++ .prompt ++ further.output }

/-- Runs over the lines of some bytes, after a first prompt. -/
def run (files : Files) (c : Console) (input : List UInt8) : Run :=
  let r := c.runLines files (Text.lines input)
  { r with output := .prompt ++ r.output }

end Console

end HornClause

/-
  HornClause.Main

  The command line program. Everything that it decides is decided by
  `HornClause.Options`, `HornClause.Program` and `HornClause.Console`; here files
  and standard input are read and the two output streams written.
-/
import HornClause.Program

namespace HornClause.Main

/-- How the program is called. -/
def usage : String :=
  "Usage: horn [OPTIONS]\n\n" ++
  "Options:\n" ++
  "  -k, --kb <PATH>          Load a knowledge base at the start\n" ++
  "  -a, --ask <QUERY>        Answer a query and exit (may be repeated)\n" ++
  "  -t, --trace              Answer queries with a tree of the execution\n" ++
  "      --json               Show traces as JSON\n" ++
  "      --no-color           Show traces without colour\n" ++
  "      --depth-limit <N>    Nest at most this many goals\n" ++
  "      --cycle-check        Report a goal that requires itself at once\n" ++
  "      --log-level <LEVEL>  The least level of the events to show\n" ++
  "  -h, --help               Show this help\n" ++
  "  -V, --version            Show the version"

/-- What the program says of its version. -/
def version : String := "horn 0.1.0"

/-- The number of a system error, which is reported with either sign. -/
def errorNumber (code : UInt32) : UInt32 := min code (0 - code)

/-- Why the system did not let a file be read. -/
def readError : IO.Error → ReadError
  | .noFileOrDirectory .. => .missing
  | .permissionDenied .. => .denied
  | .inappropriateType _ code _ => if errorNumber code = 20 then .notDirectory else .isDirectory
  | .invalidArgument _ code details =>
      if errorNumber code = 36 then .nameTooLong else .other details
  | e => .other (toString e)

/-- Reads a file as text. -/
def readText (path : String) : IO (Except ReadError String) := do
  if '\x00' ∈ path.toList then
    return .error .nulInName
  try
    let bytes ← IO.FS.readBinFile path
    match Text.decode bytes.toList with
    | some text => return .ok text
    | none => return .error .notText
  catch e =>
    return .error (readError e)

/-- Writes to the two output streams. -/
def write (o : Output) : IO Unit := do
  let out ← IO.getStdout
  out.putStr o.out
  out.flush
  let err ← IO.getStderr
  err.putStr o.err
  err.flush

/-- The next line of a stream, without its line feed, if there is one. -/
partial def nextLine (input : IO.FS.Stream) (line : ByteArray) : IO (Option ByteArray) := do
  let byte ← input.read 1
  match byte.toList with
  | [] => return if line.isEmpty then none else some line
  | b :: _ => if b = Text.lineFeed then return some line else nextLine input (line.push b)

/-- The files that a command reads, read beforehand. -/
def filesFor (command : Command) : IO Files := do
  match command with
  | .load path => do
      let text ← readText path
      return fun _ => text
  | _ => return fun _ => .error .missing

/-- Runs the console on standard input, and gives the exit code. -/
partial def interact (console : Console) (input : IO.FS.Stream) : IO UInt32 := do
  write .prompt
  match ← nextLine input .empty with
  | none => return 0
  | some bytes =>
      match Text.decode bytes.toList with
      | none =>
          write (.complaint ReadError.notText.message)
          return 1
      | some line =>
          let command := Command.ofLine line
          let step := console.perform (← filesFor command) command
          write step.output
          if step.exits then return 0 else interact step.console input

/-- Runs the program with options, and gives the exit code. -/
def runWith (o : Options) : IO UInt32 := do
  let files ← match o.kb with
    | some path => filesFor (.load path)
    | none => filesFor .nothing
  match Program.start files o with
  | .finished code output =>
      write output
      return code.toUInt32
  | .interactive console output =>
      write output
      interact console (← IO.getStdin)

end HornClause.Main

open HornClause HornClause.Main in
/-- Reads the arguments and runs the program. -/
def main (arguments : List String) : IO UInt32 := do
  match Options.parse arguments with
  | .error .help =>
      write (.answer usage)
      return 0
  | .error .version =>
      write (.answer version)
      return 0
  | .error .usage =>
      write (.complaint usage)
      return 2
  | .ok o =>
      if o.markdownHelp then
        write (.answer usage)
        return 0
      else
        runWith o

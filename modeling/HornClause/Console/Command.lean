/-
  HornClause.Console.Command

  The commands of the console. A command is a line's first word, and its argument
  the second; further words are ignored.
-/
import HornClause.Text.Blank

namespace HornClause

/-- What a line asks for. -/
inductive Command where
  /-- A blank line. -/
  | nothing
  /-- Load the knowledge base of a file. -/
  | load (path : String)
  /-- Answer a query, with or without its trace. -/
  | ask (query : String) (traced : Bool)
  /-- A command without the argument that it needs. -/
  | incomplete (name argument : String)
  /-- List the commands. -/
  | help
  /-- Leave the console. -/
  | exit
  /-- No command has this name. -/
  | unknown (name : String)
deriving DecidableEq

namespace Command

/-- The command of a line's words. -/
def ofWords : List String → Command
  | [] => .nothing
  | "loadkb" :: path :: _ => .load path
  | "ask" :: query :: _ => .ask query false
  | "trace" :: query :: _ => .ask query true
  | ["loadkb"] => .incomplete "loadkb" "<filename>"
  | ["ask"] => .incomplete "ask" "<query>"
  | ["trace"] => .incomplete "trace" "<query>"
  | "help" :: _ => .help
  | "exit" :: _ => .exit
  | name :: _ => .unknown name

/-- The command of a line. -/
def ofLine (line : String) : Command := ofWords (Text.words line)

/-- The list of commands. -/
def helpText : String :=
  "Available commands:\n" ++
  "* loadkb <filename>: Load a knowledge base in horn clause form\n" ++
  "* ask <query>: Ask for a proof in horn clause form\n" ++
  "* trace <query>: Same as 'ask' with a tree of the execution\n" ++
  "* help: Display a list of commands\n" ++
  "* exit"

/-- What is said of a command without its argument. -/
def usageText (name argument : String) : String := "Usage: " ++ name ++ " " ++ argument

/-- What is said of a name that is no command. -/
def unknownText (name : String) : String :=
  "Unknown command: '" ++ name ++ "'\nType 'help' to get a list of commands."

end Command

end HornClause

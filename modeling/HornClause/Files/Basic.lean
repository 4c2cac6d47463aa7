/-
  HornClause.Files.Basic

  Files and streams of bytes, and the knowledge bases that are read from them. All
  that a program sees of its files is a function from paths to their texts. Of a
  stream it sees the lines: a line feed ends a line, and the last line needs none.
-/
import HornClause.KnowledgeBase.Parse

namespace HornClause

/-! ## Bytes as text -/

namespace Text

/-- The text that bytes encode in UTF-8, if they do. -/
def decode (bytes : List UInt8) : Option String :=
  String.fromUTF8? ⟨bytes.toArray⟩

/-- The byte that ends a line. -/
def lineFeed : UInt8 := 10

/-- The lines of some bytes, each without the line feed that ends it. -/
def byteLines (bytes : List UInt8) : List (List UInt8) :=
  let parts := bytes.splitOn lineFeed
  if parts.getLast? = some [] then parts.dropLast else parts

/-- The lines of some bytes as text, where a line that is no UTF-8 has none. A
    carriage return before a line feed stays, being blank. -/
def lines (bytes : List UInt8) : List (Option String) :=
  (byteLines bytes).map decode

end Text

/-! ## What reading a file gives -/

/-- Why a file or a stream cannot be read as text. -/
inductive ReadError where
  /-- Nothing has that name. -/
  | missing
  /-- The file may not be read. -/
  | denied
  /-- Part of the path is no directory. -/
  | notDirectory
  /-- The path leads to a directory. -/
  | isDirectory
  /-- The path, or a name in it, is too long. -/
  | nameTooLong
  /-- A path holds the character NUL. -/
  | nulInName
  /-- The bytes are no UTF-8. -/
  | notText
  /-- Another reason, in words. -/
  | other (reason : String)
deriving DecidableEq

/-- The wording of a failed reading. -/
def ReadError.message : ReadError → String
  | .missing => "No such file or directory (os error 2)"
  | .denied => "Permission denied (os error 13)"
  | .notDirectory => "Not a directory (os error 20)"
  | .isDirectory => "Is a directory (os error 21)"
  | .nameTooLong => "File name too long (os error 36)"
  | .nulInName => "file name contained an unexpected NUL byte"
  | .notText => "stream did not contain valid UTF-8"
  | .other reason => reason

/-- What each path gives when it is read. -/
abbrev Files := String → Except ReadError String

/-! ## Loading a knowledge base -/

/-- Why a knowledge base cannot be loaded. -/
inductive LoadError where
  | read (e : ReadError)
  | parse (e : ParseError)
deriving DecidableEq

/-- The wording of a failed loading. -/
def LoadError.message : LoadError → String
  | .read e => "Failed to read knowledge base: " ++ e.message
  | .parse e => e.message

/-- Reads the knowledge base in a file. -/
def KnowledgeBase.load (files : Files) (path : String) : Except LoadError KnowledgeBase := do
  let text ← (files path).mapError .read
  (KnowledgeBase.parse text).mapError .parse

end HornClause

/-
  HornClause.Text.Json

  The layout of JSON text: quoted strings, and objects and arrays with one field
  or item a line, indented by two spaces a level. This is what the pretty printer
  of `serde_json` writes, restated as definitions for as much of it as traces use:
  there are no numbers, and no object or array is empty.
-/

namespace HornClause.Text.Json

/-! ## Strings -/

/-- The digit of a number's last hexadecimal place, in lower case. -/
def hexDigit (n : Nat) : Char := Nat.digitChar (n % 16)

/-- How one character is written between quotes. The quote, the backslash and the
    control characters below U+0020 are escaped, and nothing else is. -/
def escape (c : Char) : List Char :=
  if c = '"' then ['\\', '"']
  else if c = '\\' then ['\\', '\\']
  else if c = '\x08' then ['\\', 'b']
  else if c = '\t' then ['\\', 't']
  else if c = '\n' then ['\\', 'n']
  else if c = '\x0c' then ['\\', 'f']
  else if c = '\r' then ['\\', 'r']
  else if c.toNat < 0x20 then
    ['\\', 'u', '0', '0', hexDigit (c.toNat / 16), hexDigit c.toNat]
  else [c]

/-- A text between quotes. -/
def quoted (text : String) : String :=
  "\"" ++ String.ofList (text.toList.flatMap escape) ++ "\""

/-! ## Objects and arrays -/

/-- The margin one level further in. -/
def indented (margin : String) : String := margin ++ "  "

/-- A field of an object, on lines with the given margin. -/
def field (margin name value : String) : String :=
  margin ++ quoted name ++ ": " ++ value

/-- An object with some fields, which starts on a line with the given margin. -/
def object (margin : String) (fields : List String) : String :=
  "\x7b\n" ++ ",\n".intercalate fields ++ "\n" ++ margin ++ "\x7d"

/-- An array with some items, which starts on a line with the given margin. -/
def array (margin : String) (items : List String) : String :=
  "[\n" ++ ",\n".intercalate items ++ "\n" ++ margin ++ "]"

end HornClause.Text.Json

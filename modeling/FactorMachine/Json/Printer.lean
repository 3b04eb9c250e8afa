import FactorMachine.Json.Basic

/-!
# FactorMachine — writing JSON

Values over several lines: each element and each member on a line of its own, two spaces
further in than what it belongs to. An empty array or object stays on its line.
-/

namespace FactorMachine.Json

/-- The hexadecimal digit of a number below sixteen. -/
def hexDigit (n : Nat) : Char := if n < 10 then Char.ofNat (48 + n) else Char.ofNat (87 + n)

/-- How a character is written in a string. -/
def writeChar (c : Char) : List Char :=
  if c = '"' then ['\\', '"']
  else if c = '\\' then ['\\', '\\']
  else if c = '\n' then ['\\', 'n']
  else if c = '\r' then ['\\', 'r']
  else if c = '\t' then ['\\', 't']
  else if c = '\x08' then ['\\', 'b']
  else if c = '\x0c' then ['\\', 'f']
  else if c < ' ' then
    ['\\', 'u', '0', '0', hexDigit (c.toNat / 16), hexDigit (c.toNat % 16)]
  else [c]

/-- A text between quotes. -/
def quoted (s : String) : String :=
  String.ofList ('"' :: s.toList.flatMap writeChar ++ ['"'])

/-- The beginning of a line at a depth. -/
def newLine (depth : Nat) : String :=
  String.ofList ('\n' :: List.replicate (2 * depth) ' ')

mutual

/-- A value inside something of the given depth. -/
def render (depth : Nat) : Json → String
  | .null => "null"
  | .bool true => "true"
  | .bool false => "false"
  | .number numeral => numeral
  | .string text => quoted (text.getD "")
  | .array [] => "[]"
  | .array (e :: rest) =>
    "[" ++ newLine (depth + 1) ++ render (depth + 1) e ++ renderElements (depth + 1) rest ++
      newLine depth ++ "]"
  | .object [] => "\x7b\x7d"
  | .object ((key, value) :: rest) =>
    "\x7b" ++ newLine (depth + 1) ++ quoted (key.text.getD "") ++ ": " ++
      render (depth + 1) value ++ renderMembers (depth + 1) rest ++ newLine depth ++ "\x7d"

/-- The elements after the first, each on its line. -/
def renderElements (depth : Nat) : List Json → String
  | [] => ""
  | e :: rest => "," ++ newLine depth ++ render depth e ++ renderElements depth rest

/-- The members after the first, each on its line. -/
def renderMembers (depth : Nat) : List (Key × Json) → String
  | [] => ""
  | (key, value) :: rest =>
    "," ++ newLine depth ++ quoted (key.text.getD "") ++ ": " ++ render depth value ++
      renderMembers depth rest

end

/-- The text of a value. -/
def print (value : Json) : String := render 0 value

end FactorMachine.Json

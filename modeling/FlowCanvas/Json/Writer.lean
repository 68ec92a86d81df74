import FlowCanvas.Json.Value

/-!
# Writing JSON

`compact` writes a value without blanks, `pretty` on lines of their own with two blanks a level.
-/

namespace FlowCanvas.Json

/-- Doubles are written in positions from `0.00001` up to below `10 ^ 16`. -/
def doubleLayout : Decimal.Layout := ⟨-5, 16, "+"⟩

def hexDigit (n : Nat) : Char :=
  if n < 10 then Char.ofNat (48 + n) else Char.ofNat (87 + n)

/-- How a character stands in a string. -/
def escape (c : Char) : List Char :=
  if c == '"' then ['\\', '"']
  else if c == '\\' then ['\\', '\\']
  else if c == '\x08' then ['\\', 'b']
  else if c == '\t' then ['\\', 't']
  else if c == '\n' then ['\\', 'n']
  else if c == '\x0c' then ['\\', 'f']
  else if c == '\r' then ['\\', 'r']
  else if c.toNat < 0x20 then
    ['\\', 'u', '0', '0', hexDigit (c.toNat / 16), hexDigit (c.toNat % 16)]
  else [c]

/-- A string between quotes. -/
def quote (s : String) : String := "\"" ++ String.ofList (s.toList.flatMap escape) ++ "\""

mutual

/-- A value without blanks. -/
def compact : Json → String
  | .null => "null"
  | .bool true => "true"
  | .bool false => "false"
  | .integer n => toString n
  | .double d => Decimal.render doubleLayout d
  | .string s => quote s
  | .array items => "[" ++ compactItems true items ++ "]"
  | .object members => "\x7b" ++ compactMembers true members ++ "\x7d"
  | .unreadable => "null"

def compactItems (first : Bool) : List Json → String
  | [] => ""
  | j :: js => (if first then "" else ",") ++ compact j ++ compactItems false js

def compactMembers (first : Bool) : List (String × Json) → String
  | [] => ""
  | (name, j) :: rest =>
    (if first then "" else ",") ++ quote name ++ ":" ++ compact j ++ compactMembers false rest

end

/-- A new line with two blanks a level. -/
def newLine (level : Nat) : String := "\n" ++ String.ofList (List.replicate (2 * level) ' ')

mutual

/-- A value with each item and member on a line of its own. -/
def prettyAt (level : Nat) : Json → String
  | .array [] => "[]"
  | .array (j :: js) =>
    "[" ++ newLine (level + 1) ++ prettyAt (level + 1) j ++ prettyItems (level + 1) js ++
      newLine level ++ "]"
  | .object [] => "\x7b\x7d"
  | .object ((name, j) :: rest) =>
    "\x7b" ++ newLine (level + 1) ++ quote name ++ ": " ++ prettyAt (level + 1) j ++
      prettyMembers (level + 1) rest ++ newLine level ++ "\x7d"
  | .null => "null"
  | .bool true => "true"
  | .bool false => "false"
  | .integer n => toString n
  | .double d => Decimal.render doubleLayout d
  | .string s => quote s
  | .unreadable => "null"

def prettyItems (level : Nat) : List Json → String
  | [] => ""
  | j :: js => "," ++ newLine level ++ prettyAt level j ++ prettyItems level js

def prettyMembers (level : Nat) : List (String × Json) → String
  | [] => ""
  | (name, j) :: rest =>
    "," ++ newLine level ++ quote name ++ ": " ++ prettyAt level j ++ prettyMembers level rest

end

/-- A value on several lines. -/
def pretty (j : Json) : String := prettyAt 0 j

end FlowCanvas.Json

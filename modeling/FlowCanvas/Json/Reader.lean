import FlowCanvas.Json.Number

/-!
# Reading JSON

`read?` accepts exactly the JSON grammar. At most 127 arrays and objects may stand inside each
other; one that lies deeper is unreadable, and so are a string with half a surrogate pair and a
number out of range.
-/

namespace FlowCanvas.Json

/-- The blanks between the parts of a JSON text. -/
def isSpace (c : Char) : Bool := c == ' ' || c == '\n' || c == '\t' || c == '\r'

def skipSpace (cs : List Char) : List Char := cs.dropWhile isSpace

/-- Splits off the digits at the front. -/
def splitDigits (cs : List Char) : List Nat × List Char :=
  ((cs.takeWhile Char.isDigit).map Text.digitValue, cs.dropWhile Char.isDigit)

/-- A character of a string, or a 16-bit unit written as an escape. -/
inductive StringPart where
  | character (c : Char)
  | unit (n : Nat)
deriving DecidableEq, Repr

/-- Joins surrogate pairs. Half of a pair makes a string unreadable. -/
def joinUnits : List StringPart → Option (List Char)
  | [] => some []
  | .character c :: rest => (joinUnits rest).map (c :: ·)
  | .unit high :: .unit low :: rest =>
    if 0xD800 ≤ high ∧ high < 0xDC00 then
      if 0xDC00 ≤ low ∧ low < 0xE000 then
        (joinUnits rest).map
          (Char.ofNat (0x10000 + (high - 0xD800) * 0x400 + (low - 0xDC00)) :: ·)
      else none
    else if 0xDC00 ≤ high ∧ high < 0xE000 then none
    else (joinUnits (.unit low :: rest)).map (Char.ofNat high :: ·)
  | .unit n :: rest =>
    if 0xD800 ≤ n ∧ n < 0xE000 then none else (joinUnits rest).map (Char.ofNat n :: ·)

/-- What a one-letter escape stands for. -/
def simpleEscape? (c : Char) : Option Char :=
  if c == '"' || c == '\\' || c == '/' then some c
  else if c == 'b' then some '\x08'
  else if c == 'f' then some '\x0c'
  else if c == 'n' then some '\n'
  else if c == 'r' then some '\r'
  else if c == 't' then some '\t'
  else none

/-- Reads the rest of a string up to its closing quote. -/
def stringParts : List Char → Option (List StringPart × List Char)
  | [] => none
  | '"' :: cs => some ([], cs)
  | '\\' :: 'u' :: a :: b :: c :: d :: cs => do
    let digits ← [a, b, c, d].mapM Text.hexValue?
    let (parts, rest) ← stringParts cs
    return (.unit (Text.ofDigits 16 digits) :: parts, rest)
  | '\\' :: e :: cs => do
    let c ← simpleEscape? e
    let (parts, rest) ← stringParts cs
    return (.character c :: parts, rest)
  | c :: cs =>
    if c == '\\' || c.toNat < 0x20 then none
    else do
      let (parts, rest) ← stringParts cs
      return (.character c :: parts, rest)

/-- Reads the rest of a string; the text is missing when it is unreadable. -/
def stringRest (cs : List Char) : Option (Option String × List Char) :=
  (stringParts cs).map fun (parts, rest) => ((joinUnits parts).map String.ofList, rest)

/-- Reads the digits before the point. Only a zero on its own starts with a zero. -/
def wholeDigits : List Char → Option (List Nat × List Char)
  | [] => none
  | c :: cs =>
    if c == '0' then some ([0], cs)
    else if c.isDigit then some (splitDigits (c :: cs))
    else none

/-- Reads a fraction, if there is one. It has at least one digit. -/
def fractionDigits : List Char → Option (List Nat × List Char)
  | '.' :: cs =>
    match splitDigits cs with
    | ([], _) => none
    | (digits, rest) => some (digits, rest)
  | cs => some ([], cs)

/-- Reads an exponent, if there is one. It has at least one digit. -/
def exponentDigits : List Char → Option (Option (Bool × List Nat) × List Char)
  | [] => some (none, [])
  | c :: cs =>
    if c == 'e' || c == 'E' then
      let (negative, cs) :=
        match cs with
        | '+' :: rest => (false, rest)
        | '-' :: rest => (true, rest)
        | _ => (false, cs)
      match splitDigits cs with
      | ([], _) => none
      | (digits, rest) => some (some (negative, digits), rest)
    else some (none, c :: cs)

/-- Reads a number after its sign. -/
def number (negative : Bool) (cs : List Char) : Option (Json × List Char) := do
  let (whole, cs) ← wholeDigits cs
  let (fraction, cs) ← fractionDigits cs
  let (exponent, cs) ← exponentDigits cs
  let plain := fraction.isEmpty && exponent.isNone
  return (Literal.toJson ⟨negative, whole, fraction, exponent, plain⟩, cs)

/-- Reads a word that stands for a value. -/
def word (text : String) (value : Json) (cs : List Char) : Option (Json × List Char) :=
  if text.toList.isPrefixOf cs then some (value, cs.drop text.length) else none

/-- The object with these members, unless one of their names is unreadable. -/
def ofMembers (members : List (Option String × Json)) : Json :=
  match members.mapM fun m => m.1.map fun name => (name, m.2) with
  | some members => .object members
  | none => .unreadable

mutual

/-- Reads a value from at most `n` characters, with room for `room` more arrays and objects inside
each other. -/
def value : Nat → Nat → List Char → Option (Json × List Char)
  | 0, _, _ => none
  | n + 1, room, cs =>
    match skipSpace cs with
    | [] => none
    | c :: cs =>
      if c == '"' then
        (stringRest cs).map fun (text, rest) =>
          match text with
          | some s => (.string s, rest)
          | none => (.unreadable, rest)
      else if c == '-' then number true cs
      else if c.isDigit then number false (c :: cs)
      else if c == 'n' then word "null" .null (c :: cs)
      else if c == 't' then word "true" (.bool true) (c :: cs)
      else if c == 'f' then word "false" (.bool false) (c :: cs)
      else if c == '[' then
        match skipSpace cs with
        | ']' :: rest => some (if room = 0 then .unreadable else .array [], rest)
        | cs =>
          (items n (room - 1) cs).map fun (list, rest) =>
            (if room = 0 then .unreadable else .array list, rest)
      else if c == '\x7b' then
        match skipSpace cs with
        | '\x7d' :: rest => some (if room = 0 then .unreadable else .object [], rest)
        | cs =>
          (members n (room - 1) cs).map fun (list, rest) =>
            (if room = 0 then .unreadable else ofMembers list, rest)
      else none

/-- Reads the items of an array up to its closing bracket. -/
def items : Nat → Nat → List Char → Option (List Json × List Char)
  | 0, _, _ => none
  | n + 1, room, cs => do
    let (first, cs) ← value n room cs
    match skipSpace cs with
    | ',' :: cs =>
      let (others, cs) ← items n room cs
      return (first :: others, cs)
    | ']' :: cs => return ([first], cs)
    | _ => none

/-- Reads the members of an object up to its closing brace. -/
def members : Nat → Nat → List Char → Option (List (Option String × Json) × List Char)
  | 0, _, _ => none
  | n + 1, room, cs =>
    match skipSpace cs with
    | '"' :: cs => do
      let (name, cs) ← stringRest cs
      match skipSpace cs with
      | ':' :: cs =>
        let (first, cs) ← value n room cs
        match skipSpace cs with
        | ',' :: cs =>
          let (others, cs) ← members n room cs
          return ((name, first) :: others, cs)
        | '\x7d' :: cs => return ([(name, first)], cs)
        | _ => none
      | _ => none
    | _ => none

end

/-- How many arrays and objects may stand inside each other. -/
def maxHeight : Nat := 127

/-- Reads a text that holds one value and blanks around it. -/
def read? (text : String) : Option Json :=
  let cs := text.toList
  match value (2 * cs.length + 1) maxHeight cs with
  | some (j, rest) => if (skipSpace rest).isEmpty then some j else none
  | none => none

end FlowCanvas.Json

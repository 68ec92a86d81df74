import FlowCanvas.Text.Digits

/-!
# Settings files

Reads TOML documents in which every key of the top table has a text or a list of texts. Tables,
dotted keys and values of other types are refused like malformed documents.
-/

namespace FlowCanvas.Toml

/-- What a key is given. -/
inductive Entry where
  | text (value : String)
  | texts (values : List String)
deriving DecidableEq, Repr

/-- A character that may stand in a text or a comment: a tab, or one that is no control. -/
def isPrintable (c : Char) : Bool := c == '\t' || (0x20 ≤ c.toNat && c.toNat != 0x7F)

/-- The blanks inside a line. -/
def isSpace (c : Char) : Bool := c == ' ' || c == '\t'

def skipSpace (cs : List Char) : List Char := cs.dropWhile isSpace

/-- Passes over a line's end. -/
def newLine? : List Char → Option (List Char)
  | '\n' :: cs => some cs
  | '\r' :: '\n' :: cs => some cs
  | _ => none

/-- Passes over blanks and line ends. -/
def skipLines : List Char → List Char
  | [] => []
  | '\r' :: '\n' :: cs => skipLines cs
  | c :: cs => if isSpace c || c == '\n' then skipLines cs else c :: cs

/-- Passes over a comment, if there is one, up to the line's end. -/
def skipComment (cs : List Char) : List Char :=
  match cs with
  | '#' :: cs => cs.dropWhile isPrintable
  | _ => cs

/-- Passes over what may follow a value on its line. -/
def endOfLine? (cs : List Char) : Option (List Char) :=
  match skipComment (skipSpace cs) with
  | [] => some []
  | cs => newLine? cs

/-- Passes over blanks, comments and line ends, at most `n` lines of them. -/
def skipLayout : Nat → List Char → List Char
  | 0, cs => cs
  | n + 1, cs =>
    match skipLines cs with
    | '#' :: rest => skipLayout n (rest.dropWhile isPrintable)
    | rest => rest

/-- The character with a code point written in hexadecimal digits. -/
def codePoint? (digits : List Char) : Option Char := do
  let values ← digits.mapM Text.hexValue?
  let n := Text.ofDigits 16 values
  if n < 0xD800 || (0xE000 ≤ n && n < 0x110000) then some (Char.ofNat n) else none

/-- Reads what follows a backslash. -/
def escape? : List Char → Option (Char × List Char)
  | 'b' :: cs => some ('\x08', cs)
  | 't' :: cs => some ('\t', cs)
  | 'n' :: cs => some ('\n', cs)
  | 'f' :: cs => some ('\x0c', cs)
  | 'r' :: cs => some ('\r', cs)
  | '"' :: cs => some ('"', cs)
  | '\\' :: cs => some ('\\', cs)
  | 'u' :: a :: b :: c :: d :: cs => (codePoint? [a, b, c, d]).map (·, cs)
  | 'U' :: a :: b :: c :: d :: e :: f :: g :: h :: cs =>
    (codePoint? [a, b, c, d, e, f, g, h]).map (·, cs)
  | _ => none

/-- Reads the rest of a text between double quotes. -/
def basic : Nat → List Char → Option (List Char × List Char)
  | 0, _ => none
  | _ + 1, [] => none
  | n + 1, c :: cs =>
    if c == '"' then some ([], cs)
    else if c == '\\' then do
      let (e, cs) ← escape? cs
      let (text, rest) ← basic n cs
      return (e :: text, rest)
    else if isPrintable c then (basic n cs).map fun (text, rest) => (c :: text, rest)
    else none

/-- Reads the rest of a text between single quotes. -/
def literal : List Char → Option (List Char × List Char)
  | [] => none
  | c :: cs =>
    if c == '\x27' then some ([], cs)
    else if isPrintable c then (literal cs).map fun (text, rest) => (c :: text, rest)
    else none

/-- Reads the rest of a text over several lines that ends in three of the quote `q`, in front of
which up to two more belong to the text. A backslash at the end of a line hides the blanks after
it when `escapes` holds. -/
def multiLine (q : Char) (escapes : Bool) : Nat → List Char → Option (List Char × List Char)
  | 0, _ => none
  | n + 1, cs =>
    match cs with
    | [] => none
    | c :: rest =>
      if [q, q, q].isPrefixOf cs then
        let after := cs.drop 3
        let extra := (after.take 2).takeWhile (· == q)
        some (extra, after.drop extra.length)
      else if escapes && c == '\\' then
        if (newLine? (skipSpace rest)).isSome then multiLine q escapes n (skipLines rest)
        else do
          let (e, rest) ← escape? rest
          let (text, rest) ← multiLine q escapes n rest
          return (e :: text, rest)
      else
        match newLine? cs with
        | some rest => (multiLine q escapes n rest).map fun (text, rest) => ('\n' :: text, rest)
        | none =>
          if isPrintable c then
            (multiLine q escapes n rest).map fun (text, rest) => (c :: text, rest)
          else none

/-- Passes over the line end right after an opening of three quotes. -/
def skipFirstLine (cs : List Char) : List Char := (newLine? cs).getD cs

/-- Reads a text in any of its four forms. -/
def text? (cs : List Char) : Option (String × List Char) :=
  let read :=
    match cs with
    | '"' :: '"' :: '"' :: rest => multiLine '"' true rest.length (skipFirstLine rest)
    | '"' :: rest => basic rest.length rest
    | '\x27' :: '\x27' :: '\x27' :: rest =>
      multiLine '\x27' false rest.length (skipFirstLine rest)
    | '\x27' :: rest => literal rest
    | _ => none
  read.map fun (text, rest) => (String.ofList text, rest)

/-- Characters of a key that is not quoted. -/
def isKeyChar (c : Char) : Bool := c.isAlphanum || c == '_' || c == '-'

/-- Reads a key, quoted on one line or bare. -/
def key? (cs : List Char) : Option (String × List Char) :=
  match cs with
  | '"' :: rest => (basic rest.length rest).map fun (text, rest) => (String.ofList text, rest)
  | '\x27' :: rest => (literal rest).map fun (text, rest) => (String.ofList text, rest)
  | _ =>
    if (cs.takeWhile isKeyChar).isEmpty then none
    else some (String.ofList (cs.takeWhile isKeyChar), cs.dropWhile isKeyChar)

/-- Reads the texts of a list up to its closing bracket, at most `n` of them. A comma may follow
the last one. -/
def texts? : Nat → List Char → Option (List String × List Char)
  | 0, _ => none
  | n + 1, cs =>
    match skipLayout cs.length cs with
    | ']' :: rest => some ([], rest)
    | cs => do
      let (first, cs) ← text? cs
      match skipLayout cs.length cs with
      | ',' :: cs =>
        let (others, rest) ← texts? n cs
        return (first :: others, rest)
      | ']' :: rest => return ([first], rest)
      | _ => none

/-- Reads a value. -/
def entry? (cs : List Char) : Option (Entry × List Char) :=
  match cs with
  | '[' :: rest => (texts? (rest.length + 1) rest).map fun (list, rest) => (.texts list, rest)
  | _ => (text? cs).map fun (value, rest) => (.text value, rest)

/-- Reads the keys of a document and what they are given, at most `n` lines. -/
def entries? : Nat → List Char → Option (List (String × Entry))
  | 0, cs => if cs.isEmpty then some [] else none
  | n + 1, cs =>
    match skipLayout cs.length cs with
    | [] => some []
    | cs => do
      let (key, cs) ← key? cs
      match skipSpace cs with
      | '=' :: cs =>
        let (entry, cs) ← entry? (skipSpace cs)
        let rest ← endOfLine? cs
        let others ← entries? n rest
        if others.any fun e => e.1 == key then none else return (key, entry) :: others
      | _ => none

/-- Reads a document. A byte order mark may stand in front of it. -/
def read? (text : String) : Option (List (String × Entry)) :=
  let cs := text.toList
  let cs := if cs.head? == some '\ufeff' then cs.drop 1 else cs
  entries? (cs.length + 1) cs

end FlowCanvas.Toml

import FlowCanvas.Source.Error
import FlowCanvas.Text.Blank
import FlowCanvas.Token.Basic

/-!
# From characters to tokens

`tokenize` alternates between the layout in front of a token and the token itself. Layout is the
ASCII blanks and the comments, which run from `#` or `//` to the end of their line.
-/

namespace FlowCanvas.Lexer

/-- Splits off the layout at the front. `comment` tells whether a comment is open. -/
def splitLayout (comment : Bool) : List Char → List Char × List Char
  | [] => ([], [])
  | c :: cs =>
    if comment then
      let (gap, rest) := splitLayout (c != '\n') cs
      (c :: gap, rest)
    else if Text.isLayoutBlank c then
      let (gap, rest) := splitLayout false cs
      (c :: gap, rest)
    else if c == '#' || (c == '/' && cs.head? == some '/') then
      let (gap, rest) := splitLayout true cs
      (c :: gap, rest)
    else ([], c :: cs)

/-- Splits off the rest of a string literal up to and with its closing quote. A backslash hides
the character after it when `escapes` holds. -/
def splitString (quote : Char) (escapes : Bool) : List Char → Option (List Char × List Char)
  | [] => none
  | c :: cs =>
    if escapes && c == '\\' then
      match cs with
      | [] => none
      | d :: ds => (splitString quote escapes ds).map fun (body, rest) => (c :: d :: body, rest)
    else if c == quote then some ([c], cs)
    else (splitString quote escapes cs).map fun (body, rest) => (c :: body, rest)

/-- Characters that continue an identifier or a number. -/
def isWordChar (c : Char) : Bool := c.isAlphanum || c == '_'

/-- Characters that start an identifier. -/
def isWordStart (c : Char) : Bool := c.isAlpha || c == '_' || c == '\x27'

/-- Splits off the rest of a number. A point belongs to it only in front of a digit. -/
def splitNumber : List Char → List Char × List Char
  | [] => ([], [])
  | c :: cs =>
    if isWordChar c || (c == '.' && cs.head?.any Char.isDigit) then
      let (digits, rest) := splitNumber cs
      (c :: digits, rest)
    else ([], c :: cs)

/-- The marks, a longer one before each of its own beginnings. -/
def marks : List String :=
  ["...", "..<", "===", "!==", "\x7b|", "|\x7d", "->", "=>", "==", "!=", "<=", ">=", "&&", "||",
   "+=", "-=", "*=", "/=", "?:", "?.", "..", "\x7b", "\x7d", "(", ")", "[", "]", ";", ",", "=",
   ":", ".", "<", ">", "+", "-", "*", "/", "%", "!", "?", "|", "&", "@", "^", "~", "$"]

/-- The first mark of the table that the text starts with, and what follows it. -/
def splitMark? (cs : List Char) : Option (List Char × List Char) :=
  (marks.find? fun m => m.toList.isPrefixOf cs).map fun m => (m.toList, cs.drop m.length)

/-- Why no token starts at some place. -/
inductive Failure where
  | unterminatedString
  | unexpectedCharacter (found : Char)
deriving DecidableEq, Repr

/-- Splits off the token that starts with `c` and goes on in `cs`. -/
def splitToken (c : Char) (cs : List Char) : Except Failure (TokenKind × List Char × List Char) :=
  if c == '"' || c == '\x60' then
    match splitString c (c == '"') cs with
    | some (body, rest) => .ok (.string, c :: body, rest)
    | none => .error .unterminatedString
  else if c.isDigit then
    let (digits, rest) := splitNumber cs
    .ok (.number, c :: digits, rest)
  else if isWordStart c then
    .ok (.identifier, c :: cs.takeWhile isWordChar, cs.dropWhile isWordChar)
  else
    match splitMark? (c :: cs) with
    | some (mark, rest) => .ok (.punctuation, mark, rest)
    | none => .error (.unexpectedCharacter c)

/-- A failure at a place of the text. -/
def Failure.toError (place : Position) : Failure → SyntaxError
  | .unterminatedString => .unterminatedString place
  | .unexpectedCharacter found => .unexpectedCharacter place found

/-- The tokens of at most `n` characters that start at `here`, and the layout after the last. -/
def scan : Nat → Place → List Char → Except SyntaxError (List Token × List Char)
  | 0, _, cs => .ok ([], cs)
  | n + 1, here, cs =>
    match splitLayout false cs with
    | (gap, []) => .ok ([], gap)
    | (gap, c :: rest) =>
      let start := here.advance gap
      match splitToken c rest with
      | .error failure => .error (failure.toError start.position)
      | .ok (kind, text, rest) =>
        let stop := start.advance text
        match scan n stop rest with
        | .error e => .error e
        | .ok (tokens, last) =>
          .ok (⟨kind, .ofList text, .ofList gap, ⟨start, stop⟩⟩ :: tokens, last)

/-- The tokens of a text, and the layout after the last one. Each token takes a character, so the
text's length bounds their number. -/
def scanAll (source : String) : Except SyntaxError (List Token × List Char) :=
  scan source.toList.length .origin source.toList

/-- The tokens of a text. -/
def tokenize (source : String) : Except SyntaxError (List Token) :=
  (scanAll source).map Prod.fst

end FlowCanvas.Lexer

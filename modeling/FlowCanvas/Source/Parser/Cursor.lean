import FlowCanvas.Source.Error
import FlowCanvas.Token.Brackets

/-!
# Steps over a run of tokens

A step takes the tokens that are left and gives what it read with the tokens after it, or the
error at the place where it got stuck.
-/

namespace FlowCanvas.Parser

/-- A step over the tokens that are left. -/
abbrev Reader (α : Type) := Phrase → Except SyntaxError (α × Phrase)

/-- The error of a step that wants something else than the next token. -/
def errorAt (expected : String) : Phrase → SyntaxError
  | [] => .unexpectedEnd expected
  | t :: _ => .unexpectedToken t.position t.text expected

/-- How an expected mark is written in an error. -/
def quoted (mark : String) : String := "'" ++ mark ++ "'"

/-- Whether the next token is spelled `mark`. -/
def sees (mark : String) : Phrase → Bool
  | [] => false
  | t :: _ => t.is mark

/-- Passes over the next token when it is spelled `mark`. -/
def eat (mark : String) : Phrase → Option Phrase
  | [] => none
  | t :: ts => if t.is mark then some ts else none

/-- Reads a token that passes a test. -/
def readIf (test : Token → Bool) (expected : String) : Reader Token
  | [] => .error (errorAt expected [])
  | t :: ts => if test t then .ok (t, ts) else .error (errorAt expected (t :: ts))

/-- Reads a token spelled `mark`. -/
def expect (mark : String) : Reader Token := readIf (·.is mark) (quoted mark)

/-- Reads an identifier. -/
def identifier : Reader Token := readIf (·.isIdentifier) "an identifier"

/-- Reads up to the first token spelled `mark` outside brackets, and that token. -/
def through (mark : String) (ts : Phrase) : Except SyntaxError ((Phrase × Token) × Phrase) :=
  match Brackets.cut mark ts with
  | some (before, found, after) => .ok ((before, found), after)
  | none => .error (errorAt (quoted mark) ts)

/-- Reads up to the first token spelled `mark` outside brackets, which is left. -/
def upTo (mark : String) (ts : Phrase) : Except SyntaxError (Phrase × Phrase) :=
  match Brackets.cut mark ts with
  | some (before, found, after) => .ok (before, found :: after)
  | none => .error (errorAt (quoted mark) ts)

/-- Reads the name of an annotation, `name` or `qualifier:name`. -/
def annotationName (ts : Phrase) : Except SyntaxError (String × Phrase) := do
  let (first, ts) ← identifier ts
  match eat ":" ts with
  | none => return (first.text, ts)
  | some ts =>
    let (second, ts) ← identifier ts
    return (first.text ++ ":" ++ second.text, ts)

/-- Passes over the value of an annotation, if it has one. -/
def annotationValue (ts : Phrase) : Except SyntaxError Phrase :=
  if sees "\x7b" ts then
    match Brackets.dropGroup ts with
    | some rest => .ok rest
    | none => .error (.unexpectedEnd "a closing bracket")
  else .ok ts

/-- Reads annotations, at most `n` of them. -/
def annotationsFrom : Nat → Reader (List String)
  | 0, ts => .ok ([], ts)
  | n + 1, ts =>
    match eat "@" ts with
    | none => .ok ([], ts)
    | some ts => do
      let (name, ts) ← annotationName ts
      let ts ← annotationValue ts
      let (names, ts) ← annotationsFrom n ts
      return (name :: names, ts)

/-- Reads the annotations at the front and gives their names. -/
def annotations : Reader (List String) := fun ts => annotationsFrom ts.length ts

/-- The words that qualify a member of a module or an object. -/
def qualifierWords : List String :=
  ["public", "private", "isolated", "final", "configurable", "listener", "client", "remote",
   "resource", "transactional"]

/-- Reads the qualifiers at the front. -/
def qualifiers : Phrase → List String × Phrase
  | [] => ([], [])
  | t :: ts =>
    if t.isWord qualifierWords then
      let (words, rest) := qualifiers ts
      (t.text :: words, rest)
    else ([], t :: ts)

end FlowCanvas.Parser

import FlowCanvas.Token.Basic

/-!
# Looking past brackets

Source is divided by searching for a mark outside brackets. Every kind of bracket counts alike:
an opener goes one level down, a closer one level up, and a closer with nothing open ends the
search.
-/

namespace FlowCanvas.Brackets

/-- Divides a phrase at the first token spelled `mark` outside brackets, `depth` of which are
open at the front. -/
def cutFrom (mark : String) (depth : Nat) : Phrase → Option (Phrase × Token × Phrase)
  | [] => none
  | t :: ts =>
    if depth == 0 && t.is mark then some ([], t, ts)
    else if t.isOpener then
      (cutFrom mark (depth + 1) ts).map fun (before, at', after) => (t :: before, at', after)
    else if t.isCloser then
      match depth with
      | 0 => none
      | depth + 1 =>
        (cutFrom mark depth ts).map fun (before, at', after) => (t :: before, at', after)
    else (cutFrom mark depth ts).map fun (before, at', after) => (t :: before, at', after)

/-- Divides a phrase at the first token spelled `mark` outside brackets. -/
def cut (mark : String) (ts : Phrase) : Option (Phrase × Token × Phrase) := cutFrom mark 0 ts

/-- Divides a phrase at its first mark outside brackets, or takes all of it. -/
def cutOrAll (mark : String) (ts : Phrase) : Phrase × Option Phrase :=
  match cut mark ts with
  | some (before, _, after) => (before, some after)
  | none => (ts, none)

/-- Puts a token in front of the first phrase. -/
def consFirst (t : Token) : List Phrase → List Phrase
  | [] => [[t]]
  | p :: ps => (t :: p) :: ps

/-- The phrases between commas outside brackets. A comma at the very end starts no phrase, and a
closer with nothing open ends the division. -/
def segmentsFrom (depth : Nat) : Phrase → List Phrase
  | [] => [[]]
  | t :: ts =>
    if depth == 0 && t.is "," then
      [] :: (if ts.isEmpty then [] else segmentsFrom 0 ts)
    else if t.isOpener then consFirst t (segmentsFrom (depth + 1) ts)
    else if t.isCloser then
      match depth with
      | 0 => [t :: ts]
      | depth + 1 => consFirst t (segmentsFrom depth ts)
    else consFirst t (segmentsFrom depth ts)

/-- The phrases between the commas of a list; an empty list has none. -/
def segments (ts : Phrase) : List Phrase := if ts.isEmpty then [] else segmentsFrom 0 ts

/-- What follows the bracket that closes the outermost of `depth` open ones. -/
def dropGroupFrom (depth : Nat) : Phrase → Option Phrase
  | [] => none
  | t :: ts =>
    if t.isOpener then dropGroupFrom (depth + 1) ts
    else if t.isCloser then
      if depth ≤ 1 then some ts else dropGroupFrom (depth - 1) ts
    else dropGroupFrom depth ts

/-- What follows the bracket group at the front of a phrase. -/
def dropGroup : Phrase → Option Phrase
  | [] => none
  | t :: ts => if t.isOpener then dropGroupFrom 1 ts else some ts

/-- Reads a phrase backwards to the bracket that opens the outermost of `depth` groups, and gives
what stands before it and what it encloses. That bracket has to be a parenthesis. -/
def openBefore (depth : Nat) (inner : Phrase) : Phrase → Option (Phrase × Phrase)
  | [] => none
  | t :: before =>
    if t.isCloser then openBefore (depth + 1) (t :: inner) before
    else if t.isOpener then
      if depth ≤ 1 then
        if t.is "(" then some (before.reverse, inner) else none
      else openBefore (depth - 1) (t :: inner) before
    else openBefore depth (t :: inner) before

/-- Divides a phrase that ends in `)` into what stands before the bracket that this one closes
and what the two enclose. -/
def splitLastGroup? (ts : Phrase) : Option (Phrase × Phrase) :=
  match ts.reverse with
  | [] => none
  | t :: before => if t.is ")" then openBefore 1 [] before else none

end FlowCanvas.Brackets

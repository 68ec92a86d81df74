import FlowCanvas.Text.Position
import FlowCanvas.Text.Split

/-!
# Lines of a text

Byte offsets and positions of one text are turned into each other. The lines of a text are the
pieces between its line feeds, so a text always has at least one line.
-/

namespace FlowCanvas.Text

/-- The pieces of a text between its line feeds. -/
def lines (text : List Char) : List (List Char) := pieces '\n' text

/-- The number of lines. -/
def lineCount (text : List Char) : Nat := (lines text).length

/-- The byte at which line `n` starts, each line in front of it ending in a line feed. -/
def lineStart : List (List Char) → Nat → Nat
  | l :: ls, n + 1 => byteLength l + 1 + lineStart ls n
  | _, _ => 0

/-- Walks to byte `offset`. An offset inside a character counts bytes from the line's start
instead of characters. -/
def positionFrom (lineByte : Nat) (here : Place) (offset : Nat) : List Char → Position
  | [] => here.position
  | c :: cs =>
    if offset ≤ here.byte then here.position
    else if offset < here.byte + c.utf8Size then ⟨here.position.line, offset - lineByte⟩
    else
      let next := here.step c
      positionFrom (if c = '\n' then next.byte else lineByte) next offset cs

/-- The position of a byte offset; offsets past the end stand for the end. -/
def positionAt (text : List Char) (offset : Nat) : Position :=
  positionFrom 0 .origin offset text

/-- The byte offset of a position. The column stops at the end of its line; a line past the last
one has no offset. -/
def offset? (text : List Char) (p : Position) : Option Nat :=
  (lines text)[p.line]?.map fun l => lineStart (lines text) p.line + byteLength (l.take p.column)

/-- The position after the last character. -/
def endPosition (text : List Char) : Position := (Place.origin.advance text).position

/-- Like `offset?`, but the start of the line after the last one is the end of the text. -/
def editOffset? (text : List Char) (p : Position) : Option Nat :=
  if p.line = lineCount text ∧ p.column = 0 then some (byteLength text) else offset? text p

end FlowCanvas.Text

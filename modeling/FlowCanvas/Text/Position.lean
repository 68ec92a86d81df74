/-!
# Positions in a text

A `Position` is what an editor shows: a line and the characters before a place on that line.
A `Place` adds the bytes in front of it, and a `Span` is the stretch between two places.
-/

namespace FlowCanvas

/-- A zero-based line, and the number of characters before a place on that line. -/
structure Position where
  line : Nat
  column : Nat
deriving DecidableEq, Repr, Inhabited

namespace Position

/-- The first position of every text. -/
def zero : Position := ⟨0, 0⟩

instance : LE Position where
  le p q := p.line < q.line ∨ (p.line = q.line ∧ p.column ≤ q.column)

instance : LT Position where
  lt p q := p.line < q.line ∨ (p.line = q.line ∧ p.column < q.column)

theorem le_def (p q : Position) :
    p ≤ q ↔ p.line < q.line ∨ (p.line = q.line ∧ p.column ≤ q.column) :=
  Iff.rfl

theorem lt_def (p q : Position) :
    p < q ↔ p.line < q.line ∨ (p.line = q.line ∧ p.column < q.column) :=
  Iff.rfl

instance (p q : Position) : Decidable (p ≤ q) :=
  decidable_of_iff _ (le_def p q).symm

instance (p q : Position) : Decidable (p < q) :=
  decidable_of_iff _ (lt_def p q).symm

/-- A position is written as its line, a colon and its column. -/
def render (p : Position) : String := toString p.line ++ ":" ++ toString p.column

end Position

/-- The bytes a list of characters takes in UTF-8. -/
def byteLength : List Char → Nat
  | [] => 0
  | c :: cs => c.utf8Size + byteLength cs

@[simp]
theorem byteLength_nil : byteLength [] = 0 := rfl

@[simp]
theorem byteLength_cons (c : Char) (cs : List Char) :
    byteLength (c :: cs) = c.utf8Size + byteLength cs := rfl

@[simp]
theorem byteLength_append (xs ys : List Char) :
    byteLength (xs ++ ys) = byteLength xs + byteLength ys := by
  induction xs with
  | nil => simp
  | cons c cs ih => simp [ih, Nat.add_assoc]

/-- A place in a text: its position, and the bytes in front of it. -/
structure Place where
  position : Position
  byte : Nat
deriving DecidableEq, Repr, Inhabited

namespace Place

/-- Where every text starts. -/
def origin : Place := ⟨.zero, 0⟩

/-- The place after one more character. A line feed starts the next line. -/
def step (p : Place) (c : Char) : Place where
  position :=
    if c = '\n' then ⟨p.position.line + 1, 0⟩ else ⟨p.position.line, p.position.column + 1⟩
  byte := p.byte + c.utf8Size

/-- The place after the characters `cs`. -/
def advance (p : Place) (cs : List Char) : Place := cs.foldl step p

@[simp]
theorem advance_nil (p : Place) : p.advance [] = p := rfl

@[simp]
theorem advance_cons (p : Place) (c : Char) (cs : List Char) :
    p.advance (c :: cs) = (p.step c).advance cs := rfl

@[simp]
theorem advance_append (p : Place) (xs ys : List Char) :
    p.advance (xs ++ ys) = (p.advance xs).advance ys := by
  simp [advance, List.foldl_append]

theorem byte_advance (p : Place) (cs : List Char) :
    (p.advance cs).byte = p.byte + byteLength cs := by
  induction cs generalizing p with
  | nil => rfl
  | cons c cs ih => simp [ih, step]; omega

end Place

/-- The stretch of a text between two places. -/
structure Span where
  start : Place
  stop : Place
deriving DecidableEq, Repr, Inhabited

namespace Span

/-- From the start of `s` to the end of `t`. -/
def through (s t : Span) : Span := ⟨s.start, t.stop⟩

/-- Whether the bytes from `lo` to `hi` lie inside the span. -/
def covers (s : Span) (lo hi : Nat) : Bool := s.start.byte ≤ lo && hi ≤ s.stop.byte

/-- Whether a position lies inside the span, both ends included. -/
def contains (s : Span) (p : Position) : Bool := s.start.position ≤ p && p ≤ s.stop.position

end Span

end FlowCanvas

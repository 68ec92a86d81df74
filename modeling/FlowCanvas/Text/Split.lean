/-!
# Dividing texts

A text with `n` marks has `n + 1` pieces.
-/

namespace FlowCanvas.Text

/-- The pieces of a text between the marks in it. -/
def pieces (mark : Char) : List Char → List (List Char)
  | [] => [[]]
  | c :: cs =>
    if c = mark then [] :: pieces mark cs
    else
      match pieces mark cs with
      | [] => [[c]]
      | p :: ps => (c :: p) :: ps

theorem pieces_ne_nil (mark : Char) (cs : List Char) : pieces mark cs ≠ [] := by
  cases cs with
  | nil => simp [pieces]
  | cons c cs =>
    rw [pieces]
    split
    · simp
    · split <;> simp

/-- Divides a text at its first mark. -/
def splitOnce (mark : Char) (text : String) : Option (String × String) :=
  match text.toList.dropWhile (· != mark) with
  | [] => none
  | _ :: rest => some (.ofList (text.toList.takeWhile (· != mark)), .ofList rest)

end FlowCanvas.Text

import FlowCanvas.Text.Split

/-!
# File paths

A path is kept as it is written. Its components leave out empty pieces and single points, except
for a point that starts a relative path; two paths name the same file when their components agree.
-/

namespace FlowCanvas

structure Path where
  text : String
deriving DecidableEq, Repr, Inhabited

namespace Path

/-- Whether a piece names nothing. -/
def isFiller (piece : List Char) : Bool := piece == [] || piece == ['.']

/-- A path taken apart: what stands in front of its body, and the pieces of the body. -/
structure Parts where
  root : Bool
  leadingPoint : Bool
  body : List (List Char)
deriving DecidableEq, Repr

def parts (p : Path) : Parts :=
  match Text.pieces '/' p.text.toList with
  | [] => ⟨false, false, []⟩
  | first :: rest =>
    if first == [] && !rest.isEmpty then ⟨true, false, rest⟩
    else if first == ['.'] then ⟨false, true, rest⟩
    else ⟨false, false, first :: rest⟩

/-- Whether the path starts at the root. -/
def isAbsolute (p : Path) : Bool := p.parts.root

/-- What tells paths apart: where they start, and the pieces that name something. -/
def components (p : Path) : Bool × Bool × List (List Char) :=
  (p.parts.root, p.parts.leadingPoint, p.parts.body.filter (!isFiller ·))

/-- Whether two paths name the same file. -/
def same (p q : Path) : Bool := p.components == q.components

/-- The pieces without the ones at the end that name nothing. -/
def trimBody (body : List (List Char)) : List (List Char) :=
  (body.reverse.dropWhile isFiller).reverse

/-- The last component, when it is a name. -/
def fileName? (p : Path) : Option String :=
  match (trimBody p.parts.body).getLast? with
  | some name => if name == ['.', '.'] then none else some (String.ofList name)
  | none => none

/-- The path without its last component; the root and the empty path have none. -/
def parent? (p : Path) : Option Path :=
  let start := if p.parts.root then "/" else if p.parts.leadingPoint then "./" else ""
  let bare := if p.parts.leadingPoint then "." else start
  match trimBody p.parts.body with
  | [] => if p.parts.leadingPoint then some ⟨""⟩ else none
  | body =>
    match trimBody body.dropLast with
    | [] => some ⟨bare⟩
    | body => some ⟨start ++ String.intercalate "/" (body.map String.ofList)⟩

/-- The path of `q` seen from `p`. An absolute path stays as it is. -/
def join (p q : Path) : Path :=
  if q.isAbsolute then q
  else if p.text.isEmpty || p.text.toList.getLast? == some '/' then ⟨p.text ++ q.text⟩
  else ⟨p.text ++ "/" ++ q.text⟩

end Path

end FlowCanvas

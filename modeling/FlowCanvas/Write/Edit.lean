import FlowCanvas.Node.Codec
import FlowCanvas.Path

/-!
# Text edits

An edit replaces a range of a file by a text. Edits are grouped by the file they apply to.
-/

namespace FlowCanvas

/-- Replaces what stands between two positions. -/
structure TextEdit where
  start : Position
  stop : Position
  newText : String
deriving DecidableEq, Repr

/-- Edits by the path of their file. -/
abbrev FileEdits := List (String × List TextEdit)

/-- Where the text of a node goes: to the file it was asked for, or to a file next to it. -/
inductive Target where
  | current
  | sibling (name : String)
deriving DecidableEq, Repr

namespace TextEdit

/-- Puts a text in at a position. -/
def insertion (place : Position) (newText : String) : TextEdit := ⟨place, place, newText⟩

def toJson (e : TextEdit) : Json :=
  .object [("range", .object [("start", e.start.toJson), ("end", e.stop.toJson)]),
    ("newText", .string e.newText)]

/-- Whether a range of a node lies in the file that an edit goes to. -/
def inTarget (target : Target) (range : LineRange) : Bool :=
  match target with
  | .current => true
  | .sibling name =>
    range.fileName == name || ("/" ++ name).toList.isSuffixOf range.fileName.toList

/-- The edit that writes a node's text. A new node goes in front of its range, another one
replaces it, and one without a range in the file goes to the file's start. -/
def ofNode (codedata : Codedata) (target : Target) (newText : String) : TextEdit :=
  match codedata.lineRange.filter (inTarget target) with
  | some range =>
    if codedata.isNew then insertion range.start newText else ⟨range.start, range.stop, newText⟩
  | none => insertion .zero newText

end TextEdit

namespace Target

/-- The path of a target, seen from the file that was asked for. -/
def path (file : Path) : Target → Path
  | .current => file
  | .sibling name =>
    match file.parent? with
    | some folder => folder.join ⟨name⟩
    | none => ⟨name⟩

end Target

namespace FileEdits

def single (path : Path) (edit : TextEdit) : FileEdits := [(path.text, [edit])]

def toJson (edits : FileEdits) : Json :=
  .object (edits.map fun (path, list) => (path, .array (list.map TextEdit.toJson)))

end FileEdits

end FlowCanvas

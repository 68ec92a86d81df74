import FlowCanvas.Node.Codec

/-!
# Diagrams

A diagram holds the nodes of one range in program order, and the connections visible there sorted
by the name of their variable. Its outline is a tree drawn with box characters.
-/

namespace FlowCanvas

structure Diagram where
  filePath : String
  nodes : List FlowNode
  connections : List FlowNode

namespace Diagram

/-- Whether a connection may stand in front of another. -/
def inOrder (a b : FlowNode) : Bool := !decide (b.variableName < a.variableName)

/-- The diagram of some nodes and connections; connections of one name keep their order. -/
def ofNodes (filePath : String) (nodes connections : List FlowNode) : Diagram :=
  ⟨filePath, nodes, connections.mergeSort inOrder⟩

def isEmpty (d : Diagram) : Bool := d.nodes.isEmpty && d.connections.isEmpty

def toJson (d : Diagram) : Json :=
  .object [("filePath", .string d.filePath), ("nodes", .array (FlowNode.nodesToJson d.nodes)),
    ("connections", .array (FlowNode.nodesToJson d.connections))]

def ofJson? (j : Json) : Option Diagram :=
  match j.record? ["filePath", "nodes", "connections"] with
  | some [filePath, nodes, connections] => do
    return ⟨← Json.required Json.asString? filePath,
      ← Json.required (Json.listOf? FlowNode.ofJson?) nodes,
      ← Json.required (Json.listOf? FlowNode.ofJson?) connections⟩
  | _ => none

/-- The mark in front of an entry. -/
def marker (isLast : Bool) : String := if isLast then "└── " else "├── "

/-- What stands below the mark of an entry. -/
def indent (isLast : Bool) : String := if isLast then "    " else "│   "

/-- The line of a node: its label, its kind and where it starts. -/
def nodeLine (n : FlowNode) : String :=
  n.metadata.label ++ " (" ++ n.kind.word ++ ")" ++
    (match n.codedata.lineRange with
    | some range => " @" ++ range.start.render
    | none => "") ++ "\n"

mutual

def outlineNodes (margin : String) : List FlowNode → String
  | [] => ""
  | ⟨id, kind, metadata, codedata, properties, branches, flags⟩ :: ns =>
    margin ++ marker ns.isEmpty ++
      nodeLine ⟨id, kind, metadata, codedata, properties, [], flags⟩ ++
      outlineBranches (margin ++ indent ns.isEmpty) branches ++ outlineNodes margin ns

def outlineBranches (margin : String) : List (Branch FlowNode) → String
  | [] => ""
  | ⟨label, _, children⟩ :: bs =>
    margin ++ marker bs.isEmpty ++ "[" ++ label ++ "]\n" ++
      outlineNodes (margin ++ indent bs.isEmpty) children ++ outlineBranches margin bs

end

/-- The diagram as a tree. -/
def outline (d : Diagram) : String :=
  d.filePath ++ "\n├── connections\n" ++ outlineNodes "│   " d.connections ++
    "└── nodes\n" ++ outlineNodes "    " d.nodes

end Diagram

end FlowCanvas

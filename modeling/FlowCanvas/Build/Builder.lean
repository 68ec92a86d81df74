import FlowCanvas.Build.Node
import FlowCanvas.Write.Edit
import FlowCanvas.Write.Statement

/-!
# Builders

A builder says how nodes of one kind are made and written. There is one for each kind, and any of
them can be replaced.
-/

namespace FlowCanvas

/-- How nodes of one kind are made and written. -/
structure NodeBuilder where
  /-- The node with a given codedata and nothing else of its own. -/
  bare : Codedata → FlowNode
  /-- A fresh node, ready to be filled in. -/
  fresh : Codedata → Registry → Except BuildError FlowNode
  /-- Whether a fresh node is made from a registry's template. -/
  consults : Codedata → Bool
  /-- The node at a site. -/
  build : Context → Site → Except BuildError FlowNode
  /-- Whether a node built at a site asked the registry for a template. -/
  consulted : FlowNode → Bool
  /-- The statement of a node, given its branches with their children written. -/
  write : FlowNode → List (Branch WrittenNode) → Except BuildError (List Piece)
  /-- The file a node is written to, given the name of the file for connections. -/
  target : FlowNode → String → Except BuildError Target

/-- A builder for each kind of node. -/
structure Builders where
  get : NodeKind → NodeBuilder

namespace Write

/-- Local connections stay in their file, global ones go to the file for connections. -/
def connectionTarget (n : FlowNode) (connectionsFile : String) : Except BuildError Target := do
  let scope ← require n "scope"
  match Tier.ofWord? scope with
  | some .local => return .current
  | some .global => return .sibling connectionsFile
  | _ => .error (.invalidScope scope)

/-- The file a node is written to. -/
def target (n : FlowNode) (connectionsFile : String) : Except BuildError Target :=
  match n.kind with
  | .newConnection => connectionTarget n connectionsFile
  | _ => .ok .current

end Write

namespace NodeBuilder

/-- The builder that a kind has from the start. -/
def standard (kind : NodeKind) : NodeBuilder where
  bare := Template.bare kind
  fresh := Template.fresh kind
  consults := Template.consults kind
  build := Build.node kind
  consulted := Build.consulted
  write := Write.statement
  target := Write.target

end NodeBuilder

namespace Builders

def standard : Builders := ⟨NodeBuilder.standard⟩

/-- Replaces the builder of a kind. -/
def replace (b : Builders) (kind : NodeKind) (builder : NodeBuilder) : Builders :=
  ⟨fun k => if k = kind then builder else b.get k⟩

/-- The fresh node a codedata describes. -/
def fresh (b : Builders) (codedata : Codedata) (registry : Registry) :
    Except BuildError FlowNode :=
  (b.get codedata.node).fresh codedata registry

/-- The node a codedata describes, with nothing of its own. -/
def bare (b : Builders) (codedata : Codedata) : FlowNode := (b.get codedata.node).bare codedata

mutual

/-- Writes a node, its children first. -/
def written (b : Builders) : FlowNode → WrittenNode
  | ⟨id, kind, metadata, codedata, properties, branches, flags⟩ =>
    ⟨kind, ((b.get kind).write ⟨id, kind, metadata, codedata, properties, branches, flags⟩
      (writtenBranches b branches)).map Piece.render⟩

def writtenBranches (b : Builders) : List (Branch FlowNode) → List (Branch WrittenNode)
  | [] => []
  | ⟨label, properties, children⟩ :: rest =>
    ⟨label, properties, writtenNodes b children⟩ :: writtenBranches b rest

def writtenNodes (b : Builders) : List FlowNode → List WrittenNode
  | [] => []
  | n :: ns => written b n :: writtenNodes b ns

end

/-- The edits that write a node to its file. -/
def toSource (b : Builders) (n : FlowNode) (file : Path) (connectionsFile : String) :
    Except BuildError FileEdits := do
  let target ← (b.get n.kind).target n connectionsFile
  let text ← (b.written n).text
  return .single (target.path file) (.ofNode n.codedata target text)

end Builders

end FlowCanvas

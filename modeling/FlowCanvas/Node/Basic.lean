import FlowCanvas.Node.Property
import FlowCanvas.Path
import FlowCanvas.Text.Lines

/-!
# Nodes of a flow diagram

A node stands for one statement. It is a template while it has no line range, and concrete once it
has a place in a source. Control nodes hold their blocks as branches.
-/

namespace FlowCanvas

/-- A stretch of a named file. -/
structure LineRange where
  fileName : String
  start : Position
  stop : Position
deriving DecidableEq, Repr

/-- Where a node's statement is, and which symbol of which module it uses. -/
structure Codedata where
  node : NodeKind
  org : Option String := none
  moduleName : Option String := none
  /-- The name `moduleName` is referred to by in the source. -/
  moduleQualifier : Option String := none
  object : Option String := none
  symbol : Option String := none
  parentSymbol : Option String := none
  lineRange : Option LineRange := none
  sourceCode : Option String := none
  isNew : Bool := false
  inDisplayAnnotation : Bool := false
deriving DecidableEq, Repr

/-- What follows the last point of a dotted name. -/
def lastPart (name : String) : String :=
  String.ofList ((name.toList.reverse.takeWhile (· != '.')).reverse)

namespace Codedata

def ofKind (kind : NodeKind) : Codedata := { node := kind }

/-- The codedata of a symbol that another module defines. -/
def external (kind : NodeKind) (org moduleName : String) (object : Option String)
    (symbol : String) : Codedata :=
  { node := kind, org := some org, moduleName := some moduleName, object := object,
    symbol := some symbol }

/-- The name in front of the colon when the symbol is used: the one read from the source, or the
last part of the module's name. -/
def qualifier? (c : Codedata) : Option String :=
  match c.moduleQualifier with
  | some q => some q
  | none => c.moduleName.map lastPart

/-- What messages call the symbol. -/
def descriptor (c : Codedata) : String :=
  let part (text : Option String) (mark : String) :=
    match text with
    | some t => t ++ mark
    | none => ""
  c.node.word ++ " " ++ part c.org "/" ++ part c.moduleName ":" ++ part c.object "." ++
    c.symbol.getD "?"

end Codedata

/-- What a diagram shows of a node. -/
structure Metadata where
  label : String
  description : String
deriving DecidableEq, Repr, Inhabited

namespace Metadata

def empty : Metadata := ⟨"", ""⟩

end Metadata

/-- A set of flags as the bits of a 32-bit number. Bits without a name are kept. -/
structure Flags where
  bits : UInt32
deriving DecidableEq, Repr, Inhabited

namespace Flags

def none : Flags := ⟨0⟩

/-- The result of the call is unwrapped with `check`. -/
def checked : Flags := ⟨1⟩

/-- The statement returns the result of the call. -/
def returning : Flags := ⟨2⟩

/-- The value is made by a mapping function. -/
def dataMapped : Flags := ⟨4⟩

/-- The declaration is `final`. -/
def final : Flags := ⟨8⟩

def contains (f g : Flags) : Bool := f.bits &&& g.bits == g.bits

def insert (f g : Flags) : Flags := ⟨f.bits ||| g.bits⟩

def remove (f g : Flags) : Flags := ⟨f.bits &&& ~~~g.bits⟩

def set (f g : Flags) (on : Bool) : Flags := if on then f.insert g else f.remove g

end Flags

/-- A block of a control node. -/
structure Branch (ν : Type) where
  label : String
  properties : PropertyBag
  children : List ν
deriving Repr

namespace Branch

def thenLabel : String := "Then"

def elseLabel : String := "Else"

def bodyLabel : String := "Body"

def ofChildren {ν : Type} (label : String) (children : List ν) : Branch ν :=
  ⟨label, .empty, children⟩

end Branch

/-- A node of a flow diagram. -/
structure FlowNode where
  id : Option String
  kind : NodeKind
  metadata : Metadata
  codedata : Codedata
  properties : PropertyBag
  branches : List (Branch FlowNode)
  flags : Flags

namespace FlowNode

/-- A bare node. The codedata's kind becomes the node's. -/
def withCodedata (kind : NodeKind) (codedata : Codedata) : FlowNode :=
  ⟨none, kind, .empty, { codedata with node := kind }, .empty, [], .none⟩

def ofKind (kind : NodeKind) : FlowNode := withCodedata kind (.ofKind kind)

def isTemplate (n : FlowNode) : Bool := n.codedata.lineRange.isNone

def hasFlag (n : FlowNode) (flag : Flags) : Bool := n.flags.contains flag

def returning (n : FlowNode) : Bool := n.hasFlag .returning

/-- The name of the variable the node binds; connections are sorted by it. -/
def variableName (n : FlowNode) : String :=
  match n.properties.get? "variable" with
  | some p => p.sourceText
  | none => ""

def branch? (n : FlowNode) (label : String) : Option (Branch FlowNode) :=
  n.branches.find? fun b => b.label == label

/-- Puts a property into the node's bag. -/
def withProperty (n : FlowNode) (p : Property) : FlowNode :=
  { n with properties := n.properties.insert p }

/-- Puts properties into the node's bag, one after the other. -/
def withProperties (n : FlowNode) (ps : List Property) : FlowNode :=
  { n with properties := n.properties.insertAll ps }

/-- Sets or clears a flag. -/
def withFlag (n : FlowNode) (flag : Flags) (on : Bool) : FlowNode :=
  { n with flags := n.flags.set flag on }

def withLabel (n : FlowNode) (label : String) : FlowNode :=
  { n with metadata := { n.metadata with label := label } }

end FlowNode

end FlowCanvas

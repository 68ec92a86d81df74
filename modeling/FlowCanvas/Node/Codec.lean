import FlowCanvas.Json.Reader
import FlowCanvas.Node.Basic

/-!
# Nodes as JSON

Members that say nothing are left out when a node is written: missing values, empty descriptions,
empty branch lists and flags that do not hold. Reading puts the same values back.
-/

namespace FlowCanvas

namespace Json

/-- A member that is left out when there is no value. -/
def member? (name : String) (value : Option Json) : List (String × Json) :=
  match value with
  | some j => [(name, j)]
  | none => []

/-- A text member that is left out when there is no text. -/
def text? (name : String) (value : Option String) : List (String × Json) :=
  member? name (value.map .string)

/-- A flag that is left out when it does not hold. -/
def flag? (name : String) (value : Bool) : List (String × Json) :=
  if value then [(name, .bool true)] else []

def ofNat (n : Nat) : Json := .integer n

end Json

namespace Position

def toJson (p : Position) : Json :=
  .object [("line", .ofNat p.line), ("offset", .ofNat p.column)]

def ofJson? (j : Json) : Option Position :=
  match j.record? ["line", "offset"] with
  | some [line, offset] => do
    return ⟨← Json.required Json.asWord? line, ← Json.required Json.asWord? offset⟩
  | _ => none

end Position

namespace LineRange

def toJson (r : LineRange) : Json :=
  .object [("fileName", .string r.fileName), ("startLine", r.start.toJson),
    ("endLine", r.stop.toJson)]

def ofJson? (j : Json) : Option LineRange :=
  match j.record? ["fileName", "startLine", "endLine"] with
  | some [fileName, start, stop] => do
    return ⟨← Json.required Json.asString? fileName, ← Json.required Position.ofJson? start,
      ← Json.required Position.ofJson? stop⟩
  | _ => none

end LineRange

namespace Metadata

def toJson (m : Metadata) : Json :=
  .object (("label", .string m.label) ::
    Json.text? "description" (if m.description.isEmpty then none else some m.description))

def ofJson? (j : Json) : Option Metadata :=
  match j.record? ["label", "description"] with
  | some [label, description] => do
    return ⟨← Json.orElse "" Json.asString? label, ← Json.orElse "" Json.asString? description⟩
  | _ => none

end Metadata

namespace Codedata

def toJson (c : Codedata) : Json :=
  .object (("node", .string c.node.word) ::
    (Json.text? "org" c.org ++ Json.text? "module" c.moduleName ++
      Json.text? "modulePrefix" c.moduleQualifier ++ Json.text? "object" c.object ++
      Json.text? "symbol" c.symbol ++ Json.text? "parentSymbol" c.parentSymbol ++
      Json.member? "lineRange" (c.lineRange.map LineRange.toJson) ++
      Json.text? "sourceCode" c.sourceCode ++ Json.flag? "isNew" c.isNew ++
      Json.flag? "inDisplayAnnotation" c.inDisplayAnnotation))

def ofJson? (j : Json) : Option Codedata :=
  match j.record? ["node", "org", "module", "modulePrefix", "object", "symbol", "parentSymbol",
      "lineRange", "sourceCode", "isNew", "inDisplayAnnotation"] with
  | some [node, org, moduleName, qualifier, object, symbol, parentSymbol, lineRange, sourceCode,
      isNew, inDisplayAnnotation] => do
    return {
      node := ← Json.required (Json.asWordOf? NodeKind.ofWord?) node
      org := ← Json.optional Json.asString? org
      moduleName := ← Json.optional Json.asString? moduleName
      moduleQualifier := ← Json.optional Json.asString? qualifier
      object := ← Json.optional Json.asString? object
      symbol := ← Json.optional Json.asString? symbol
      parentSymbol := ← Json.optional Json.asString? parentSymbol
      lineRange := ← Json.optional LineRange.ofJson? lineRange
      sourceCode := ← Json.optional Json.asString? sourceCode
      isNew := ← Json.orElse false Json.asBool? isNew
      inDisplayAnnotation := ← Json.orElse false Json.asBool? inDisplayAnnotation }
  | _ => none

end Codedata

namespace Property

/-- A property as JSON. Its key stands outside, in the bag. -/
def toJson (p : Property) : Json :=
  .object (("displayLabel", .string p.label) ::
    (Json.text? "description" (if p.description.isEmpty then none else some p.description) ++
      [("valueType", .string p.valueType.word), ("value", p.value),
        ("optional", .bool p.optional), ("editable", .bool p.editable)] ++
      Json.member? "defaultValue" p.defaultValue))

def ofJson? (key : String) (j : Json) : Option Property :=
  match j.record? ["displayLabel", "description", "valueType", "value", "optional", "editable",
      "defaultValue"] with
  | some [label, description, valueType, value, optional, editable, defaultValue] => do
    return {
      key := key
      label := ← Json.orElse "" Json.asString? label
      description := ← Json.orElse "" Json.asString? description
      valueType := ← Json.required (Json.asWordOf? ValueType.ofWord?) valueType
      value := ← Json.orElse .null Json.canonical? value
      optional := ← Json.orElse false Json.asBool? optional
      editable := ← Json.orElse true Json.asBool? editable
      defaultValue := ← Json.optional Json.canonical? defaultValue }
  | _ => none

end Property

namespace PropertyBag

def toJson (b : PropertyBag) : Json := .object (b.entries.map fun p => (p.key, p.toJson))

/-- Reads the members of a bag after those in `b`. No key may be given twice. -/
def ofMembers? (b : PropertyBag) : List (String × Json) → Option PropertyBag
  | [] => some b
  | (key, j) :: rest => do
    let p ← Property.ofJson? key j
    if h : b.contains p.key then none else ofMembers? (b.push p h) rest

def ofJson? (j : Json) : Option PropertyBag := j.asObject?.bind (ofMembers? empty)

end PropertyBag

namespace Flags

def toJson (f : Flags) : Json := .ofNat f.bits.toNat

def ofJson? (j : Json) : Option Flags := j.asWord?.map fun n => ⟨UInt32.ofNat n⟩

end Flags

namespace FlowNode

/-- The members of a node, given its branches as JSON. -/
def toMembers (n : FlowNode) (branches : List Json) : List (String × Json) :=
  Json.text? "id" n.id ++
    [("kind", .string n.kind.word), ("metadata", n.metadata.toJson),
      ("codedata", n.codedata.toJson), ("properties", n.properties.toJson)] ++
    Json.member? "branches" (if branches.isEmpty then none else some (.array branches)) ++
    [("flags", n.flags.toJson)]

mutual

def toJson : FlowNode → Json
  | ⟨id, kind, metadata, codedata, properties, branches, flags⟩ =>
    .object (toMembers ⟨id, kind, metadata, codedata, properties, [], flags⟩
      (branchesToJson branches))

def branchesToJson : List (Branch FlowNode) → List Json
  | [] => []
  | b :: bs => branchToJson b :: branchesToJson bs

def branchToJson : Branch FlowNode → Json
  | ⟨label, properties, children⟩ =>
    .object (("label", .string label) ::
      (Json.member? "properties" (if properties.isEmpty then none else some properties.toJson) ++
        [("children", .array (nodesToJson children))]))

def nodesToJson : List FlowNode → List Json
  | [] => []
  | n :: ns => toJson n :: nodesToJson ns

end

/-- Reads a branch, given how nodes are read. -/
def branchOfJson? (node : Json → Option FlowNode) (j : Json) : Option (Branch FlowNode) :=
  match j.record? ["label", "properties", "children"] with
  | some [label, properties, children] => do
    return ⟨← Json.required Json.asString? label,
      ← Json.orElse .empty PropertyBag.ofJson? properties,
      ← Json.orElse [] (Json.listOf? node) children⟩
  | _ => none

/-- Reads a node with at most `n` nodes inside each other. -/
def ofJsonAt? : Nat → Json → Option FlowNode
  | 0, _ => none
  | n + 1, j =>
    match j.record? ["id", "kind", "metadata", "codedata", "properties", "branches", "flags"] with
    | some [id, kind, metadata, codedata, properties, branches, flags] => do
      return {
        id := ← Json.optional Json.asString? id
        kind := ← Json.required (Json.asWordOf? NodeKind.ofWord?) kind
        metadata := ← Json.orElse .empty Metadata.ofJson? metadata
        codedata := ← Json.required Codedata.ofJson? codedata
        properties := ← Json.orElse .empty PropertyBag.ofJson? properties
        branches := ← Json.orElse [] (Json.listOf? (branchOfJson? (ofJsonAt? n))) branches
        flags := ← Json.orElse .none Flags.ofJson? flags }
    | _ => none

/-- Reads a node. -/
def ofJson? (j : Json) : Option FlowNode := ofJsonAt? j.height j

end FlowNode

end FlowCanvas

import FlowCanvas.Document
import FlowCanvas.Write.Edit

/-!
# Type definitions for an editor

The type definitions of a document can be listed, read and replaced. `update` replaces the
definition of a name, or puts a new one at the end of the document.
-/

namespace FlowCanvas

inductive TypeKind where
  | record
  | enum
  | other
deriving DecidableEq, Repr

namespace TypeKind

def word : TypeKind → String
  | .record => "RECORD"
  | .enum => "ENUM"
  | .other => "OTHER"

def ofWord? (word : String) : Option TypeKind :=
  [TypeKind.record, .enum, .other].find? fun k => k.word == word

end TypeKind

/-- A field of a record or a member of an enumeration, which has no type. -/
structure TypeMember where
  name : String
  type : String
  optional : Bool
  defaultValue : Option String
deriving DecidableEq, Repr

/-- A type definition as an editor sees it. -/
structure TypeData where
  name : String
  editable : Bool
  metadata : Metadata
  lineRange : Option LineRange
  kind : TypeKind
  isPublic : Bool
  /-- Whether a record takes fields it does not name. -/
  isOpen : Bool
  members : List TypeMember
  includes : List String
  restType : Option String
  /-- The text of a type that is neither a record nor an enumeration. -/
  descriptor : Option String
deriving DecidableEq, Repr

namespace TypeMember

def toJson (m : TypeMember) : Json :=
  .object ([("name", .string m.name), ("type", .string m.type), ("optional", .bool m.optional)] ++
    Json.text? "defaultValue" m.defaultValue)

def ofJson? (j : Json) : Option TypeMember :=
  match j.record? ["name", "type", "optional", "defaultValue"] with
  | some [name, type, optional, defaultValue] => do
    return ⟨← Json.required Json.asString? name, ← Json.orElse "" Json.asString? type,
      ← Json.orElse false Json.asBool? optional, ← Json.optional Json.asString? defaultValue⟩
  | _ => none

def ofField (f : RecordField) : TypeMember :=
  ⟨f.name, f.type.text, f.optional, f.default.map Phrase.text⟩

/-- The field as it stands in a record. -/
def source (m : TypeMember) : String :=
  m.type ++ " " ++ m.name ++ (if m.optional then "?" else "") ++
    (match m.defaultValue with
    | some value => " = " ++ value ++ ";"
    | none => ";")

end TypeMember

namespace TypeData

def toJson (d : TypeData) : Json :=
  .object ([("name", .string d.name), ("editable", .bool d.editable),
      ("metadata", d.metadata.toJson)] ++
    Json.member? "lineRange" (d.lineRange.map LineRange.toJson) ++
    [("typeKind", .string d.kind.word), ("isPublic", .bool d.isPublic),
      ("allowAdditionalFields", .bool d.isOpen),
      ("members", .array (d.members.map TypeMember.toJson))] ++
    Json.member? "includes"
      (if d.includes.isEmpty then none else some (.array (d.includes.map .string))) ++
    Json.text? "restType" d.restType ++ Json.text? "descriptor" d.descriptor)

def ofJson? (j : Json) : Option TypeData :=
  match j.record? ["name", "editable", "metadata", "lineRange", "typeKind", "isPublic",
      "allowAdditionalFields", "members", "includes", "restType", "descriptor"] with
  | some [name, editable, metadata, lineRange, kind, isPublic, isOpen, members, includes, restType,
      descriptor] => do
    return {
      name := ← Json.required Json.asString? name
      editable := ← Json.orElse true Json.asBool? editable
      metadata := ← Json.orElse .empty Metadata.ofJson? metadata
      lineRange := ← Json.optional LineRange.ofJson? lineRange
      kind := ← Json.required (Json.asWordOf? TypeKind.ofWord?) kind
      isPublic := ← Json.orElse false Json.asBool? isPublic
      isOpen := ← Json.orElse false Json.asBool? isOpen
      members := ← Json.orElse [] (Json.listOf? TypeMember.ofJson?) members
      includes := ← Json.orElse [] (Json.listOf? Json.asString?) includes
      restType := ← Json.optional Json.asString? restType
      descriptor := ← Json.optional Json.asString? descriptor }
  | _ => none

/-- The line range of a span of a document. -/
def rangeOf (d : Document) (span : Span) : LineRange :=
  ⟨d.fileName, span.start.position, span.stop.position⟩

/-- What an editor sees of a definition. -/
def ofDefinition (d : Document) (t : TypeDefinition) : TypeData :=
  let data : TypeData :=
    ⟨t.name, true, ⟨t.name, ""⟩, some (rangeOf d t.span), .record, t.isPublic, false, [], [],
      none, none⟩
  match t.descriptor with
  | .record r =>
    { data with
      isOpen := !r.closed, members := r.fields.map .ofField,
      includes := r.inclusions.map Phrase.text, restType := r.rest.map Phrase.text }
  | .enumeration members =>
    { data with kind := .enum, members := members.map fun m => ⟨m.text, "", false, none⟩ }
  | .other descriptor => { data with kind := .other, descriptor := some descriptor.text }

/-- The entries of a record: inclusions, fields and the rest type. -/
def entries (d : TypeData) : List String :=
  d.includes.map (fun name => "*" ++ name ++ ";") ++ d.members.map TypeMember.source ++
    (d.restType.map fun rest => rest ++ "...;").toList

/-- The definition as source text, on one line. -/
def source (d : TypeData) : String :=
  let visibility := if d.isPublic then "public " else ""
  match d.kind with
  | .record =>
    let (opening, closing) := if d.isOpen then ("\x7b", "\x7d") else ("\x7b|", "|\x7d")
    let fields := String.intercalate " " d.entries
    let body := if fields.isEmpty then "" else " " ++ fields ++ " "
    visibility ++ "type " ++ d.name ++ " record " ++ opening ++ body ++ closing ++ ";"
  | .enum =>
    visibility ++ "enum " ++ d.name ++ " \x7b " ++
      String.intercalate ", " (d.members.map (·.name)) ++ " \x7d"
  | .other =>
    visibility ++ "type " ++ d.name ++ " " ++ d.descriptor.getD "anydata" ++ ";"

/-- The type definition that a member is. -/
def definition? : Member → Option TypeDefinition
  | .typeDefinition t => some t
  | _ => none

/-- The type definitions of a document, in source order. -/
def definitions (d : Document) : List TypeDefinition := d.tree.members.filterMap definition?

/-- Every type definition of a document. -/
def list (d : Document) : List TypeData := (definitions d).map (ofDefinition d)

/-- The type definition around a position. -/
def atPosition? (d : Document) (p : Position) : Option TypeData :=
  ((definitions d).find? fun t => t.span.contains p).map (ofDefinition d)

/-- The edit that gives a document a definition: in the place of the first one of its name, or on
a line of its own at the end. -/
def edit (d : Document) (data : TypeData) : TextEdit :=
  match (definitions d).find? fun t => t.name == data.name with
  | some t => ⟨t.span.start.position, t.span.stop.position, data.source⟩
  | none =>
    let separator :=
      match d.text.toList.getLast? with
      | none => ""
      | some c => if c == '\n' then "" else "\n"
    .insertion d.endPosition (separator ++ "\n" ++ data.source ++ "\n")

/-- The edits that give a document a definition. -/
def update (file : Path) (d : Document) (data : TypeData) : FileEdits :=
  .single file (edit d data)

end TypeData

end FlowCanvas

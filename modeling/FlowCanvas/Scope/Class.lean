import FlowCanvas.Scope.Symbol
import FlowCanvas.Text.Blank
import FlowCanvas.Text.Split

/-!
# Classes and types

A type descriptor is resolved to a built-in type, to a class, record or other type of the module,
or, when it is qualified, to a class that another module exports.
-/

namespace FlowCanvas

inductive ClassQualifier where
  | client
  | isolated
  | readonly
  | distinct
  | service
deriving DecidableEq, Repr

namespace ClassQualifier

def ofWord? : String → Option ClassQualifier
  | "client" => some .client
  | "isolated" => some .isolated
  | "readonly" => some .readonly
  | "distinct" => some .distinct
  | "service" => some .service
  | _ => none

end ClassQualifier

/-- The name of a class that a module exports. -/
structure ClassName where
  org : String
  moduleName : String
  name : String
deriving DecidableEq, Repr

/-- The classes other modules export, the latest entry of a name first. -/
structure ClassIndex where
  entries : List (ClassName × List ClassQualifier)
deriving Repr

namespace ClassIndex

def empty : ClassIndex := ⟨[]⟩

/-- Adds a class or replaces what was known of it. -/
def register (index : ClassIndex) (name : ClassName) (qualifiers : List ClassQualifier) :
    ClassIndex :=
  ⟨(name, qualifiers) :: index.entries⟩

def lookup (index : ClassIndex) (name : ClassName) : Option (List ClassQualifier) :=
  (index.entries.find? fun e => e.1 == name).map Prod.snd

/-- Reads `org/module:Name`, none of whose parts may be empty. -/
def parseName? (descriptor : String) : Option ClassName := do
  let (org, rest) ← Text.splitOnce '/' descriptor
  let (moduleName, name) ← Text.splitOnce ':' rest
  if org.isEmpty || moduleName.isEmpty || name.isEmpty then none
  else some ⟨org, moduleName, name⟩

/-- Adds a client class given as `org/module:Name`. -/
def registerClient? (index : ClassIndex) (descriptor : String) : Option ClassIndex :=
  (parseName? descriptor).map fun name => index.register name [.client]

/-- Adds the client classes that are given well and passes over the others. -/
def registerClients (index : ClassIndex) (descriptors : List String) : ClassIndex :=
  descriptors.foldl (fun index d => (index.registerClient? d).getD index) index

/-- The client classes of common connectors. -/
def standardClients : List ClassName :=
  [⟨"ballerina", "http", "Client"⟩, ⟨"ballerina", "websocket", "Client"⟩,
   ⟨"ballerina", "graphql", "Client"⟩, ⟨"ballerina", "email", "SmtpClient"⟩,
   ⟨"ballerina", "ftp", "Client"⟩, ⟨"ballerinax", "mysql", "Client"⟩,
   ⟨"ballerinax", "postgresql", "Client"⟩, ⟨"ballerinax", "redis", "Client"⟩,
   ⟨"ballerinax", "kafka", "Producer"⟩]

/-- The classes known from the start. -/
def standard : ClassIndex :=
  ⟨(⟨"ballerina", "http", "Listener"⟩, [.isolated]) ::
    standardClients.map fun name => (name, [.client, .isolated])⟩

end ClassIndex

/-- A class, with the module that exports it unless it is the document's own. -/
structure ClassSymbol where
  org : Option String
  moduleName : Option String
  name : String
  qualifiers : List ClassQualifier
deriving DecidableEq, Repr

namespace ClassSymbol

def isClient (c : ClassSymbol) : Bool := c.qualifiers.contains .client

end ClassSymbol

/-- What a type reference refers to. -/
inductive TypeTarget where
  | classDefinition (symbol : ClassSymbol)
  | record (name : String)
  | other (name : String)
deriving DecidableEq, Repr

inductive TypeSymbol where
  | builtin (name : String)
  | reference (name : String) (target : TypeTarget)
deriving DecidableEq, Repr

namespace TypeSymbol

/-- The class a type refers to, when it is a client class. -/
def clientClass? : TypeSymbol → Option ClassSymbol
  | .reference _ (.classDefinition c) => if c.isClient then some c else none
  | _ => none

end TypeSymbol

/-- A type descriptor that resolves to nothing. -/
structure UnresolvedSymbol where
  name : String
deriving DecidableEq, Repr

namespace UnresolvedSymbol

def message (e : UnresolvedSymbol) : String :=
  "Symbol '" ++ e.name ++ "' could not be resolved to a concrete type"

end UnresolvedSymbol

namespace Scope

def builtinTypes : List String :=
  ["int", "float", "decimal", "string", "boolean", "byte", "json", "xml", "anydata", "any",
   "error", "map", "table", "stream", "record", "object", "var", "handle", "never", "readonly"]

/-- The organization of a module that is imported without one. -/
def standardOrg : String := "ballerina"

/-- The class another module exports under a qualified name. -/
def importedClass? (m : SourceModule) (classes : ClassIndex) (qualifier name : String) :
    Option ClassSymbol := do
  let found ← m.imports.find? fun i => i.qualifier == qualifier
  let org := found.org.getD standardOrg
  let qualifiers ← classes.lookup ⟨org, found.moduleName, name⟩
  return ⟨some org, some found.moduleName, name, qualifiers⟩

/-- What a member of the module means as the type `name`. -/
def memberType? (name : String) : Member → Option TypeTarget
  | .classDefinition c =>
    if c.name == name then
      some (.classDefinition ⟨none, none, c.name, c.qualifiers.filterMap ClassQualifier.ofWord?⟩)
    else none
  | .typeDefinition t =>
    if t.name == name then
      match t.descriptor with
      | .record _ => some (.record t.name)
      | _ => some (.other t.name)
    else none
  | _ => none

/-- Resolves a type descriptor. -/
def resolveType (m : SourceModule) (classes : ClassIndex) (descriptor : String) :
    Except UnresolvedSymbol TypeSymbol :=
  let type := Text.trim descriptor
  match Text.splitOnce ':' type with
  | some (qualifier, name) =>
    match importedClass? m classes qualifier name with
    | some symbol => .ok (.reference type (.classDefinition symbol))
    | none => .error ⟨type⟩
  | none =>
    if builtinTypes.contains type then .ok (.builtin type)
    else
      match m.members.findSome? (memberType? type) with
      | some target => .ok (.reference type target)
      | none => .error ⟨type⟩

/-- The client class a type descriptor resolves to. -/
def clientType? (m : SourceModule) (classes : ClassIndex) (descriptor : String) :
    Option ClassSymbol :=
  match resolveType m classes descriptor with
  | .ok symbol => symbol.clientClass?
  | .error _ => none

/-- The names of the parameters of a function of the module. -/
def parameterNames? (m : SourceModule) (name : String) : Option (List String) :=
  m.members.findSome? fun
    | .function f => if f.name.text == name then some (f.parameters.map (·.name)) else none
    | _ => none

/-- The text after a given beginning, or all of it. -/
def dropLeading (beginning text : String) : String :=
  if beginning.toList.isPrefixOf text.toList then .ofList (text.toList.drop beginning.length)
  else text

/-- The client class of the connection that a remote call at `p` is made on: that of the last
visible symbol of its name. -/
def connectionClass? (m : SourceModule) (classes : ClassIndex) (client : String) (p : Position) :
    Option ClassSymbol := do
  let symbol ← (visible m p).reverse.find? fun s => s.name == dropLeading "self." client
  clientType? m classes (← symbol.type)

end Scope

end FlowCanvas

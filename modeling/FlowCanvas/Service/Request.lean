import FlowCanvas.Build.Analysis
import FlowCanvas.Service.Settings
import FlowCanvas.Service.Workspace
import FlowCanvas.Template.Bundled
import FlowCanvas.TypeData

/-!
# Requests of an editor

A service answers six requests over a workspace. All it keeps between requests is the cache in
front of its template catalog.
-/

namespace FlowCanvas

/-- What an editor asks for. -/
inductive Request where
  | flowModel (file : Path) (start stop : Position) (mappingFile : Option Path)
  | nodeTemplate (codedata : Codedata)
  | source (file : Path) (node : FlowNode)
  | types (file : Path)
  | typeAt (file : Path) (position : Position)
  | updateType (file : Path) (data : TypeData)

/-- What a request is answered with. -/
inductive Response where
  | flowModel (diagram : Diagram)
  | nodeTemplate (node : FlowNode)
  | source (edits : FileEdits)
  | types (list : List TypeData)
  | typeAt (found : Option TypeData)
  | updateType (name : String) (edits : FileEdits)

/-- Why a request has no answer. -/
inductive ServiceError where
  | documentNotFound (path : Path)
  | parse (path : Path) (error : SyntaxError)
  | build (error : BuildError)
  | template (error : TemplateError)
deriving DecidableEq, Repr

namespace ServiceError

def message : ServiceError → String
  | .documentNotFound path => "Document '" ++ path.text ++ "' was not found in the workspace"
  | .parse path error => "Failed to parse '" ++ path.text ++ "': " ++ error.message
  | .build error => error.message
  | .template error => error.message

end ServiceError

/-- A service and what it was set up with. -/
structure Service where
  settings : Settings
  classes : ClassIndex
  builders : Builders
  templates : CachedCatalog

namespace Service

/-- The catalog that settings ask for. -/
def catalogOf (settings : Settings) (files : Workspace) : Except TemplateError Catalog :=
  match settings.templates with
  | none => .ok .bundled
  | some path =>
    match files path with
    | some text => Catalog.ofText text
    | none => .error (.invalidCatalog path.text)

/-- Sets a service up. -/
def start (settings : Settings) (files : Workspace) : Except ServiceError Service :=
  match catalogOf settings files with
  | .error e => .error (.template e)
  | .ok catalog =>
    .ok ⟨settings, ClassIndex.standard.registerClients settings.clientClasses, .standard,
      .ofCatalog catalog⟩

/-- The document at a path, if the workspace has it. -/
def document? (workspace : Workspace) (path : Path) : Except ServiceError (Option Document) :=
  match workspace path with
  | none => .ok none
  | some text =>
    match Document.parse path text with
    | .ok d => .ok (some d)
    | .error e => .error (.parse path e)

/-- The document at a path, which has to be there. -/
def document (workspace : Workspace) (path : Path) : Except ServiceError Document :=
  match document? workspace path with
  | .ok (some d) => .ok d
  | .ok none => .error (.documentNotFound path)
  | .error e => .error e

/-- The diagram of a range. -/
def flowModel (s : Service) (workspace : Workspace) (file : Path) (start stop : Position)
    (mappingFile : Option Path) : Except ServiceError Diagram := do
  let d ← document workspace file
  let mappings := (workspace (mappingFile.getD (s.settings.companion file))).getD ""
  return Analysis.flow s.builders
    ⟨d, s.classes, s.templates.lookup, .local, Document.functionNames mappings⟩ start stop

/-- The fresh node a codedata describes; without a template it has nothing of its own. -/
def nodeTemplate (s : Service) (codedata : Codedata) : Except ServiceError FlowNode :=
  match s.builders.fresh codedata s.templates.lookup with
  | .ok n => .ok n
  | .error (.template _) => .ok (s.builders.bare codedata)
  | .error e => .error (.build e)

/-- The edits that write a node. -/
def source (s : Service) (file : Path) (n : FlowNode) : Except ServiceError FileEdits :=
  match s.builders.toSource n file s.settings.connectionsFile with
  | .ok edits => .ok edits
  | .error e => .error (.build e)

/-- The type definitions of a file; a file that is not there has none. -/
def types (workspace : Workspace) (file : Path) : Except ServiceError (List TypeData) := do
  match ← document? workspace file with
  | some d => return TypeData.list d
  | none => return []

/-- The type definition around a position of a file. -/
def typeAt (workspace : Workspace) (file : Path) (p : Position) :
    Except ServiceError (Option TypeData) := do
  match ← document? workspace file with
  | some d => return TypeData.atPosition? d p
  | none => return none

/-- The edits that give a file a type definition. -/
def updateType (workspace : Workspace) (file : Path) (data : TypeData) :
    Except ServiceError FileEdits := do
  let d ← document workspace file
  return TypeData.update file d data

/-- The answer to a request. -/
def answer (s : Service) (workspace : Workspace) : Request → Except ServiceError Response
  | .flowModel file start stop mappingFile =>
    (s.flowModel workspace file start stop mappingFile).map .flowModel
  | .nodeTemplate codedata => (s.nodeTemplate codedata).map .nodeTemplate
  | .source file n => (s.source file n).map .source
  | .types file => (types workspace file).map .types
  | .typeAt file p => (typeAt workspace file p).map .typeAt
  | .updateType file data => (updateType workspace file data).map (.updateType data.name)

/-- The symbols that a request looks up in the catalog. -/
def lookups (s : Service) (workspace : Workspace) : Request → List Codedata
  | .flowModel file start stop mappingFile =>
    match s.flowModel workspace file start stop mappingFile with
    | .ok diagram => Analysis.consulted s.builders diagram
    | .error _ => []
  | .nodeTemplate codedata =>
    if (s.builders.get codedata.node).consults codedata then [codedata] else []
  | _ => []

/-- Answers a request; the templates it found stay in the cache. -/
def handle (s : Service) (workspace : Workspace) (request : Request) :
    Except ServiceError Response × Service :=
  (s.answer workspace request,
    { s with templates := s.templates.rememberAll (s.lookups workspace request) })

end Service

namespace Request

/-- A path as JSON. -/
def pathOfJson? (j : Json) : Option Path := j.asString?.map fun text => ⟨text⟩

def flowModelOfJson? (j : Json) : Option Request :=
  match j.record? ["filePath", "startLine", "endLine", "dataMappingFile"] with
  | some [file, start, stop, mappingFile] => do
    return .flowModel (← Json.required pathOfJson? file) (← Json.required Position.ofJson? start)
      (← Json.required Position.ofJson? stop) (← Json.optional pathOfJson? mappingFile)
  | _ => none

def nodeTemplateOfJson? (j : Json) : Option Request :=
  match j.record? ["codedata"] with
  | some [codedata] => do return .nodeTemplate (← Json.required Codedata.ofJson? codedata)
  | _ => none

def sourceOfJson? (j : Json) : Option Request :=
  match j.record? ["filePath", "flowNode"] with
  | some [file, n] => do
    return .source (← Json.required pathOfJson? file) (← Json.required FlowNode.ofJson? n)
  | _ => none

def typesOfJson? (j : Json) : Option Request :=
  match j.record? ["filePath"] with
  | some [file] => do return .types (← Json.required pathOfJson? file)
  | _ => none

def typeAtOfJson? (j : Json) : Option Request :=
  match j.record? ["filePath", "position"] with
  | some [file, position] => do
    return .typeAt (← Json.required pathOfJson? file) (← Json.required Position.ofJson? position)
  | _ => none

def updateTypeOfJson? (j : Json) : Option Request :=
  match j.record? ["filePath", "type"] with
  | some [file, data] => do
    return .updateType (← Json.required pathOfJson? file) (← Json.required TypeData.ofJson? data)
  | _ => none

end Request

namespace Response

def toJson : Response → Json
  | .flowModel diagram => .object [("flowModel", diagram.toJson)]
  | .nodeTemplate n => .object [("flowNode", n.toJson)]
  | .source edits => .object [("textEdits", FileEdits.toJson edits)]
  | .types list => .object [("types", .array (list.map TypeData.toJson))]
  | .typeAt found => .object (Json.member? "type" (found.map TypeData.toJson))
  | .updateType name edits =>
    .object [("name", .string name), ("textEdits", FileEdits.toJson edits)]

end Response

end FlowCanvas

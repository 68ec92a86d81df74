import FlowCanvas.Command.Arguments
import FlowCanvas.Service.Request

/-!
# Running a command line

A run reads files through a workspace and ends with an exit code, what is printed, and the error
if there is one.
-/

namespace FlowCanvas.Command

/-- Why a command fails. -/
inductive Failure where
  | settings (error : SettingsError)
  | start (error : ServiceError)
  | halfRange
  | unreadable (path : Path)
  | malformed (path : Path)
  | model (error : ServiceError)
  | template (error : ServiceError)
  | source (error : ServiceError)
  | types (error : ServiceError)
  | typeAt (error : ServiceError)
  | updateType (error : ServiceError)
deriving DecidableEq, Repr

namespace Failure

/-- What a failure is announced with; the cause follows it. -/
def headline : Failure → String
  | .settings _ => "Failed to load config"
  | .start _ => "Failed to start service"
  | .halfRange => "--start and --end must be given together"
  | .unreadable _ => "Failed to read"
  | .malformed _ => "Invalid JSON in"
  | .model _ => "Model generation failed"
  | .template _ => "Template lookup failed"
  | .source _ => "Source generation failed"
  | .types _ => "Could not list types"
  | .typeAt _ => "Could not read type"
  | .updateType _ => "Type update failed"

def message (f : Failure) : String :=
  f.headline ++
    match f with
    | .settings e => ": " ++ e.message
    | .halfRange => ""
    | .unreadable path => " '" ++ path.text ++ "'"
    | .malformed path => " '" ++ path.text ++ "'"
    | .start e => ": " ++ e.message
    | .model e => ": " ++ e.message
    | .template e => ": " ++ e.message
    | .source e => ": " ++ e.message
    | .types e => ": " ++ e.message
    | .typeAt e => ": " ++ e.message
    | .updateType e => ": " ++ e.message

end Failure

/-- Where a text ends: its last line, and the bytes of that line. -/
def endOfText (text : String) : Position :=
  let lines := Text.lines text.toList
  ⟨lines.length - 1, byteLength (lines.getLast?.getD [])⟩

/-- The file at a path, which has to be readable. -/
def readFile (files : Workspace) (path : Path) : Except Failure String :=
  match files path with
  | some text => .ok text
  | none => .error (.unreadable path)

/-- Reads a value from a JSON file. -/
def readJson {α : Type} (files : Workspace) (path : Path) (read : Json → Option α) :
    Except Failure α := do
  let text ← readFile files path
  match (Json.read? text).bind read with
  | some value => .ok value
  | none => .error (.malformed path)

/-- The range of a model: both ends given, or the whole file. -/
def range (files : Workspace) (file : Path) :
    Option Position → Option Position → Except Failure (Position × Position)
  | some start, some stop => .ok (start, stop)
  | none, none => (readFile files file).map fun text => (.zero, endOfText text)
  | _, _ => .error .halfRange

/-- Answers a task, and prints the answer. -/
def Task.print (service : Service) (files : Workspace) (format : Format) :
    Task → Except Failure String
  | .model file start stop mappingFile => do
    let (start, stop) ← range files file start stop
    let diagram ← (service.flowModel files file start stop mappingFile).mapError .model
    match format with
    | .outline => return diagram.outline
    | .json => return (Response.flowModel diagram).toJson.pretty ++ "\n"
  | .template path => do
    let codedata ← readJson files path Codedata.ofJson?
    let n ← (service.nodeTemplate codedata).mapError .template
    return (Response.nodeTemplate n).toJson.pretty ++ "\n"
  | .source file path => do
    let n ← readJson files path FlowNode.ofJson?
    let edits ← (service.source file n).mapError .source
    return (Response.source edits).toJson.pretty ++ "\n"
  | .types file => do
    let list ← (Service.types files file).mapError .types
    return (Response.types list).toJson.pretty ++ "\n"
  | .typeAt file position => do
    let found ← (Service.typeAt files file position).mapError .typeAt
    return (Response.typeAt found).toJson.pretty ++ "\n"
  | .updateType file path => do
    let data ← readJson files path TypeData.ofJson?
    let edits ← (Service.updateType files file data).mapError .updateType
    return (Response.updateType data.name edits).toJson.pretty ++ "\n"

/-- The settings of a command line. -/
def Line.settings (line : Line) (files : Workspace) : Except Failure Settings :=
  match line.config with
  | none => .ok .standard
  | some path => (Settings.load path (files path)).mapError .settings

/-- What a command line prints. -/
def Line.print (line : Line) (files : Workspace) : Except Failure String := do
  let settings ← line.settings files
  let service ← (Service.start settings files).mapError .start
  line.task.print service files line.format

def usage : String :=
  "Usage: flowmodel [--config <FILE>] [--format json|outline] <COMMAND>\n\n" ++
  "Commands:\n" ++
  "  model <FILE> [--start <L:C> --end <L:C>] [--data-mappings <FILE>]\n" ++
  "  template <CODEDATA>\n" ++
  "  source <FILE> <NODE>\n" ++
  "  types <FILE>\n" ++
  "  type <FILE> <L:C>\n" ++
  "  update-type <FILE> <TYPE_DATA>\n"

def version : String := "flowmodel 0.1.0\n"

/-- How a run ends. -/
structure Outcome where
  code : Nat
  output : String
  failure : Option Failure
deriving DecidableEq, Repr

/-- Runs a command line. Failures end with code 1, command lines that are refused with code 2. -/
def run (files : Workspace) (args : List String) : Outcome :=
  match Line.read args with
  | .error .refused => ⟨2, "", none⟩
  | .error .help => ⟨0, usage, none⟩
  | .error .version => ⟨0, version, none⟩
  | .ok line =>
    match line.print files with
    | .ok text => ⟨0, text, none⟩
    | .error f => ⟨1, "", some f⟩

/-- The files a command line may read, given the settings it loaded. -/
def Line.files (line : Line) (settings : Settings) : List Path :=
  settings.templates.toList ++
    match line.task with
    | .model file _ _ mappingFile =>
      [file, mappingFile.getD (settings.companion file)]
    | .template path => [path]
    | .source _ path => [path]
    | .types file => [file]
    | .typeAt file _ => [file]
    | .updateType file path => [file, path]

end FlowCanvas.Command

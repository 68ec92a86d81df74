import FlowCanvas.Path
import FlowCanvas.Service.Toml

/-!
# Settings of a service
-/

namespace FlowCanvas

structure Settings where
  /-- The file, next to the one that is edited, for the connections of a module. -/
  connectionsFile : String
  /-- The file whose functions map data. -/
  dataMappingsFile : String
  /-- The catalog to use instead of the bundled one. -/
  templates : Option Path
  /-- Further client classes, as `org/module:Class`. -/
  clientClasses : List String
  logFilter : String
deriving DecidableEq, Repr

namespace Settings

def standard : Settings :=
  ⟨"connections.bal", "data_mappings.bal", none, [], "flowmodel=info"⟩

/-- The file of mapping functions that goes with a file. -/
def companion (s : Settings) (file : Path) : Path :=
  (file.parent?.getD ⟨""⟩).join ⟨s.dataMappingsFile⟩

/-- Takes one entry of a settings file over; names and types have to be known. -/
def set? (s : Settings) : String × Toml.Entry → Option Settings
  | ("connections_file", .text value) => some { s with connectionsFile := value }
  | ("data_mappings_file", .text value) => some { s with dataMappingsFile := value }
  | ("templates", .text value) => some { s with templates := some ⟨value⟩ }
  | ("client_classes", .texts values) => some { s with clientClasses := values }
  | ("log_filter", .text value) => some { s with logFilter := value }
  | _ => none

/-- Reads settings; what a file leaves out has its standard value. -/
def ofText? (text : String) : Option Settings :=
  (Toml.read? text).bind fun entries => entries.foldlM set? standard

end Settings

/-- Why settings could not be loaded. -/
inductive SettingsError where
  | unreadable (path : Path)
  | malformed
deriving DecidableEq, Repr

namespace SettingsError

def message : SettingsError → String
  | .unreadable path => "Could not read config file '" ++ path.text ++ "'"
  | .malformed => "Failed to parse config"

end SettingsError

namespace Settings

/-- The settings of a file, given its text if it could be read. -/
def load (path : Path) (text : Option String) : Except SettingsError Settings :=
  match text with
  | none => .error (.unreadable path)
  | some text =>
    match ofText? text with
    | some s => .ok s
    | none => .error .malformed

end Settings

end FlowCanvas

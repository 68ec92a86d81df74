import FlowCanvas.Path
import FlowCanvas.Text.Blank
import FlowCanvas.Text.Digits
import FlowCanvas.Text.Position

/-!
# Command lines

A command line names a command, gives it its words, and may set options. Options that hold for
every command may stand in front of the command or after it; the one after it wins. An option is
given once at most on either side.
-/

namespace FlowCanvas

namespace Position

/-- Reads a number below `2 ^ 32`, with blanks around it and a plus sign in front or not. -/
def numberOfText? (text : List Char) : Option Nat :=
  let digits :=
    match Text.trimChars text with
    | '+' :: rest => rest
    | cs => cs
  if digits.isEmpty || !digits.all Char.isDigit then none
  else
    let n := Text.ofDigits 10 (digits.map Text.digitValue)
    if n < UInt32.size then some n else none

/-- Reads a position as a line, a colon and a column. -/
def ofText? (text : String) : Option Position := do
  let (line, column) ← Text.splitOnce ':' text
  return ⟨← numberOfText? line.toList, ← numberOfText? column.toList⟩

end Position

namespace Command

/-- How an answer is printed. -/
inductive Format where
  | json
  | outline
deriving DecidableEq, Repr

def Format.ofText? : String → Option Format
  | "json" => some .json
  | "outline" => some .outline
  | _ => none

/-- What a word of a command line has to be. -/
inductive Form where
  | path
  | position
  | format
deriving DecidableEq, Repr

/-- Whether a word has a form. A path is not empty. -/
def Form.admits : Form → String → Bool
  | .path, text => !text.isEmpty
  | .position, text => (Position.ofText? text).isSome
  | .format, text => (Format.ofText? text).isSome

/-- What can be set. -/
inductive Setting where
  | config
  | format
  | start
  | stop
  | dataMappings
deriving DecidableEq, Repr

namespace Setting

def name : Setting → String
  | .config => "config"
  | .format => "format"
  | .start => "start"
  | .stop => "end"
  | .dataMappings => "data-mappings"

/-- The letter a setting may be given by. -/
def letter? : Setting → Option Char
  | .config => some 'c'
  | .format => some 'f'
  | _ => none

def form : Setting → Form
  | .config => .path
  | .format => .format
  | .start => .position
  | .stop => .position
  | .dataMappings => .path

/-- The settings that hold for every command. -/
def shared : List Setting := [.config, .format]

end Setting

/-- What can be asked for. -/
inductive Verb where
  | model
  | template
  | source
  | types
  | typeAt
  | updateType
deriving DecidableEq, Repr

namespace Verb

def ofText? : String → Option Verb
  | "model" => some .model
  | "template" => some .template
  | "source" => some .source
  | "types" => some .types
  | "type" => some .typeAt
  | "update-type" => some .updateType
  | _ => none

/-- The words a command takes. -/
def words : Verb → List Form
  | .model => [.path]
  | .template => [.path]
  | .source => [.path, .path]
  | .types => [.path]
  | .typeAt => [.path, .position]
  | .updateType => [.path, .path]

/-- The settings that may follow a command. -/
def settings : Verb → List Setting
  | .model => Setting.shared ++ [.start, .stop, .dataMappings]
  | _ => Setting.shared

end Verb

/-- Why a command line runs no command. -/
inductive Halt where
  | refused
  | help
  | version
deriving DecidableEq, Repr

/-- What an argument says by itself. -/
inductive Mark where
  | setting (s : Setting) (value : Option String)
  | help
  | version
  | wordsOnly
  | word
deriving DecidableEq, Repr

/-- Reads what follows two hyphens. -/
def longMark? (known : List Setting) (versioned : Bool) (text : List Char) : Option Mark :=
  let name := String.ofList (text.takeWhile (· != '='))
  match text.dropWhile (· != '=') with
  | [] =>
    if name = "help" then some .help
    else if versioned && name == "version" then some .version
    else (known.find? fun s => s.name == name).map fun s => .setting s none
  | _ :: value =>
    (known.find? fun s => s.name == name).map fun s => .setting s (some (String.ofList value))

/-- Reads a letter after a hyphen, and the value that may stand right behind it. -/
def shortMark? (known : List Setting) (versioned : Bool) (letter : Char) (rest : List Char) :
    Option Mark :=
  if letter == 'h' then some .help
  else if versioned && letter == 'V' then some .version
  else
    (known.find? fun s => s.letter? == some letter).map fun s =>
      .setting s <|
        match rest with
        | [] => none
        | '=' :: value => some (String.ofList value)
        | value => some (String.ofList value)

/-- Reads an argument. One that starts with a hyphen and is not known is refused, a single hyphen
apart. -/
def mark? (known : List Setting) (versioned : Bool) (arg : String) : Option Mark :=
  match arg.toList with
  | ['-', '-'] => some .wordsOnly
  | '-' :: '-' :: text => longMark? known versioned text
  | '-' :: letter :: rest => shortMark? known versioned letter rest
  | _ => some .word

/-- What has been given so far. -/
structure Given where
  settings : List (Setting × String)
  words : List String
deriving DecidableEq, Repr

namespace Given

def empty : Given := ⟨[], []⟩

def get? (g : Given) (s : Setting) : Option String :=
  (g.settings.find? fun e => e.1 == s).map Prod.snd

/-- Sets something that has not been set. -/
def set (g : Given) (s : Setting) (value : String) : Except Halt Given :=
  if (g.get? s).isSome || !s.form.admits value then .error .refused
  else .ok { g with settings := g.settings ++ [(s, value)] }

/-- Takes the next word, if the command still takes one. -/
def addWord (forms : List Form) (g : Given) (word : String) : Except Halt Given :=
  match forms[g.words.length]? with
  | some form =>
    if form.admits word then .ok { g with words := g.words ++ [word] } else .error .refused
  | none => .error .refused

/-- Reads the arguments of a command. -/
def read (known : List Setting) (forms : List Form) (g : Given) :
    List String → Except Halt Given
  | [] => .ok g
  | arg :: rest =>
    match mark? known false arg with
    | some (.setting s (some value)) => do read known forms (← g.set s value) rest
    | some (.setting s none) =>
      match rest with
      | value :: rest =>
        if mark? known false value == some .word then do read known forms (← g.set s value) rest
        else .error .refused
      | [] => .error .refused
    | some .wordsOnly => rest.foldlM (addWord forms) g
    | some .word => do read known forms (← g.addWord forms arg) rest
    | some .help => .error .help
    | some .version => .error .version
    | none => .error .refused

/-- Reads what stands in front of a command, and gives the arguments from the command on. -/
def readShared (g : Given) : List String → Except Halt (Given × String × List String)
  | [] => .error .refused
  | arg :: rest =>
    match mark? Setting.shared true arg with
    | some (.setting s (some value)) => do readShared (← g.set s value) rest
    | some (.setting s none) =>
      match rest with
      | value :: rest =>
        if mark? Setting.shared true value == some .word then do readShared (← g.set s value) rest
        else .error .refused
      | [] => .error .refused
    | some .word => .ok (g, arg, rest)
    | some .help => .error .help
    | some .version => .error .version
    | _ => .error .refused

def path? (g : Given) (s : Setting) : Option Path := (g.get? s).map fun text => ⟨text⟩

def position? (g : Given) (s : Setting) : Option Position := (g.get? s).bind Position.ofText?

end Given

/-- A command with what it is given. -/
inductive Task where
  | model (file : Path) (start stop : Option Position) (mappingFile : Option Path)
  | template (codedata : Path)
  | source (file node : Path)
  | types (file : Path)
  | typeAt (file : Path) (position : Position)
  | updateType (file data : Path)
deriving DecidableEq, Repr

/-- The task of a command; all its words have to be there. -/
def Task.ofGiven? (verb : Verb) (g : Given) : Option Task :=
  match verb, g.words with
  | .model, [file] =>
    some (.model ⟨file⟩ (g.position? .start) (g.position? .stop) (g.path? .dataMappings))
  | .template, [codedata] => some (.template ⟨codedata⟩)
  | .source, [file, node] => some (.source ⟨file⟩ ⟨node⟩)
  | .types, [file] => some (.types ⟨file⟩)
  | .typeAt, [file, position] => (Position.ofText? position).map (.typeAt ⟨file⟩)
  | .updateType, [file, data] => some (.updateType ⟨file⟩ ⟨data⟩)
  | _, _ => none

/-- A command line that asks for something. -/
structure Line where
  config : Option Path
  format : Format
  task : Task
deriving DecidableEq, Repr

namespace Line

/-- What a request for help leads to: the command it names has to be known. -/
def help (names : List String) : Halt :=
  match names with
  | [] => .help
  | ["help"] => .help
  | [name] => if (Verb.ofText? name).isSome then .help else .refused
  | _ => .refused

/-- Reads a command line. -/
def read (args : List String) : Except Halt Line := do
  let (before, name, rest) ← Given.readShared .empty args
  if name = "help" then .error (help rest)
  else
    match Verb.ofText? name with
    | none => .error .refused
    | some verb =>
      let after ← Given.read verb.settings verb.words .empty rest
      match Task.ofGiven? verb after with
      | none => .error .refused
      | some task =>
        let format := ((after.get? .format).or (before.get? .format)).bind Format.ofText?
        .ok ⟨(after.path? .config).or (before.path? .config), format.getD .json, task⟩

end Line

end Command

end FlowCanvas

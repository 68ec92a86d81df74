import FlowCanvas.Source.Expression

/-!
# The tree of a source document

Names are texts; types, paths, targets and other uninterpreted parts are phrases, so that nothing
of what was written is lost and layout can be told apart from content.
-/

namespace FlowCanvas

/-- `import org/module.sub as qualifier;`; the last part of the module's name qualifies it when no
other name is given. -/
structure Import where
  org : Option String
  moduleName : String
  qualifier : String
  span : Span
deriving DecidableEq, Repr

/-- A variable declaration of a module, an object or a block. The type of a constant may be
empty. -/
structure Declaration where
  annotations : List String
  qualifiers : List String
  type : Phrase
  name : String
  initializer : Option Expression
  span : Span
deriving DecidableEq, Repr

namespace Declaration

def hasQualifier (d : Declaration) (qualifier : String) : Bool := d.qualifiers.contains qualifier

def isFinal (d : Declaration) : Bool := d.hasQualifier "final"

def isListener (d : Declaration) : Bool := d.hasQualifier "listener"

def hasAnnotation (d : Declaration) (name : String) : Bool := d.annotations.contains name

end Declaration

/-- What ends a function or the enclosing construct early. -/
inductive ExitKind where
  | return
  | fail
  | panic
deriving DecidableEq, Repr

/-- What continues elsewhere in the enclosing loop. -/
inductive JumpKind where
  | break
  | continue
deriving DecidableEq, Repr

mutual

/-- A statement of a block. -/
inductive Statement where
  | declaration (declaration : Declaration)
  | assignment (target : Phrase) (value : Expression) (span : Span)
  | conditional (conditional : Conditional)
  | loop (condition : Expression) (body : Block) (span : Span)
  | exit (kind : ExitKind) (value : Option Expression) (span : Span)
  | jump (kind : JumpKind) (span : Span)
  | expression (value : Expression) (span : Span)
  | unsupported (construct : String) (span : Span)

/-- An `if` with its blocks. -/
inductive Conditional where
  | mk (condition : Expression) (thenBlock : Block) (alternative : Alternative) (span : Span)

/-- What follows the block of an `if`: nothing, an `else` block or an `else if`. -/
inductive Alternative where
  | absent
  | block (block : Block)
  | chained (next : Conditional)

/-- Statements between braces. -/
inductive Block where
  | mk (statements : List Statement) (span : Span)

end

namespace Block

def statements : Block → List Statement
  | .mk statements _ => statements

def span : Block → Span
  | .mk _ span => span

end Block

namespace Conditional

def condition : Conditional → Expression
  | .mk condition _ _ _ => condition

def thenBlock : Conditional → Block
  | .mk _ block _ _ => block

def alternative : Conditional → Alternative
  | .mk _ _ alternative _ => alternative

def span : Conditional → Span
  | .mk _ _ _ span => span

end Conditional

namespace ExitKind

def word : ExitKind → String
  | .return => "return"
  | .fail => "fail"
  | .panic => "panic"

end ExitKind

namespace JumpKind

def word : JumpKind → String
  | .break => "break"
  | .continue => "continue"

end JumpKind

namespace Statement

def span : Statement → Span
  | .declaration d => d.span
  | .assignment _ _ span => span
  | .conditional c => c.span
  | .loop _ _ span => span
  | .exit _ _ span => span
  | .jump _ span => span
  | .expression _ span => span
  | .unsupported _ span => span

/-- The form of the statement, as messages call it. -/
def form : Statement → String
  | .declaration _ => "a variable declaration"
  | .assignment .. => "an assignment"
  | .conditional _ => "an if statement"
  | .loop .. => "a while statement"
  | .exit kind .. => "a " ++ kind.word ++ " statement"
  | .jump kind .. => "a " ++ kind.word ++ " statement"
  | .expression .. => "an expression statement"
  | .unsupported .. => "an unsupported statement"

end Statement

/-- A parameter of a function. -/
structure Parameter where
  type : Phrase
  name : String
  default : Option Phrase
deriving DecidableEq, Repr

/-- How a function is called: by name, remotely by name, or by an accessor and a path. -/
inductive FunctionName where
  | plain (name : String)
  | remote (name : String)
  | resource (accessor : String) (path : Phrase)
deriving DecidableEq, Repr

namespace FunctionName

def text : FunctionName → String
  | .plain name => name
  | .remote name => name
  | .resource accessor path => accessor ++ " " ++ path.text

end FunctionName

/-- A function of a module or an object. -/
structure FunctionDefinition where
  qualifiers : List String
  name : FunctionName
  parameters : List Parameter
  returns : Option Phrase
  body : Block
  span : Span

/-- A service: the path it answers under, the listener it is attached to, and its members. -/
structure ServiceDefinition where
  basePath : Phrase
  listener : Phrase
  fields : List Declaration
  functions : List FunctionDefinition
  span : Span

namespace ServiceDefinition

/-- The base path as written, the root path when none is. -/
def path (s : ServiceDefinition) : String := if s.basePath.isEmpty then "/" else s.basePath.text

end ServiceDefinition

/-- A class and its members. -/
structure ClassDefinition where
  qualifiers : List String
  name : String
  fields : List Declaration
  functions : List FunctionDefinition
  span : Span

namespace ClassDefinition

def isClient (c : ClassDefinition) : Bool := c.qualifiers.contains "client"

end ClassDefinition

/-- A field of a record type. -/
structure RecordField where
  type : Phrase
  name : String
  optional : Bool
  default : Option Phrase
deriving DecidableEq, Repr

/-- A record type. `rest` is the last entry that is neither a field nor an inclusion. -/
structure RecordType where
  closed : Bool
  fields : List RecordField
  inclusions : List Phrase
  rest : Option Phrase
deriving DecidableEq, Repr

inductive TypeDescriptor where
  | record (record : RecordType)
  | enumeration (members : List Phrase)
  | other (descriptor : Phrase)
deriving DecidableEq, Repr

/-- A named type of a module. -/
structure TypeDefinition where
  isPublic : Bool
  name : String
  descriptor : TypeDescriptor
  span : Span
deriving DecidableEq, Repr

inductive Member where
  | function (definition : FunctionDefinition)
  | variable (declaration : Declaration)
  | service (definition : ServiceDefinition)
  | classDefinition (definition : ClassDefinition)
  | typeDefinition (definition : TypeDefinition)

namespace Member

def span : Member → Span
  | .function f => f.span
  | .variable d => d.span
  | .service s => s.span
  | .classDefinition c => c.span
  | .typeDefinition t => t.span

end Member

/-- All of a source document. -/
structure SourceModule where
  imports : List Import
  members : List Member
  span : Span

end FlowCanvas

import FlowCanvas.Template.Catalog

/-!
# Fresh nodes

Every kind of node has a caption that its nodes share. A fresh node adds the properties that a
user fills in; for calls and connections these come from a registry.
-/

namespace FlowCanvas

namespace NodeKind

/-- The label and description that nodes of a kind start with. -/
def caption : NodeKind → Metadata
  | .actionCall => ⟨"Action Call", "Invoke a remote operation of a connection"⟩
  | .newConnection => ⟨"New Connection", "Create a new connection"⟩
  | .functionCall => ⟨"Function Call", "Call a function"⟩
  | .dataMapper => ⟨"Data Mapper", "Map data from multiple variables to a record type"⟩
  | .newData => ⟨"Declare Variable", "New variable with type"⟩
  | .updateData => ⟨"Assign", "Assign a value to a variable"⟩
  | .if => ⟨"If", "Add conditional branch to the flow"⟩
  | .while => ⟨"While", "Loop over a block of code while a condition holds"⟩
  | .break => ⟨"Break", "Break out of the enclosing loop"⟩
  | .continue => ⟨"Continue", "Skip to the next iteration of the enclosing loop"⟩
  | .return => ⟨"Return", "Value of the expression to return"⟩
  | .fail => ⟨"Fail", "Fail the execution"⟩
  | .panic => ⟨"Panic", "Panic and stop the execution"⟩
  | .expressionStatement => ⟨"Custom Expression", "Evaluate an expression"⟩

end NodeKind

namespace Template

/-- Gives a node what all nodes of its kind share: the caption, the symbol `init` of a connection
that names none, and the flag of a mapped value. -/
def adorn (n : FlowNode) : FlowNode :=
  let n := { n with metadata := n.kind.caption }
  match n.kind with
  | .newConnection =>
    { n with codedata := { n.codedata with symbol := some (n.codedata.symbol.getD "init") } }
  | .dataMapper => { n with flags := n.flags.insert .dataMapped }
  | _ => n

/-- The node of a kind with a given codedata and nothing else of its own. -/
def bare (kind : NodeKind) (codedata : Codedata) : FlowNode := adorn (.withCodedata kind codedata)

/-- Looks a template up. -/
def lookup (registry : Registry) (codedata : Codedata) : Except BuildError FlowNode :=
  match registry codedata with
  | .ok n => .ok n
  | .error e => .error (.template e)

/-- The label and description of a template, unless it has no label. -/
def withMetadata (n template : FlowNode) : FlowNode :=
  if template.metadata.label.isEmpty then n else { n with metadata := template.metadata }

/-- Gives a node the metadata, flags and properties of a template. -/
def apply (n template : FlowNode) : FlowNode :=
  ({ withMetadata n template with flags := template.flags }).withProperties
    template.properties.entries

/-- The name of a connection to a module. -/
def connectionName (codedata : Codedata) : String :=
  (match codedata.moduleName with
  | some name => lastPart name
  | none => "connection") ++ "Client"

def actionCall (codedata : Codedata) (registry : Registry) : Except BuildError FlowNode := do
  let template ← lookup registry codedata
  let type := (template.properties.text? "targetType").getD "var"
  let connection := codedata.parentSymbol.getD (connectionName codedata)
  let n := apply ((bare .actionCall codedata).withProperty (.ofConnection connection)) template
  let result := (Property.ofVariable "result").withDefault (.string "result")
  let resultType := (Property.ofType type).withDefault (.string type)
  return { n with
    properties := (n.properties.insertIfAbsent result).insertIfAbsent resultType }

def functionCall (codedata : Codedata) (registry : Registry) : Except BuildError FlowNode :=
  let n := bare .functionCall codedata
  match codedata.moduleName, codedata.symbol with
  | some _, _ => do
    let template ← lookup registry codedata
    return apply n template
  | none, some symbol => .ok (n.withLabel symbol)
  | none, none => .ok n

def newConnection (codedata : Codedata) (registry : Registry) : Except BuildError FlowNode := do
  let template ← lookup registry codedata
  let qualifier := lastPart (codedata.moduleName.getD "connection")
  let name := qualifier ++ "Client"
  let type := qualifier ++ ":" ++ codedata.object.getD "Client"
  let n := (withMetadata (bare .newConnection codedata) template).withProperties
    (template.properties.entries ++
      [(Property.ofVariable name).withDefault (.string name),
        ((Property.ofType type).withDefault (.string type)).asEditable false, .ofTier .global])
  return { n with flags := Flags.checked.insert .final }

/-- The name a new variable is given. -/
def defaultVariable : Property := (Property.ofVariable "var1").withDefault (.string "var1")

/-- The type a new variable is given. -/
def defaultType : Property := (Property.ofType "var").withDefault (.string "var")

/-- An expression with a value to start from. -/
def defaultExpression (text : String) : Property :=
  (Property.ofExpression text).withDefault (.string text)

/-- The condition a control node is given. -/
def defaultCondition : Property := (Property.ofCondition "true").withDefault (.string "true")

def dataMapper (codedata : Codedata) : FlowNode :=
  (bare .dataMapper codedata).withProperties
    [defaultVariable, defaultType,
      Property.functionName.withDefault (.string (codedata.symbol.getD "transform")),
      (Property.inputs.describedAs "Arguments of the mapping function").asOptional true]

/-- An operand that may be left out. -/
def operand (description : String) : Property :=
  ((Property.ofExpression "").describedAs description).asOptional true

/-- A fresh node of a kind, ready to be filled in. -/
def fresh (kind : NodeKind) (codedata : Codedata) (registry : Registry) :
    Except BuildError FlowNode :=
  let n := bare kind codedata
  match kind with
  | .actionCall => actionCall codedata registry
  | .newConnection => newConnection codedata registry
  | .functionCall => functionCall codedata registry
  | .dataMapper => .ok (dataMapper codedata)
  | .newData =>
    .ok (n.withProperties [defaultVariable, defaultType, (defaultExpression "()").asOptional true])
  | .updateData => .ok (n.withProperties [defaultVariable, defaultExpression "()"])
  | .if =>
    .ok { n.withProperty defaultCondition with
      branches := [.ofChildren Branch.thenLabel [], .ofChildren Branch.elseLabel []] }
  | .while =>
    .ok { n.withProperty defaultCondition with branches := [.ofChildren Branch.bodyLabel []] }
  | .break => .ok n
  | .continue => .ok n
  | .return => .ok (n.withProperty (operand "Return value"))
  | .fail => .ok (n.withProperty (operand "Fail value"))
  | .panic =>
    .ok (n.withProperty ((defaultExpression "error(\"\")").describedAs "Panic value"))
  | .expressionStatement => .ok (n.withProperty (defaultExpression "_ = ()"))

/-- Whether a fresh node of a kind is made from a registry's template. -/
def consults (kind : NodeKind) (codedata : Codedata) : Bool :=
  match kind with
  | .actionCall => true
  | .newConnection => true
  | .functionCall => codedata.moduleName.isSome
  | _ => false

end Template

end FlowCanvas

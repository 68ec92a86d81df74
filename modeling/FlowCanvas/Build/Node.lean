import FlowCanvas.Build.Arguments
import FlowCanvas.Build.Site

/-!
# Nodes from source

How a node of each kind is built at a site. A site that does not suit the kind is an error.
-/

namespace FlowCanvas.Build

/-- The codedata of a node at a site: its range and its source. -/
def codedata (c : Context) (kind : NodeKind) (s : Site) : Codedata :=
  { node := kind
    lineRange := some ⟨c.document.fileName, s.span.start.position, s.span.stop.position⟩
    sourceCode := some (c.document.slice s.span) }

/-- The node of a kind at a site, with what all such nodes share. Its id is where it starts. -/
def placed (c : Context) (kind : NodeKind) (s : Site) : FlowNode :=
  Template.adorn { FlowNode.withCodedata kind (codedata c kind s) with
    id := some s.span.start.position.render }

/-- Tells whether a call is checked and returned, and binds the variable that the site declares.
A returned call binds none. -/
def bind (n : FlowNode) (s : Site) : FlowNode :=
  let n := (n.withFlag .checked s.checked).withFlag .returning s.returning
  if s.returning then n
  else
    match s.declaration with
    | none => n
    | some d =>
      (n.withProperties [.ofVariable d.name, .ofType d.type.text]).withFlag .final d.isFinal

/-- Names the class whose connection a node uses. -/
def withClass (n : FlowNode) : Option ClassSymbol → FlowNode
  | none => n
  | some symbol =>
    { n with codedata := { n.codedata with
        org := symbol.org, moduleName := symbol.moduleName, object := some symbol.name } }

def actionCall (c : Context) (s : Site) : Except BuildError FlowNode :=
  match s.shape? with
  | some (.remote client method arguments) =>
    let client := client.text
    let n := placed c .actionCall s
    let n := withClass n
      (Scope.connectionClass? c.document.tree c.classes client s.span.start.position)
    let n := { n with codedata := { n.codedata with
      symbol := some method, parentSymbol := some client } }
    let n := n.withLabel method
    let bag := argumentProperties arguments (c.template? n.codedata) []
    .ok (bind (n.withProperties (.ofConnection client :: bag.entries)) s)
  | _ => .error (s.unexpected .actionCall)

/-- The module that a qualified call names. -/
def withModule (c : Context) (n : FlowNode) (qualifier : String) : FlowNode :=
  let (org, moduleName) :=
    match c.import? qualifier with
    | some found => (found.org, found.moduleName)
    | none => (none, qualifier)
  { n with codedata := { n.codedata with
      moduleQualifier := some qualifier, org := org, moduleName := some moduleName } }

def functionCall (c : Context) (s : Site) : Except BuildError FlowNode :=
  match s.shape? with
  | some (.call qualifier name arguments) =>
    let n := placed c .functionCall s
    let n := { n with codedata := { n.codedata with symbol := some name } }
    let n := n.withLabel name
    match qualifier with
    | some qualifier =>
      let n := withModule c n qualifier
      let bag := argumentProperties arguments (c.template? n.codedata) []
      .ok (bind (n.withProperties bag.entries) s)
    | none =>
      let names := (Scope.parameterNames? c.document.tree name).getD []
      .ok (bind (n.withProperties (argumentProperties arguments none names).entries) s)
  | _ => .error (s.unexpected .functionCall)

/-- The arguments of a connection's `new`; a declaration without a value has none. -/
def newArguments? (s : Site) : Option (List Argument) :=
  match s.shape? with
  | none => some []
  | some (.new _ arguments) => some arguments
  | some _ => none

def newConnection (c : Context) (s : Site) : Except BuildError FlowNode :=
  match s.declaration, newArguments? s with
  | some d, some arguments =>
    let n := placed c .newConnection s
    let symbol := c.clientType? d.type.text
    let n := withClass n symbol
    let n := n.withLabel ((symbol.map (·.name)).getD n.metadata.label)
    let n := { n with codedata := { n.codedata with
      inDisplayAnnotation := d.hasAnnotation "display" } }
    let bag := argumentProperties arguments (c.template? n.codedata) []
    let n := n.withProperties (bag.entries ++
      [.ofVariable d.name, (Property.ofType d.type.text).asEditable false, .ofTier c.tier])
    .ok ((n.withFlag .checked s.checked).withFlag .final d.isFinal)
  | _, _ => .error (s.unexpected .newConnection)

def dataMapper (c : Context) (s : Site) : Except BuildError FlowNode :=
  match s.shape? with
  | some (.call _ name arguments) =>
    let n := placed c .dataMapper s
    let n := { n with codedata := { n.codedata with symbol := some name } }
    let inputs := String.intercalate ", " (arguments.map (·.source))
    .ok (bind (n.withProperties
      [Property.functionName.withText name, (Property.inputs.withText inputs).asOptional true]) s)
  | _ => .error (s.unexpected .dataMapper)

/-- The text of an expression that may be missing. -/
def textOf (e : Option Expression) : String := (e.map (·.text)).getD ""

def newData (c : Context) (s : Site) : Except BuildError FlowNode :=
  match s.declaration with
  | some d =>
    let n := (placed c .newData s).withProperties
      [.ofVariable d.name, .ofType d.type.text,
        (Property.ofExpression (textOf d.initializer)).asOptional true]
    .ok (n.withFlag .final d.isFinal)
  | none => .error (s.unexpected .newData)

def updateData (c : Context) (s : Site) : Except BuildError FlowNode :=
  match s.statement with
  | some (.assignment target value _) =>
    .ok ((placed c .updateData s).withProperties
      [.ofVariable target.text, .ofExpression value.text])
  | _ => .error (s.unexpected .updateData)

def ifNode (c : Context) (s : Site) : Except BuildError FlowNode :=
  match s.statement with
  | some (.conditional read) =>
    let n := (placed c .if s).withProperty (.ofCondition read.condition.text)
    .ok { n with branches := s.branches }
  | _ => .error (s.unexpected .if)

def whileNode (c : Context) (s : Site) : Except BuildError FlowNode :=
  match s.statement with
  | some (.loop condition _ _) =>
    let n := (placed c .while s).withProperty (.ofCondition condition.text)
    .ok { n with branches := s.branches }
  | _ => .error (s.unexpected .while)

/-- A node whose only property is the operand of its statement. -/
def exitNode (c : Context) (kind : NodeKind) (optional : Bool) (s : Site) : FlowNode :=
  (placed c kind s).withProperty
    ((Property.ofExpression (textOf s.expression)).asOptional optional)

def expressionNode (c : Context) (s : Site) : Except BuildError FlowNode :=
  match s.expression with
  | some e =>
    .ok ((placed c .expressionStatement s).withProperty (.ofExpression e.text))
  | none => .error (s.unexpected .expressionStatement)

/-- The node of a kind at a site. -/
def node (kind : NodeKind) (c : Context) (s : Site) : Except BuildError FlowNode :=
  match kind with
  | .actionCall => actionCall c s
  | .newConnection => newConnection c s
  | .functionCall => functionCall c s
  | .dataMapper => dataMapper c s
  | .newData => newData c s
  | .updateData => updateData c s
  | .if => ifNode c s
  | .while => whileNode c s
  | .break => .ok (placed c .break s)
  | .continue => .ok (placed c .continue s)
  | .return => .ok (exitNode c .return true s)
  | .fail => .ok (exitNode c .fail true s)
  | .panic => .ok (exitNode c .panic false s)
  | .expressionStatement => expressionNode c s

/-- Whether a node built from source asked the registry for a template. -/
def consulted (n : FlowNode) : Bool :=
  match n.kind with
  | .actionCall => true
  | .newConnection => true
  | .functionCall => n.codedata.moduleQualifier.isSome
  | _ => false

end FlowCanvas.Build

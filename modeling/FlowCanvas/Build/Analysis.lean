import FlowCanvas.Build.Builder
import FlowCanvas.Diagram

/-!
# From source to diagrams

Every statement is classified and handed to the builder of its kind. A node that cannot be built
is left out, and nothing else with it. `flow` gives the diagram of a range of a document.
-/

namespace FlowCanvas.Analysis

/-- The kind of node that a call makes. -/
def callKind? (e : Expression) : Option NodeKind :=
  match e.shape with
  | .remote .. => some .actionCall
  | .call .. => some .functionCall
  | _ => none

/-- The kind and the site of a declaration; `statement` is missing outside blocks. -/
def ofDeclaration (c : Context) (d : Declaration) (statement : Option Statement) :
    NodeKind × Site :=
  let site : Site := { Site.ofSpan d.span with statement := statement, declaration := some d }
  let isClient := (c.clientType? d.type.text).isSome
  match d.initializer with
  | none => (if isClient then .newConnection else .newData, site)
  | some value =>
    let (inner, checked) := value.unwrapCheck
    let called := { site with expression := some inner, checked := checked }
    match inner.shape with
    | .new .. =>
      if isClient then (.newConnection, called)
      else (.newData, { site with expression := some value })
    | .call none name _ =>
      (if c.isMapping name then .dataMapper else .functionCall, called)
    | .call (some _) _ _ => (.functionCall, called)
    | .remote .. => (.actionCall, called)
    | _ => (.newData, { site with expression := some value })

/-- The site of an expression that may be a call. Without a call it stays as it is. -/
def ofOperand (site : Site) (fallback : NodeKind) (e : Expression) (returning : Bool) :
    NodeKind × Site :=
  let (inner, checked) := e.unwrapCheck
  match callKind? inner with
  | some kind =>
    (kind, { site with expression := some inner, checked := checked, returning := returning })
  | none => (fallback, { site with expression := some e })

/-- The kind and the site of a statement, given its blocks as branches. Unsupported statements
have none. -/
def ofStatement (c : Context) (s : Statement) (branches : List (Branch FlowNode)) :
    Option (NodeKind × Site) :=
  let site : Site := { Site.ofSpan s.span with statement := some s, branches := branches }
  match s with
  | .declaration d => some (ofDeclaration c d (some s))
  | .assignment .. => some (.updateData, site)
  | .conditional _ => some (.if, site)
  | .loop .. => some (.while, site)
  | .jump .break _ => some (.break, site)
  | .jump .continue _ => some (.continue, site)
  | .exit .fail value _ => some (.fail, { site with expression := value })
  | .exit .panic value _ => some (.panic, { site with expression := value })
  | .exit .return none _ => some (.return, site)
  | .exit .return (some e) _ => some (ofOperand site .return e true)
  | .expression e _ => some (ofOperand site .expressionStatement e false)
  | .unsupported .. => none

/-- The node of a kind at a site, unless it cannot be built. -/
def build? (b : Builders) (c : Context) (at' : NodeKind × Site) : Option FlowNode :=
  match (b.get at'.1).build c at'.2 with
  | .ok n => some n
  | .error _ => none

/-- The node of a statement, given its blocks as branches. -/
def ofBranches (b : Builders) (c : Context) (s : Statement) (branches : List (Branch FlowNode)) :
    Option FlowNode :=
  (ofStatement c s branches).bind (build? b c)

mutual

/-- The blocks of a statement as branches. -/
def branchesOf (b : Builders) (c : Context) : Statement → List (Branch FlowNode)
  | .conditional read => conditional b c read
  | .loop _ body _ => [.ofChildren Branch.bodyLabel (block b c body)]
  | _ => []

/-- The branches of an `if`. -/
def conditional (b : Builders) (c : Context) : Conditional → List (Branch FlowNode)
  | .mk _ thenBlock alternative _ =>
    .ofChildren Branch.thenLabel (block b c thenBlock) :: elseBranch b c alternative

/-- The branch of an `else`. An `else if` is its only child. -/
def elseBranch (b : Builders) (c : Context) : Alternative → List (Branch FlowNode)
  | .absent => []
  | .block body => [.ofChildren Branch.elseLabel (block b c body)]
  | .chained next =>
    [.ofChildren Branch.elseLabel
      (ofBranches b c (.conditional next) (conditional b c next)).toList]

/-- The nodes of a block. -/
def block (b : Builders) (c : Context) : Block → List FlowNode
  | .mk list _ => statements b c list

def statements (b : Builders) (c : Context) : List Statement → List FlowNode
  | [] => []
  | s :: ss => (ofBranches b c s (branchesOf b c s)).toList ++ statements b c ss

end

/-- The node of a statement. -/
def statement (b : Builders) (c : Context) (s : Statement) : Option FlowNode :=
  ofBranches b c s (branchesOf b c s)

/-- The node of a declaration of any level. -/
def declaration (b : Builders) (c : Context) (d : Declaration) (statement : Option Statement) :
    Option FlowNode :=
  build? b c (ofDeclaration c d statement)

/-- The node of a variable of the module. Listeners, constants, configurable variables and
connections have none. -/
def moduleVariable (b : Builders) (c : Context) (d : Declaration) : Option FlowNode :=
  if d.isListener || d.hasQualifier "const" || d.hasQualifier "configurable" then none
  else
    let site := ofDeclaration c d none
    if site.1 = .newConnection then none else build? b c site

/-- The node of a member of a module. -/
def member (b : Builders) (c : Context) : Member → Option FlowNode
  | .variable d => moduleVariable b c d
  | _ => none

/-- The nodes of a construct. -/
def construct (b : Builders) (c : Context) : Construct → List FlowNode
  | .module m => m.members.filterMap (member b c)
  | .function f => block b c f.body
  | .service s => s.functions.flatMap fun f => block b c f.body
  | .classDefinition d => d.functions.flatMap fun f => block b c f.body
  | .variable d => (moduleVariable b c d).toList
  | .block body => block b c body
  | .statement s => (statement b c s).toList

/-- Where the declaration of a symbol lives, if it can be a connection. -/
def tierOf? : SymbolKind → Option Tier
  | .moduleVariable => some .global
  | .classField => some .service
  | .localVariable => some .local
  | _ => none

/-- The declaration that stands at a span, and its statement if it is one. -/
def declarationAt? (d : Document) (span : Span) : Option (Declaration × Option Statement) :=
  let field (fields : List Declaration) : Option (Declaration × Option Statement) :=
    (fields.find? fun f => f.span == span).map fun f => (f, none)
  match d.enclosing span.start.position span.stop.position with
  | some (.variable declaration) => some (declaration, none)
  | some (.statement (.declaration declaration)) =>
    some (declaration, some (.declaration declaration))
  | some (.classDefinition definition) => field definition.fields
  | some (.service definition) => field definition.fields
  | _ => none

/-- The node of a visible symbol, when its type is a client class. -/
def connection? (b : Builders) (c : Context) (symbol : Symbol) : Option FlowNode := do
  let tier ← tierOf? symbol.kind
  let type ← symbol.type
  let _ ← c.clientType? type
  let (found, statement) ← declarationAt? c.document symbol.declaration
  declaration b { c with tier := tier } found statement

/-- The connections visible at a position. -/
def connections (b : Builders) (c : Context) (p : Position) : List FlowNode :=
  (Scope.visible c.document.tree p).filterMap (connection? b c)

/-- The diagram of a range of a document. -/
def flow (b : Builders) (c : Context) (start stop : Position) : Diagram :=
  let filePath := c.document.path.text
  match c.document.enclosing start stop with
  | none => .ofNodes filePath [] []
  | some found =>
    .ofNodes filePath (construct b { c with tier := .local } found)
      (connections b { c with tier := .global } found.span.start.position)

mutual

/-- The codedata of the nodes that asked the registry for a template, at every depth. -/
def consultedNodes (b : Builders) : List FlowNode → List Codedata
  | [] => []
  | ⟨id, kind, metadata, codedata, properties, branches, flags⟩ :: ns =>
    (if (b.get kind).consulted ⟨id, kind, metadata, codedata, properties, branches, flags⟩ then
      [codedata] else []) ++
      consultedBranches b branches ++ consultedNodes b ns

def consultedBranches (b : Builders) : List (Branch FlowNode) → List Codedata
  | [] => []
  | ⟨_, _, children⟩ :: bs => consultedNodes b children ++ consultedBranches b bs

end

/-- The symbols that were looked up for a diagram. -/
def consulted (b : Builders) (d : Diagram) : List Codedata :=
  consultedNodes b d.connections ++ consultedNodes b d.nodes

end FlowCanvas.Analysis

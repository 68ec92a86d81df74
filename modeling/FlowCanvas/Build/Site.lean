import FlowCanvas.Scope.Class
import FlowCanvas.Template.Fresh

/-!
# Where a node is built

A site is the source a node is built from, with what is known about it. The context is the
document around it and what its symbols mean.
-/

namespace FlowCanvas

/-- What a node may be built from besides its own source. -/
structure Context where
  document : Document
  classes : ClassIndex
  registry : Registry
  /-- Where the declarations that are looked at live. -/
  tier : Tier
  /-- The functions that map data. -/
  mappings : List String

namespace Context

/-- The client class a type descriptor resolves to. -/
def clientType? (c : Context) (descriptor : String) : Option ClassSymbol :=
  Scope.clientType? c.document.tree c.classes descriptor

/-- The template of a symbol, if the registry knows it. -/
def template? (c : Context) (codedata : Codedata) : Option FlowNode :=
  match c.registry codedata with
  | .ok n => some n
  | .error _ => none

/-- The import that a qualifier stands for. -/
def import? (c : Context) (qualifier : String) : Option Import :=
  c.document.tree.imports.find? fun i => i.qualifier == qualifier

def isMapping (c : Context) (name : String) : Bool := c.mappings.contains name

end Context

/-- The source of a node. -/
structure Site where
  span : Span
  statement : Option Statement
  declaration : Option Declaration
  /-- The expression that decides the kind, without `check` when it is a call. -/
  expression : Option Expression
  checked : Bool
  returning : Bool
  /-- The blocks of a control statement as branches of nodes. -/
  branches : List (Branch FlowNode)

namespace Site

def ofSpan (span : Span) : Site := ⟨span, none, none, none, false, false, []⟩

/-- The shape of the site's expression. -/
def shape? (s : Site) : Option Shape := s.expression.map Expression.shape

/-- The error of a site that a kind of node cannot be built from. -/
def unexpected (s : Site) (kind : NodeKind) : BuildError :=
  .unexpectedConstruct kind
    (match s.statement with
    | some statement => statement.form
    | none => "a module-level declaration")

end Site

end FlowCanvas

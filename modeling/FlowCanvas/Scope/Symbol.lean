import FlowCanvas.Document

/-!
# Symbols in scope

The symbols that are visible at a position, outermost first: those of the module, then the fields
of the object around the position, then parameters and locals. A later symbol hides an earlier one
of the same name.
-/

namespace FlowCanvas

inductive SymbolKind where
  | moduleVariable
  | listener
  | classField
  | localVariable
  | parameter
  | function
  | classDefinition
  | typeDefinition
deriving DecidableEq, Repr

/-- A name in scope. Functions, classes and types have no type of their own. -/
structure Symbol where
  name : String
  kind : SymbolKind
  type : Option String
  declaration : Span
deriving DecidableEq, Repr

namespace Symbol

def ofDeclaration (kind : SymbolKind) (d : Declaration) : Symbol :=
  ⟨d.name, kind, some d.type.text, d.span⟩

/-- The symbol a member of a module declares. -/
def ofMember? : Member → Option Symbol
  | .variable d => some (ofDeclaration (if d.isListener then .listener else .moduleVariable) d)
  | .function f => some ⟨f.name.text, .function, none, f.span⟩
  | .classDefinition c => some ⟨c.name, .classDefinition, none, c.span⟩
  | .typeDefinition t => some ⟨t.name, .typeDefinition, none, t.span⟩
  | .service _ => none

end Symbol

namespace Scope

mutual

/-- The locals that a statement brings into scope at `p`. A declaration counts from its end on; a
block counts while `p` lies in it and the statement around it has not ended. -/
def statementLocals (p : Position) : Statement → List Symbol
  | .declaration d =>
    if d.span.stop.position ≤ p then [.ofDeclaration .localVariable d] else []
  | .conditional c =>
    if c.span.stop.position ≤ p then []
    else if c.span.contains p then conditionalLocals p c else []
  | .loop _ body span =>
    if span.stop.position ≤ p then []
    else if span.contains p && body.span.contains p then blockLocals p body else []
  | _ => []

/-- The locals of the blocks of an `if` that `p` lies in. -/
def conditionalLocals (p : Position) : Conditional → List Symbol
  | .mk _ thenBlock alternative _ =>
    (if thenBlock.span.contains p then blockLocals p thenBlock else []) ++
      alternativeLocals p alternative

def alternativeLocals (p : Position) : Alternative → List Symbol
  | .absent => []
  | .block b => if b.span.contains p then blockLocals p b else []
  | .chained c => if c.span.contains p then conditionalLocals p c else []

def blockLocals (p : Position) : Block → List Symbol
  | .mk statements _ => statementsLocals p statements

def statementsLocals (p : Position) : List Statement → List Symbol
  | [] => []
  | s :: ss => statementLocals p s ++ statementsLocals p ss

end

/-- The parameters and locals of a function, when `p` lies in it. -/
def functionLocals (p : Position) (f : FunctionDefinition) : List Symbol :=
  if f.span.contains p then
    f.parameters.map (fun q => ⟨q.name, .parameter, some q.type.text, f.span⟩) ++
      blockLocals p f.body
  else []

/-- The fields and locals of an object that `p` lies in. -/
def objectLocals (p : Position) (fields : List Declaration)
    (functions : List FunctionDefinition) : List Symbol :=
  fields.map (.ofDeclaration .classField) ++ functions.flatMap (functionLocals p)

/-- The symbols that a member brings into scope at `p` only. -/
def memberLocals (p : Position) : Member → List Symbol
  | .classDefinition c => if c.span.contains p then objectLocals p c.fields c.functions else []
  | .service s => if s.span.contains p then objectLocals p s.fields s.functions else []
  | .function f => functionLocals p f
  | _ => []

/-- The symbols visible at `p`, outermost first. -/
def visible (m : SourceModule) (p : Position) : List Symbol :=
  m.members.filterMap Symbol.ofMember? ++ m.members.flatMap (memberLocals p)

end Scope

end FlowCanvas

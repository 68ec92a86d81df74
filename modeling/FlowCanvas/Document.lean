import FlowCanvas.Path
import FlowCanvas.Source.Parser.Member

/-!
# Documents

A document is a source text with its path and its tree. `enclosing` finds the smallest construct
around a range, the way an editor's selection is resolved.
-/

namespace FlowCanvas

structure Document where
  path : Path
  text : String
  tree : SourceModule

/-- A construct that a range can be resolved to. -/
inductive Construct where
  | module (module : SourceModule)
  | function (definition : FunctionDefinition)
  | service (definition : ServiceDefinition)
  | classDefinition (definition : ClassDefinition)
  | variable (declaration : Declaration)
  | block (block : Block)
  | statement (statement : Statement)

namespace Construct

def span : Construct → Span
  | .module m => m.span
  | .function f => f.span
  | .service s => s.span
  | .classDefinition c => c.span
  | .variable d => d.span
  | .block b => b.span
  | .statement s => s.span

/-- The construct a member of a module stands for. Types are none. -/
def ofMember? : Member → Option Construct
  | .function f => some (.function f)
  | .variable d => some (.variable d)
  | .service s => some (.service s)
  | .classDefinition c => some (.classDefinition c)
  | .typeDefinition _ => none

/-- The constructs of an `else` part. -/
def ofAlternative : Alternative → List Construct
  | .absent => []
  | .block b => [.block b]
  | .chained c => [.statement (.conditional c)]

/-- The constructs directly inside a construct, in source order. -/
def children : Construct → List Construct
  | .module m => m.members.filterMap ofMember?
  | .function f => [.block f.body]
  | .service s => s.functions.map .function
  | .classDefinition c => c.functions.map .function
  | .variable _ => []
  | .block b => b.statements.map .statement
  | .statement (.conditional c) => .block c.thenBlock :: ofAlternative c.alternative
  | .statement (.loop _ body _) => [.block body]
  | .statement _ => []

/-- Goes into the first child that covers the bytes from `lo` to `hi`, at most `n` times. -/
def descend (lo hi : Nat) : Nat → Construct → Construct
  | 0, c => c
  | n + 1, c =>
    match c.children.find? fun child => child.span.covers lo hi with
    | some child => descend lo hi n child
    | none => c

mutual

/-- How many constructs stand inside each other below a statement. -/
def statementDepth : Statement → Nat
  | .conditional c => conditionalDepth c + 1
  | .loop _ body _ => blockDepth body + 1
  | _ => 0

def conditionalDepth : Conditional → Nat
  | .mk _ thenBlock alternative _ => max (blockDepth thenBlock) (alternativeDepth alternative)

def alternativeDepth : Alternative → Nat
  | .absent => 0
  | .block b => blockDepth b
  | .chained c => conditionalDepth c + 1

def blockDepth : Block → Nat
  | .mk statements _ => statementsDepth statements + 1

def statementsDepth : List Statement → Nat
  | [] => 0
  | s :: ss => max (statementDepth s) (statementsDepth ss)

end

/-- The greatest number in a list. -/
def greatest (ns : List Nat) : Nat := ns.foldr max 0

def functionDepth (f : FunctionDefinition) : Nat := blockDepth f.body + 1

def memberDepth : Member → Nat
  | .function f => functionDepth f
  | .service s => greatest (s.functions.map functionDepth) + 1
  | .classDefinition c => greatest (c.functions.map functionDepth) + 1
  | _ => 0

/-- How many constructs stand inside each other below a construct. -/
def depth : Construct → Nat
  | .module m => greatest (m.members.map memberDepth) + 1
  | .function f => functionDepth f
  | .service s => greatest (s.functions.map functionDepth) + 1
  | .classDefinition c => greatest (c.functions.map functionDepth) + 1
  | .variable _ => 0
  | .block b => blockDepth b
  | .statement s => statementDepth s

/-- The smallest construct in `c` around the bytes from `lo` to `hi`, which are covered by `c`. -/
def smallest (lo hi : Nat) (c : Construct) : Construct := descend lo hi c.depth c

end Construct

namespace Document

/-- Reads a document. -/
def parse (path : Path) (text : String) : Except SyntaxError Document :=
  (Parser.parse text).map fun tree => ⟨path, text, tree⟩

/-- The name that line ranges carry: the file's name, or the whole path when it has none. -/
def fileName (d : Document) : String := d.path.fileName?.getD d.path.text

/-- The byte offset of a position. -/
def offset? (d : Document) (p : Position) : Option Nat := Text.editOffset? d.text.toList p

def endPosition (d : Document) : Position := Text.endPosition d.text.toList

/-- The characters whose first byte lies in front of `hi` and not in front of `lo`, counted from
byte `here`. -/
def sliceFrom (lo hi here : Nat) : List Char → List Char
  | [] => []
  | c :: cs =>
    let rest := sliceFrom lo hi (here + c.utf8Size) cs
    if lo ≤ here ∧ here < hi then c :: rest else rest

/-- The text between two places. -/
def slice (d : Document) (span : Span) : String :=
  String.ofList (sliceFrom span.start.byte span.stop.byte 0 d.text.toList)

/-- The smallest construct around a range. There is none when an end is past the text or the ends
are in the wrong order. -/
def enclosing (d : Document) (start stop : Position) : Option Construct := do
  let lo ← d.offset? start
  let hi ← d.offset? stop
  if hi < lo then none
  else some ((Construct.module d.tree).smallest lo hi)

/-- The module-level functions named by a run of tokens: the token after each `function` outside
brackets. -/
def functionNamesFrom (depth : Nat) : Phrase → List String
  | [] => []
  | t :: ts =>
    if t.isOpener then functionNamesFrom (depth + 1) ts
    else if t.isCloser then functionNamesFrom (depth - 1) ts
    else if depth == 0 && t.is "function" then
      match ts with
      | [] => []
      | name :: rest => name.text :: functionNamesFrom depth (name :: rest)
    else functionNamesFrom depth ts

/-- The names of the functions a text declares outside brackets; none when it has no tokens. -/
def functionNames (text : String) : List String :=
  match Lexer.tokenize text with
  | .ok tokens => functionNamesFrom 0 tokens
  | .error _ => []

end Document

end FlowCanvas

import FlowCanvas.Node.Basic
import FlowCanvas.Write.Piece

/-!
# Writing nodes as statements

Each kind of node has a form. A control node is written with the texts of its children, which are
given together with their kinds.
-/

namespace FlowCanvas

/-- A child of a control node: its kind and its text, or why it has none. -/
structure WrittenNode where
  kind : NodeKind
  text : Except BuildError String

namespace Write

/-- The lines of a text, without the line feeds and the carriage returns in front of them. -/
def lines : List Char → List (List Char)
  | [] => []
  | c :: cs =>
    if c == '\n' then [] :: lines cs
    else if c == '\r' && cs.head? == some '\n' then lines cs
    else
      match lines cs with
      | [] => [[c]]
      | l :: ls => (c :: l) :: ls

/-- Puts four blanks in front of every line that is not empty. -/
def indent (text : String) : String :=
  String.intercalate "\n" ((lines text.toList).map fun line =>
    if line.isEmpty then "" else "    " ++ String.ofList line)

def require (n : FlowNode) (key : String) : Except BuildError String :=
  n.properties.require n.kind key

/-- A word that is written when a flag holds. -/
def wordIf (n : FlowNode) (flag : Flags) (word : Mark) : List Piece :=
  if n.hasFlag flag then [.mark word] else []

/-- The type of a declaration; without one the variable's type is inferred. -/
def typeText (n : FlowNode) : String := (n.properties.text? "type").getD "var"

/-- `[final] type name`. -/
def declared (n : FlowNode) (type name : String) : List Piece :=
  wordIf n .final .final ++ [.name type, .space, .name name]

/-- `[final] type name =`, when the node binds a variable. -/
def binding (n : FlowNode) : List Piece :=
  match n.properties.text? "variable" with
  | some name => declared n (typeText n) name ++ [.mark .equal]
  | none => []

/-- One argument of a call; an optional one is written by name. -/
def argument (p : Property) : List Piece :=
  if p.optional then [.name p.key, .mark .equal, .expression p.sourceText]
  else [.expression p.sourceText]

/-- The properties that are written as arguments, required ones first. -/
def argumentProperties (n : FlowNode) : List Property :=
  let given := n.properties.entries.filter fun p => !p.isStructural && !p.isBlank
  given.filter (!·.optional) ++ given.filter (·.optional)

/-- Puts a comma between lists of pieces. -/
def commaSeparated : List (List Piece) → List Piece
  | [] => []
  | [ps] => ps
  | ps :: rest => ps ++ .mark .comma :: commaSeparated rest

/-- The arguments of a call in parentheses. -/
def arguments (n : FlowNode) : List Piece :=
  .mark .openParen :: commaSeparated ((argumentProperties n).map argument) ++ [.mark .closeParen]

/-- What stands in front of a call: `return`, or the variable it is bound to, and `check`. -/
def callLead (n : FlowNode) : List Piece :=
  (if n.returning then [.mark .return] else binding n) ++ wordIf n .checked .check

/-- A text that is given and not empty. -/
def nonEmpty (text : Option String) : Option String := text.filter (!·.isEmpty)

def actionCall (n : FlowNode) : Except BuildError (List Piece) := do
  let connection ← require n "connection"
  match nonEmpty n.codedata.symbol <|> nonEmpty (some n.metadata.label) with
  | none => .error (.missingCodedata n.kind "symbol")
  | some operation =>
    return callLead n ++ [.name connection, .mark .arrow, .name operation] ++ arguments n ++
      [.semicolon]

def functionCall (n : FlowNode) : Except BuildError (List Piece) :=
  match nonEmpty n.codedata.symbol with
  | none => .error (.missingCodedata n.kind "symbol")
  | some symbol =>
    let function :=
      match n.codedata.qualifier? with
      | some qualifier => qualifier ++ ":" ++ symbol
      | none => symbol
    .ok (callLead n ++ [.name function] ++ arguments n ++ [.semicolon])

def newConnection (n : FlowNode) : Except BuildError (List Piece) := do
  let name ← require n "variable"
  let type ← require n "type"
  return declared n type name ++
    [.mark .equal, .mark .check, .mark .new, .name type] ++ arguments n ++ [.semicolon]

def dataMapper (n : FlowNode) : Except BuildError (List Piece) := do
  let _ ← require n "variable"
  let function ← require n "functionName"
  return binding n ++ wordIf n .checked .check ++
    [.name function, .mark .openParen, .expression ((n.properties.text? "inputs").getD ""),
      .mark .closeParen, .semicolon]

def newData (n : FlowNode) : Except BuildError (List Piece) := do
  let name ← require n "variable"
  let value :=
    match n.properties.text? "expression" with
    | some text => [.mark .equal, .expression text]
    | none => []
  return declared n (typeText n) name ++ value ++ [.semicolon]

def updateData (n : FlowNode) : Except BuildError (List Piece) := do
  let name ← require n "variable"
  let expression ← require n "expression"
  return [.name name, .mark .equal, .expression expression, .semicolon]

def expressionStatement (n : FlowNode) : Except BuildError (List Piece) := do
  let expression ← require n "expression"
  return [.expression expression, .semicolon]

/-- A word and an operand, if there is one. -/
def exit (word : Mark) (n : FlowNode) : List Piece :=
  let operand :=
    match n.properties.text? "expression" with
    | some text => [.expression text]
    | none => []
  .mark word :: operand ++ [.semicolon]

def panic (n : FlowNode) : Except BuildError (List Piece) := do
  let _ ← require n "expression"
  return exit .panic n

/-- The texts of children, or the first error among them. -/
def texts : List WrittenNode → Except BuildError (List String)
  | [] => .ok []
  | c :: cs => do
    let text ← c.text
    let others ← texts cs
    return text :: others

/-- Children between braces, each on lines of its own. -/
def body (children : List WrittenNode) : Except BuildError (List Piece) := do
  let list ← texts children
  return [.mark .openBrace, .newLine] ++
    list.flatMap (fun text => [.raw (indent text), .newLine]) ++ [.mark .closeBrace]

/-- The children of the first branch with a label. -/
def childrenOf (branches : List (Branch WrittenNode)) (label : String) : List WrittenNode :=
  match branches.find? fun b => b.label == label with
  | some b => b.children
  | none => []

/-- What follows the first block of an `if`: nothing for no children, `else if` for a single
`if`, and `else` with a block otherwise. -/
def alternative (children : List WrittenNode) : Except BuildError (List Piece) :=
  match children with
  | [] => .ok []
  | [child] =>
    if child.kind = .if then do
      let text ← child.text
      return [.space, .mark .else, .raw text]
    else do
      let block ← body [child]
      return [.space, .mark .else] ++ block
  | children => do
    let block ← body children
    return [.space, .mark .else] ++ block

def ifStatement (n : FlowNode) (branches : List (Branch WrittenNode)) :
    Except BuildError (List Piece) := do
  let condition ← require n "condition"
  let thenBlock ← body (childrenOf branches Branch.thenLabel)
  let elsePart ← alternative (childrenOf branches Branch.elseLabel)
  return [.mark .if, .expression condition] ++ thenBlock ++ elsePart

def whileStatement (n : FlowNode) (branches : List (Branch WrittenNode)) :
    Except BuildError (List Piece) := do
  let condition ← require n "condition"
  let block ← body (childrenOf branches Branch.bodyLabel)
  return [.mark .while, .expression condition] ++ block

/-- The statement of a node, given its branches with their children written. -/
def statement (n : FlowNode) (branches : List (Branch WrittenNode)) :
    Except BuildError (List Piece) :=
  match n.kind with
  | .actionCall => actionCall n
  | .newConnection => newConnection n
  | .functionCall => functionCall n
  | .dataMapper => dataMapper n
  | .newData => newData n
  | .updateData => updateData n
  | .if => ifStatement n branches
  | .while => whileStatement n branches
  | .break => .ok [.mark .break, .semicolon]
  | .continue => .ok [.mark .continue, .semicolon]
  | .return => .ok (exit .return n)
  | .fail => .ok (exit .fail n)
  | .panic => panic n
  | .expressionStatement => expressionStatement n

end Write

end FlowCanvas

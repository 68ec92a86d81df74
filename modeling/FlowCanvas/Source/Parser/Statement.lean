import FlowCanvas.Source.Parser.Cursor
import FlowCanvas.Source.Tree

/-!
# Reading statements

Statements nest through blocks only. Each step that meets a block takes the block's reader as an
argument, and `statements` closes the circle; its bound is the number of tokens, since every
statement takes at least one.
-/

namespace FlowCanvas.Parser

/-- Reads all of a phrase as an expression; `next` is the token after it. -/
def expression (next : Token) : Phrase → Except SyntaxError Expression
  | [] => .error (.unexpectedToken next.position next.text "an expression")
  | t :: ts => .ok ⟨t, ts⟩

/-- Reads the initializer of a declaration, if there is one. -/
def initializer (next : Token) : Option Phrase → Except SyntaxError (Option Expression)
  | none => .ok none
  | some ts => (expression next ts).map some

/-- Reads `[type] name [= value];`, whose first token, annotations and qualifiers included, is
`start`. -/
def declaration (start : Token) (annotations qualifiers : List String) (ts : Phrase) :
    Except SyntaxError (Declaration × Phrase) := do
  let ((body, semicolon), rest) ← through ";" ts
  let (left, value) := Brackets.cutOrAll "=" body
  match left.getLast? with
  | none => .error (errorAt "a variable declaration" ts)
  | some name =>
    if name.isIdentifier then
      let value ← initializer semicolon value
      return (⟨annotations, qualifiers, left.dropLast, name.text, value,
        start.span.through semicolon.span⟩, rest)
    else .error (errorAt "a variable declaration" ts)

/-- Words that are never part of a type in front of a declared name. -/
def expressionWords : List String :=
  ["check", "checkpanic", "new", "start", "wait", "trap", "typeof", "from"]

/-- Whether a token can be the last one of a type. -/
def endsType (t : Token) : Bool :=
  match t.kind with
  | .identifier => !expressionWords.contains t.text
  | .punctuation => [">", "]", "?", "|\x7d"].contains t.text
  | _ => false

/-- Whether a phrase reads as a type and a name. -/
def looksDeclared (left : Phrase) : Bool :=
  match left.reverse with
  | name :: before :: _ =>
    name.isIdentifier && endsType before && !left.head?.any (·.isWord expressionWords)
  | _ => false

/-- Reads a declaration, an assignment or an expression with its semicolon. -/
def simpleStatement (start : Token) (ts : Phrase) : Except SyntaxError (Statement × Phrase) := do
  let ((body, semicolon), rest) ← through ";" ts
  let (left, value) := Brackets.cutOrAll "=" body
  if looksDeclared left then
    let (declared, rest) ← declaration start [] [] ts
    return (.declaration declared, rest)
  else
    let span := start.span.through semicolon.span
    match value with
    | some value =>
      if left.isEmpty then .error (errorAt "an assignment target" ts)
      else
        let value ← expression semicolon value
        return (.assignment left value span, rest)
    | none =>
      let value ← expression semicolon body
      return (.expression value span, rest)

/-- Statements that are kept as a span only. -/
def unsupportedWords : List String :=
  ["foreach", "match", "do", "lock", "transaction", "retry", "fork", "worker", "rollback"]

/-- Passes over a statement with no shape of its own and gives its last token. It ends at a
semicolon outside brackets, or at a brace that closes its last block unless `on` follows. -/
def skipStatement (depth : Nat) : Reader Token
  | [] => .error (.unexpectedEnd "the end of the statement")
  | t :: ts =>
    if t.isOpener then skipStatement (depth + 1) ts
    else if t.isCloser then
      match depth with
      | 0 => .error (.unexpectedToken t.position t.text "a statement")
      | depth + 1 =>
        if depth == 0 && t.is "\x7d" && !sees "on" ts then .ok (t, ts)
        else skipStatement depth ts
    else if depth == 0 && t.is ";" then .ok (t, ts)
    else skipStatement depth ts

/-- Reads a statement with no shape of its own. -/
def unsupportedStatement (construct : String) (start : Token) (ts : Phrase) :
    Except SyntaxError (Statement × Phrase) := do
  let (last, rest) ← skipStatement 0 ts
  return (.unsupported construct (start.span.through last.span), rest)

/-- Reads a condition, which ends in front of a brace. -/
def condition (ts : Phrase) : Except SyntaxError (Expression × Phrase) :=
  match Brackets.cut "\x7b" ts with
  | none => .error (errorAt (quoted "\x7b") ts)
  | some (before, brace, after) => do
    let value ← expression brace before
    return (value, brace :: after)

/-- Reads what follows an `if`, whose token is `start`, with at most `n` links of an `else if`
chain. -/
def conditional (block : Reader Block) : Nat → Token → Reader Conditional
  | 0, _, ts => .error (errorAt (quoted "\x7b") ts)
  | n + 1, start, ts => do
    let (condition, ts) ← condition ts
    let (thenBlock, ts) ← block ts
    match eat "else" ts with
    | none => return (.mk condition thenBlock .absent (start.span.through thenBlock.span), ts)
    | some [] => .error (.unexpectedEnd (quoted "\x7b"))
    | some (t :: ts) =>
      if t.is "if" then
        let (next, ts) ← conditional block n t ts
        return (.mk condition thenBlock (.chained next) (start.span.through next.span), ts)
      else
        let (elseBlock, ts) ← block (t :: ts)
        return (.mk condition thenBlock (.block elseBlock) (start.span.through elseBlock.span), ts)

/-- Reads what follows a `while`, whose token is `start`. -/
def loop (block : Reader Block) (start : Token) (ts : Phrase) :
    Except SyntaxError (Statement × Phrase) := do
  let (condition, ts) ← condition ts
  let (body, ts) ← block ts
  return (.loop condition body (start.span.through body.span), ts)

/-- Reads what follows `return`, `fail` or `panic`, whose token is `start`. Only `panic` needs an
operand. -/
def exit (kind : ExitKind) (start : Token) (ts : Phrase) :
    Except SyntaxError (Statement × Phrase) := do
  let ((body, semicolon), rest) ← through ";" ts
  let span := start.span.through semicolon.span
  match body with
  | t :: ts => return (.exit kind (some ⟨t, ts⟩) span, rest)
  | [] =>
    if kind == .panic then
      .error (.unexpectedToken start.position ";" "a panic expression")
    else return (.exit kind none span, rest)

/-- Reads what follows `break` or `continue`, whose token is `start`. -/
def jump (kind : JumpKind) (start : Token) (ts : Phrase) :
    Except SyntaxError (Statement × Phrase) := do
  let (semicolon, rest) ← expect ";" ts
  return (.jump kind (start.span.through semicolon.span), rest)

/-- Reads a declaration that starts with an annotation or with `final`. -/
def markedDeclaration (start : Token) (ts : Phrase) : Except SyntaxError (Statement × Phrase) := do
  let (annotations, ts) ← annotations ts
  let (qualifiers, ts) :=
    match eat "final" ts with
    | some rest => (["final"], rest)
    | none => ([], ts)
  let (declared, rest) ← declaration start annotations qualifiers ts
  return (.declaration declared, rest)

/-- Reads a statement that starts with `start` and goes on in `ts`. -/
def statement (block : Reader Block) (start : Token) (ts : Phrase) :
    Except SyntaxError (Statement × Phrase) :=
  if start.isWord unsupportedWords then unsupportedStatement start.text start (start :: ts)
  else if start.isWord ["if"] then do
    let (read, rest) ← conditional block ts.length start ts
    return (.conditional read, rest)
  else if start.isWord ["while"] then loop block start ts
  else if start.isWord ["return"] then exit .return start ts
  else if start.isWord ["fail"] then exit .fail start ts
  else if start.isWord ["panic"] then exit .panic start ts
  else if start.isWord ["break"] then jump .break start ts
  else if start.isWord ["continue"] then jump .continue start ts
  else if start.is "\x7b" then unsupportedStatement "block" start (start :: ts)
  else if start.is "@" || start.is "final" then markedDeclaration start (start :: ts)
  else simpleStatement start (start :: ts)

/-- Reads a block, given how the statements after its opening brace are read. -/
def blockWith (statements : Reader (List Statement × Token)) (ts : Phrase) :
    Except SyntaxError (Block × Phrase) := do
  let (brace, ts) ← expect "\x7b" ts
  let ((body, close), ts) ← statements ts
  return (.mk body (brace.span.through close.span), ts)

/-- Reads statements up to a closing brace, and that brace, from at most `n` tokens. -/
def statements : Nat → Reader (List Statement × Token)
  | 0, ts => .error (errorAt (quoted "\x7d") ts)
  | _ + 1, [] => .error (.unexpectedEnd (quoted "\x7d"))
  | n + 1, t :: ts =>
    if t.is "\x7d" then .ok (([], t), ts)
    else do
      let (first, ts) ← statement (blockWith (statements n)) t ts
      let ((others, close), ts) ← statements n ts
      return ((first :: others, close), ts)

/-- Reads a block. -/
def block : Reader Block := fun ts => blockWith (statements ts.length) ts

end FlowCanvas.Parser

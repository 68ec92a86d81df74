import FlowCanvas.Token.Brackets

/-!
# Expressions

An expression is a run of tokens. Its `shape` says what the run is read as: a call, a `new`, a
checked expression, a name, a literal, or none of these. Parts of a shape are runs again, so each
level is read off when it is asked for.
-/

namespace FlowCanvas

/-- At least one token, read as an expression. -/
structure Expression where
  first : Token
  rest : Phrase
deriving DecidableEq, Repr

namespace Expression

def tokens (e : Expression) : Phrase := e.first :: e.rest

def text (e : Expression) : String := Phrase.text e.tokens

def last (e : Expression) : Token := e.rest.getLast?.getD e.first

def span (e : Expression) : Span := e.first.span.through e.last.span

/-- The expression made of a phrase, which must not be empty. -/
def ofPhrase? : Phrase → Option Expression
  | [] => none
  | t :: ts => some ⟨t, ts⟩

end Expression

/-- An argument of a call: a value, with a name in front of it when it is a named one. -/
structure Argument where
  name : Option String
  value : Expression
deriving DecidableEq, Repr

namespace Argument

/-- The argument as it is written in a call. -/
def source (a : Argument) : String :=
  match a.name with
  | none => a.value.text
  | some name => name ++ " = " ++ a.value.text

/-- Reads a phrase between commas. `name = value` needs at least one token after the mark. -/
def ofPhrase? : Phrase → Option Argument
  | [] => none
  | [t] => some ⟨none, t, []⟩
  | [t, u] => some ⟨none, t, [u]⟩
  | t :: u :: v :: ts =>
    if t.isIdentifier && u.is "=" then some ⟨some t.text, v, ts⟩ else some ⟨none, t, u :: v :: ts⟩

/-- The arguments of a list, empty places between commas left out. -/
def listOf (inner : Phrase) : List Argument := (Brackets.segments inner).filterMap ofPhrase?

end Argument

/-- What an expression is read as. -/
inductive Shape where
  | check (panics : Bool) (inner : Expression)
  | new (type : Option Phrase) (arguments : List Argument)
  | remote (client : Phrase) (method : String) (arguments : List Argument)
  | call (qualifier : Option String) (name : String) (arguments : List Argument)
  | reference (name : String)
  | literal
  | other
deriving DecidableEq, Repr

namespace Shape

/-- Reads what follows the word `new`. -/
def ofNew (ts : Phrase) : Shape :=
  match ts with
  | [] => .new none []
  | _ =>
    match Brackets.splitLastGroup? ts with
    | some ([], inner) => .new none (Argument.listOf inner)
    | some (type, inner) => .new (some type) (Argument.listOf inner)
    | none => .new (some ts) []

/-- Whether a phrase is identifiers joined by points. -/
def isPath : Phrase → Bool
  | [] => false
  | [t] => t.isIdentifier
  | t :: u :: ts => t.isIdentifier && u.is "." && isPath ts

/-- The name in front of the colon of a qualified name. -/
def qualifier? : Phrase → Option String
  | [q, colon] => if q.isIdentifier && colon.is ":" then some q.text else none
  | _ => none

/-- Reads the callee `head method`: a plain name, a qualified one, or `client -> method`. -/
def ofCallee? (head : Phrase) (method : Token) (arguments : List Argument) : Option Shape :=
  if !method.isIdentifier then none
  else if head.isEmpty then some (.call none method.text arguments)
  else
    match qualifier? head with
    | some q => some (.call (some q) method.text arguments)
    | none =>
      if head.getLast?.any (·.is "->") && isPath head.dropLast then
        some (.remote head.dropLast method.text arguments)
      else none

/-- Reads `f(..)`, `m:f(..)` and `a.b->f(..)`. -/
def ofCall? (ts : Phrase) : Option Shape :=
  match Brackets.splitLastGroup? ts with
  | none => none
  | some (callee, inner) =>
    match callee.getLast? with
    | none => none
    | some method => ofCallee? callee.dropLast method (Argument.listOf inner)

/-- Reads a single token. -/
def ofToken (t : Token) : Shape :=
  if t.isIdentifier && !t.isWord ["true", "false", "null"] then .reference t.text else .literal

end Shape

namespace Expression

/-- What the expression is read as. -/
def shape (e : Expression) : Shape :=
  match e.rest with
  | [] =>
    if e.first.isWord ["new"] then .new none [] else Shape.ofToken e.first
  | t :: ts =>
    if e.first.isWord ["check", "checkpanic"] then
      .check (e.first.text == "checkpanic") ⟨t, ts⟩
    else if e.first.isWord ["new"] then Shape.ofNew (t :: ts)
    else
      match Shape.ofCall? e.tokens with
      | some call => call
      | none => if ts.isEmpty && e.first.is "(" && t.is ")" then .literal else .other

/-- Takes one `check` or `checkpanic` off, and tells whether there was one. -/
def unwrapCheck (e : Expression) : Expression × Bool :=
  match e.shape with
  | .check _ inner => (inner, true)
  | _ => (e, false)

/-- Whether the expression is a call of a function or of a client's method. -/
def isCall (e : Expression) : Bool :=
  match e.shape with
  | .remote .. | .call .. => true
  | _ => false

end Expression

end FlowCanvas

import FlowCanvas.Source.Parser.Statement
import FlowCanvas.Token.Lexer

/-!
# Reading modules

A module is imports and members in any order, with stray semicolons between them. `parse` reads a
whole source text.
-/

namespace FlowCanvas.Parser

/-- Reads `.part` as often as it stands there, at most `n` times. -/
def dottedRest : Nat → Reader (List String)
  | 0, ts => .ok ([], ts)
  | n + 1, ts =>
    match eat "." ts with
    | none => .ok ([], ts)
    | some ts => do
      let (part, ts) ← identifier ts
      let (parts, ts) ← dottedRest n ts
      return (part.text :: parts, ts)

/-- Reads an organization, if one is written, and the first part of a module's name. -/
def importHead (ts : Phrase) : Except SyntaxError ((Option String × String) × Phrase) := do
  let (first, ts) ← identifier ts
  match eat "/" ts with
  | none => return ((none, first.text), ts)
  | some ts =>
    let (second, ts) ← identifier ts
    return ((some first.text, second.text), ts)

/-- Reads the name a module is given, which is `name` when none is written. -/
def importQualifier (name : String) (ts : Phrase) : Except SyntaxError (String × Phrase) :=
  match eat "as" ts with
  | none => .ok (name, ts)
  | some ts => do
    let (given, ts) ← identifier ts
    return (given.text, ts)

/-- Reads what follows `import`, whose token is `start`. -/
def importDeclaration (start : Token) (ts : Phrase) : Except SyntaxError (Import × Phrase) := do
  let ((org, head), ts) ← importHead ts
  let (parts, ts) ← dottedRest ts.length ts
  let (qualifier, ts) ← importQualifier (parts.getLast?.getD head) ts
  let (semicolon, ts) ← expect ";" ts
  return (⟨org, String.intercalate "." (head :: parts), qualifier,
    start.span.through semicolon.span⟩, ts)

/-- Drops the annotations in front of a parameter: a mark, one token, and a value in braces. -/
def dropAnnotations : Nat → Phrase → Phrase
  | 0, ts => ts
  | _ + 1, [] => []
  | n + 1, t :: ts =>
    if t.is "@" then
      let rest := ts.drop 1
      dropAnnotations n (if sees "\x7b" rest then (Brackets.dropGroup rest).getD [] else rest)
    else t :: ts

/-- Reads one parameter; nothing is left of a list's empty place. -/
def parameter? (ts : Phrase) : Option Parameter :=
  let (left, default) := Brackets.cutOrAll "=" (dropAnnotations ts.length ts)
  left.getLast?.map fun name => ⟨left.dropLast, name.text, default⟩

/-- Reads a parameter list. -/
def parameters (ts : Phrase) : Except SyntaxError (List Parameter × Phrase) := do
  let (_, ts) ← expect "(" ts
  let ((inner, _), ts) ← through ")" ts
  return ((Brackets.segments inner).filterMap parameter?, ts)

/-- Reads the name of a function, which is an accessor and a path for a resource. -/
def functionName (qualifiers : List String) (ts : Phrase) :
    Except SyntaxError (FunctionName × Phrase) := do
  let (name, ts) ← identifier ts
  if qualifiers.contains "resource" then
    let (path, ts) ← upTo "(" ts
    return (.resource name.text path, ts)
  else if qualifiers.contains "remote" then return (.remote name.text, ts)
  else return (.plain name.text, ts)

/-- Reads the return type of a function, if it has one. -/
def returnType (ts : Phrase) : Except SyntaxError (Option Phrase × Phrase) :=
  match eat "returns" ts with
  | none => .ok (none, ts)
  | some ts => do
    let (_, ts) ← annotations ts
    let (type, ts) ← upTo "\x7b" ts
    return (some type, ts)

/-- Reads what follows the word `function`; `start` is the first token of the definition. -/
def functionDefinition (start : Token) (qualifiers : List String) (ts : Phrase) :
    Except SyntaxError (FunctionDefinition × Phrase) := do
  let (name, ts) ← functionName qualifiers ts
  let (parameters, ts) ← parameters ts
  let (returns, ts) ← returnType ts
  match ts with
  | [] => .error (.unexpectedEnd (quoted "\x7b"))
  | t :: _ =>
    if t.is "=" then .error (.unsupported t.position "external function body")
    else
      let (body, ts) ← block ts
      return (⟨qualifiers, name, parameters, returns, body, start.span.through body.span⟩, ts)

/-- The members of an object, and the brace that closes it. -/
structure ObjectBody where
  fields : List Declaration
  functions : List FunctionDefinition
  close : Token

/-- Reads the members of an object up to its closing brace, from at most `n` tokens. -/
def objectMembers : Nat → Reader ObjectBody
  | 0, ts => .error (errorAt (quoted "\x7d") ts)
  | _ + 1, [] => .error (.unexpectedEnd (quoted "\x7d"))
  | n + 1, start :: ts =>
    if start.is "\x7d" then .ok (⟨[], [], start⟩, ts)
    else do
      let (annotations, ts) ← annotations (start :: ts)
      let (qualifiers, ts) := qualifiers ts
      match eat "function" ts with
      | some ts =>
        let (function, ts) ← functionDefinition start qualifiers ts
        let (body, ts) ← objectMembers n ts
        return ({ body with functions := function :: body.functions }, ts)
      | none =>
        if sees "*" ts then
          let (_, ts) ← through ";" ts
          objectMembers n ts
        else
          let (field, ts) ← declaration start annotations qualifiers ts
          let (body, ts) ← objectMembers n ts
          return ({ body with fields := field :: body.fields }, ts)

/-- Reads an object's members between braces. -/
def objectBody (ts : Phrase) : Except SyntaxError (ObjectBody × Phrase) := do
  let (_, ts) ← expect "\x7b" ts
  objectMembers ts.length ts

/-- Reads what follows the word `service`; `start` is the first token of the definition. -/
def serviceDefinition (start : Token) (ts : Phrase) :
    Except SyntaxError (ServiceDefinition × Phrase) := do
  let ((path, _), ts) ← through "on" ts
  let (listener, ts) ← upTo "\x7b" ts
  let (body, ts) ← objectBody ts
  let (last, ts) :=
    match ts with
    | t :: rest => if t.is ";" then (t, rest) else (body.close, ts)
    | [] => (body.close, [])
  return (⟨path, listener, body.fields, body.functions, start.span.through last.span⟩, ts)

/-- Reads what follows the word `class`; `start` is the first token of the definition. -/
def classDefinition (start : Token) (qualifiers : List String) (ts : Phrase) :
    Except SyntaxError (ClassDefinition × Phrase) := do
  let (name, ts) ← identifier ts
  let (body, ts) ← objectBody ts
  return (⟨qualifiers, name.text, body.fields, body.functions,
    start.span.through body.close.span⟩, ts)

/-- Adds an entry to a record: a type and a name make a field, anything else is the rest
descriptor. -/
def addEntry (record : RecordType) (entry : Phrase) : RecordType :=
  let (left, default) := Brackets.cutOrAll "=" entry
  let optional := left.getLast?.any (·.is "?")
  let left := if optional then left.dropLast else left
  match left.getLast? with
  | some name =>
    if name.isIdentifier && 2 ≤ left.length then
      { record with fields := record.fields ++ [⟨left.dropLast, name.text, optional, default⟩] }
    else { record with rest := some entry }
  | none => { record with rest := some entry }

/-- Reads the entries of a record up to its closing bracket, from at most `n` tokens. -/
def recordEntries (close : String) : Nat → RecordType → Reader RecordType
  | 0, _, ts => .error (errorAt (quoted close) ts)
  | n + 1, record, ts =>
    match ts with
    | [] => .error (.unexpectedEnd (quoted close))
    | t :: rest =>
      if t.is close then .ok (record, rest)
      else do
        let ((entry, _), after) ← through ";" ts
        if t.is "*" then
          recordEntries close n { record with inclusions := record.inclusions ++ [entry.drop 1] }
            after
        else
          let (_, ts) ← annotations ts
          let ((entry, _), after) ← through ";" ts
          recordEntries close n (addEntry record entry) after

/-- Reads what follows the word `record`. -/
def recordType (ts : Phrase) : Except SyntaxError (RecordType × Phrase) :=
  match eat "\x7b|" ts with
  | none => do
    let (_, ts) ← expect "\x7b" ts
    recordEntries "\x7d" ts.length ⟨false, [], [], none⟩ ts
  | some ts => recordEntries "|\x7d" ts.length ⟨true, [], [], none⟩ ts

/-- Reads the type of a type definition. -/
def typeDescriptor (ts : Phrase) : Except SyntaxError (TypeDescriptor × Phrase) :=
  match eat "record" ts with
  | none => do
    let (descriptor, ts) ← upTo ";" ts
    return (.other descriptor, ts)
  | some ts => do
    let (record, ts) ← recordType ts
    return (.record record, ts)

/-- Reads what follows the word `type`; `start` is the first token of the definition. -/
def typeDefinition (start : Token) (qualifiers : List String) (ts : Phrase) :
    Except SyntaxError (TypeDefinition × Phrase) := do
  let (name, ts) ← identifier ts
  let (descriptor, ts) ← typeDescriptor ts
  let (semicolon, ts) ← expect ";" ts
  return (⟨qualifiers.contains "public", name.text, descriptor,
    start.span.through semicolon.span⟩, ts)

/-- Reads what follows the word `enum`; `start` is the first token of the definition. -/
def enumDefinition (start : Token) (qualifiers : List String) (ts : Phrase) :
    Except SyntaxError (TypeDefinition × Phrase) := do
  let (name, ts) ← identifier ts
  let (_, ts) ← expect "\x7b" ts
  let ((inner, close), ts) ← through "\x7d" ts
  let members := (Brackets.segments inner).filter (!·.isEmpty)
  return (⟨qualifiers.contains "public", name.text, .enumeration members,
    start.span.through close.span⟩, ts)

/-- Reads a member whose first token is `start`, past its annotations and qualifiers. -/
def memberAfter (start : Token) (annotations qualifiers : List String) :
    Phrase → Except SyntaxError (Member × Phrase)
  | [] => .error (.unexpectedEnd "a module member")
  | t :: ts =>
    if t.text == "function" then do
      let (read, ts) ← functionDefinition start qualifiers ts
      return (.function read, ts)
    else if t.text == "service" then do
      let (read, ts) ← serviceDefinition start ts
      return (.service read, ts)
    else if t.text == "class" then do
      let (read, ts) ← classDefinition start qualifiers ts
      return (.classDefinition read, ts)
    else if t.text == "type" then do
      let (read, ts) ← typeDefinition start qualifiers ts
      return (.typeDefinition read, ts)
    else if t.text == "enum" then do
      let (read, ts) ← enumDefinition start qualifiers ts
      return (.typeDefinition read, ts)
    else if t.text == "const" then do
      let (read, ts) ← declaration start annotations (qualifiers ++ ["const"]) ts
      return (.variable read, ts)
    else if t.text == "annotation" || t.text == "xmlns" then
      .error (.unsupported t.position t.text)
    else do
      let (read, ts) ← declaration start annotations qualifiers (t :: ts)
      return (.variable read, ts)

/-- Reads a member. -/
def member (start : Token) (ts : Phrase) : Except SyntaxError (Member × Phrase) := do
  let (annotations, ts) ← annotations (start :: ts)
  let (qualifiers, ts) := qualifiers ts
  memberAfter start annotations qualifiers ts

/-- Reads imports and members to the end, from at most `n` tokens. -/
def moduleParts : Nat → Phrase → Except SyntaxError (List Import × List Member)
  | 0, _ => .ok ([], [])
  | _ + 1, [] => .ok ([], [])
  | n + 1, t :: ts =>
    if t.is "import" then do
      let (read, ts) ← importDeclaration t ts
      let (imports, members) ← moduleParts n ts
      return (read :: imports, members)
    else if t.is ";" then moduleParts n ts
    else do
      let (read, ts) ← member t ts
      let (imports, members) ← moduleParts n ts
      return (imports, read :: members)

/-- Reads a source text. -/
def parse (source : String) : Except SyntaxError SourceModule := do
  let tokens ← Lexer.tokenize source
  let (imports, members) ← moduleParts tokens.length tokens
  return ⟨imports, members, ⟨.origin, Place.origin.advance source.toList⟩⟩

end FlowCanvas.Parser

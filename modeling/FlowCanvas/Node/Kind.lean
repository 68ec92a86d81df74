import FlowCanvas.Text.Position

/-!
# Kinds of nodes
-/

namespace FlowCanvas

/-- What a node of a flow diagram stands for. -/
inductive NodeKind where
  | actionCall
  | newConnection
  | functionCall
  | dataMapper
  | newData
  | updateData
  | if
  | while
  | break
  | continue
  | return
  | fail
  | panic
  | expressionStatement
deriving DecidableEq, Repr, Inhabited

namespace NodeKind

def all : List NodeKind :=
  [.actionCall, .newConnection, .functionCall, .dataMapper, .newData, .updateData, .if, .while,
   .break, .continue, .return, .fail, .panic, .expressionStatement]

/-- The word of a kind, in texts and in JSON. -/
def word : NodeKind → String
  | .actionCall => "ACTION_CALL"
  | .newConnection => "NEW_CONNECTION"
  | .functionCall => "FUNCTION_CALL"
  | .dataMapper => "DATA_MAPPER"
  | .newData => "NEW_DATA"
  | .updateData => "UPDATE_DATA"
  | .if => "IF"
  | .while => "WHILE"
  | .break => "BREAK"
  | .continue => "CONTINUE"
  | .return => "RETURN"
  | .fail => "FAIL"
  | .panic => "PANIC"
  | .expressionStatement => "EXPRESSION_STATEMENT"

def ofWord? (word : String) : Option NodeKind := all.find? fun k => k.word == word

end NodeKind

/-- How an editor treats the value of a property. -/
inductive ValueType where
  | expression
  | identifier
  | type
  | enum
  | boolean
  | string
  | number
deriving DecidableEq, Repr, Inhabited

namespace ValueType

def all : List ValueType :=
  [.expression, .identifier, .type, .enum, .boolean, .string, .number]

def word : ValueType → String
  | .expression => "EXPRESSION"
  | .identifier => "IDENTIFIER"
  | .type => "TYPE"
  | .enum => "ENUM"
  | .boolean => "BOOLEAN"
  | .string => "STRING"
  | .number => "NUMBER"

def ofWord? (word : String) : Option ValueType := all.find? fun t => t.word == word

end ValueType

/-- Where a connection is declared. -/
inductive Tier where
  | local
  | global
  | service
deriving DecidableEq, Repr, Inhabited

namespace Tier

def word : Tier → String
  | .local => "Local"
  | .global => "Global"
  | .service => "Service"

def ofWord? (word : String) : Option Tier :=
  [Tier.local, .global, .service].find? fun t => t.word == word

end Tier

/-- The error of a template registry. -/
inductive TemplateError where
  | unavailable (descriptor : String)
  | invalidCatalog (reason : String)
deriving DecidableEq, Repr

namespace TemplateError

def message : TemplateError → String
  | .unavailable descriptor => "No template is available for '" ++ descriptor ++ "'"
  | .invalidCatalog reason => "Invalid template catalog: " ++ reason

end TemplateError

/-- Why a node or the source of a node could not be made. -/
inductive BuildError where
  | missingProperty (kind : NodeKind) (key : String)
  | invalidScope (value : String)
  | missingCodedata (kind : NodeKind) (field : String)
  | unexpectedConstruct (kind : NodeKind) (found : String)
  | template (error : TemplateError)
deriving DecidableEq, Repr

namespace BuildError

def message : BuildError → String
  | .missingProperty kind key =>
    "Node of kind '" ++ kind.word ++ "' requires the '" ++ key ++ "' property, but it is missing"
  | .invalidScope value =>
    "Invalid scope '" ++ value ++ "' (expected 'Local' or 'Global')"
  | .missingCodedata kind field =>
    "Node of kind '" ++ kind.word ++ "' requires codedata field '" ++ field ++ "'"
  | .unexpectedConstruct kind found =>
    "A '" ++ kind.word ++ "' node cannot be built from " ++ found
  | .template error => error.message

end BuildError

end FlowCanvas

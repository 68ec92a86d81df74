import FlowCanvas.Text.Lines

/-!
# Tokens

A token keeps the layout in front of it, so a run of tokens knows the text it was read from
without looking back at the document.
-/

namespace FlowCanvas

inductive TokenKind where
  | identifier
  | string
  | number
  | punctuation
deriving DecidableEq, Repr, Inhabited

/-- A token of a source text. `gap` is the layout between it and the token before it. -/
structure Token where
  kind : TokenKind
  text : String
  gap : String
  span : Span
deriving DecidableEq, Repr, Inhabited

namespace Token

/-- Whether the token is spelled `text`. A string literal is never a keyword or a mark. -/
def is (t : Token) (text : String) : Bool := t.kind != .string && t.text == text

def isIdentifier (t : Token) : Bool := t.kind == .identifier

/-- Whether the token is an identifier among `words`. -/
def isWord (t : Token) (words : List String) : Bool := t.isIdentifier && words.contains t.text

/-- Brackets that open a group. All kinds count alike. -/
def isOpener (t : Token) : Bool :=
  t.kind == .punctuation && ["(", "[", "\x7b", "\x7b|"].contains t.text

/-- Brackets that close a group. All kinds count alike. -/
def isCloser (t : Token) : Bool :=
  t.kind == .punctuation && [")", "]", "\x7d", "|\x7d"].contains t.text

/-- Where the token starts. -/
def position (t : Token) : Position := t.span.start.position

/-- The token without its layout and its place. -/
def erase (t : Token) : Token := { t with gap := "", span := default }

end Token

/-- A run of tokens that stand next to each other in a source. -/
abbrev Phrase := List Token

namespace Phrase

/-- The text of tokens that follow others, layout included. -/
def tail (ts : Phrase) : String := String.join (ts.map fun t => t.gap ++ t.text)

/-- The source text from the start of the first token to the end of the last one. -/
def text : Phrase → String
  | [] => ""
  | t :: ts => t.text ++ tail ts

/-- The tokens as kinds and spellings, layout and places left out. -/
def lexemes (ts : Phrase) : List (TokenKind × String) := ts.map fun t => (t.kind, t.text)

end Phrase

end FlowCanvas

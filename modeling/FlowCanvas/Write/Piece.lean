import FlowCanvas.Text.Blank

/-!
# Pieces of a statement

A statement is written as a list of pieces, and `render` puts them together with canonical blanks:
a word is followed by one, marks take away the blanks in front of them, and no line ends in one.
-/

namespace FlowCanvas

/-- The words and marks of written statements. -/
inductive Mark where
  | return
  | check
  | fail
  | panic
  | new
  | final
  | if
  | else
  | while
  | break
  | continue
  | arrow
  | colon
  | equal
  | comma
  | openParen
  | closeParen
  | openBrace
  | closeBrace
deriving DecidableEq, Repr

namespace Mark

def all : List Mark :=
  [.return, .check, .fail, .panic, .new, .final, .if, .else, .while, .break, .continue, .arrow,
   .colon, .equal, .comma, .openParen, .closeParen, .openBrace, .closeBrace]

def text : Mark → String
  | .return => "return"
  | .check => "check"
  | .fail => "fail"
  | .panic => "panic"
  | .new => "new"
  | .final => "final"
  | .if => "if"
  | .else => "else"
  | .while => "while"
  | .break => "break"
  | .continue => "continue"
  | .arrow => "->"
  | .colon => ":"
  | .equal => "="
  | .comma => ","
  | .openParen => "("
  | .closeParen => ")"
  | .openBrace => "\x7b"
  | .closeBrace => "\x7d"

def ofText? (text : String) : Option Mark := all.find? fun m => m.text == text

end Mark

/-- A piece of a written statement. -/
inductive Piece where
  | mark (mark : Mark)
  | name (text : String)
  /-- A text that is trimmed of the blanks around it. -/
  | expression (text : String)
  | raw (text : String)
  | space
  | newLine
  | semicolon
deriving DecidableEq, Repr

namespace Piece

/-- Puts a text behind what is written; what is written stands in reverse. -/
def put (text : String) (out : List Char) : List Char := text.toList.reverse ++ out

/-- Takes the blanks off the end of what is written. -/
def trimEnd (out : List Char) : List Char := out.dropWhile (· == ' ')

/-- Writes a word or a mark. -/
def putMark (out : List Char) : Mark → List Char
  | .equal => put " = " (trimEnd out)
  | .comma => put ", " (trimEnd out)
  | .openBrace => put " \x7b" (trimEnd out)
  | .openParen => put "(" (trimEnd out)
  | .closeParen => put ")" (trimEnd out)
  | .arrow => put "->" out
  | .colon => put ":" out
  | .closeBrace => put "\x7d" out
  | word => ' ' :: put word.text out

/-- Writes one piece. -/
def write (out : List Char) : Piece → List Char
  | .mark m => putMark out m
  | .name text => put text out
  | .expression text => put (Text.trim text) out
  | .raw text => put text out
  | .space =>
    match out with
    | [] => []
    | c :: _ => if c == ' ' || c == '\n' then out else ' ' :: out
  | .newLine => '\n' :: trimEnd out
  | .semicolon => ';' :: trimEnd out

/-- The text of a list of pieces. -/
def render (pieces : List Piece) : String :=
  String.ofList (trimEnd (pieces.foldl write [])).reverse

end Piece

end FlowCanvas

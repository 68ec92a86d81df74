import FlowCanvas.Text.Position

/-!
# Errors in a source text
-/

namespace FlowCanvas

/-- Why a text is no source document. -/
inductive SyntaxError where
  | unexpectedToken (place : Position) (found expected : String)
  | unexpectedEnd (expected : String)
  | unterminatedString (place : Position)
  | unexpectedCharacter (place : Position) (found : Char)
  | unsupported (place : Position) (construct : String)
deriving DecidableEq, Repr

namespace SyntaxError

def message : SyntaxError → String
  | .unexpectedToken place found expected =>
    "Unexpected token '" ++ found ++ "' at " ++ place.render ++ ", expected " ++ expected
  | .unexpectedEnd expected => "Unexpected end of input, expected " ++ expected
  | .unterminatedString place => "Unterminated string literal starting at " ++ place.render
  | .unexpectedCharacter place found =>
    "Unexpected character '" ++ found.toString ++ "' at " ++ place.render
  | .unsupported place construct =>
    "Unsupported syntax '" ++ construct ++ "' at " ++ place.render

/-- The error without its place. -/
def erase : SyntaxError → SyntaxError
  | .unexpectedToken _ found expected => .unexpectedToken .zero found expected
  | .unexpectedEnd expected => .unexpectedEnd expected
  | .unterminatedString _ => .unterminatedString .zero
  | .unexpectedCharacter _ found => .unexpectedCharacter .zero found
  | .unsupported _ construct => .unsupported .zero construct

end SyntaxError

end FlowCanvas

import ToffoliBench.Diagram.Error

namespace ToffoliBench

inductive DrawingError where
  -- the offset is counted in bytes of UTF-8
  | lexer (position : Nat) (lexeme : String)
  | unexpectedToken (expected found : String)
  | unexpectedEnd (expected : String)
  | unknownColor (color : String)
  | unknownEdgeColor (color : String)
  | invalidLabel (id : Nat) (label : String)
  | invalidPosition (id : Nat) (pos : String)
  | duplicateVertex (id : Nat)
  | undefinedVertex (id : Nat)
  | diagram (e : DiagramError)
deriving DecidableEq, Repr, Inhabited

def DrawingError.message : DrawingError → String
  | .lexer position lexeme => s!"Lexer error at position {position}: Invalid token: '{lexeme}'"
  | .unexpectedToken expected found => s!"Unexpected token: expected {expected}, found {found}"
  | .unexpectedEnd expected => s!"Unexpected end of input: expected {expected}"
  | .unknownColor color => s!"Unknown vertex color: {color}"
  | .unknownEdgeColor color => s!"Unknown edge color: {color}"
  | .invalidLabel id label => s!"Invalid label for vertex {id}: {label}"
  | .invalidPosition id pos => s!"Invalid position for vertex {id}: {pos}"
  | .duplicateVertex id => s!"Duplicate vertex: {id}"
  | .undefinedVertex id => s!"Undefined vertex: {id}"
  | .diagram e => s!"Diagram error: {e.message}"

end ToffoliBench

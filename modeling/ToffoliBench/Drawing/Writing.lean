import ToffoliBench.Diagram.Basic
import ToffoliBench.Drawing.Token

namespace ToffoliBench.Drawing

def colorOf : VertexKind → String
  | .boundary => "black"
  | .z => "green"
  | .x => "red"
  | .hBox => "yellow"

-- Input wins over output, and either over the phase.
def labelChars (d : Diagram) (v : Nat) (x : Vertex) : List Char :=
  if d.inputs.contains v then Text.ofNat v ++ [':', 'i']
  else if d.outputs.contains v then Text.ofNat v ++ [':', 'o']
  else if !x.phase.isZero then Text.ofNat v ++ ':' :: x.phase.chars
  else Text.ofNat v

def positionChars (x : Vertex) : List Char :=
  if x.qubit != 0 || x.row != 0 then
    ", pos=\"".toList ++ Decimal.chars x.qubit ++ ',' :: Decimal.chars x.row ++ ['!', '"']
  else []

def vertexLine (d : Diagram) (v : Nat) (x : Vertex) : List Char :=
  [' ', ' '] ++ Text.ofNat v ++ " [color=".toList ++ (colorOf x.kind).toList ++ ", label=\"".toList ++
    labelChars d v x ++ '"' :: positionChars x ++ [']', '\n']

def edgeLine (e : Edge) : List Char :=
  [' ', ' '] ++ Text.ofNat e.low ++ " -- ".toList ++ Text.ofNat e.high ++
    (match e.kind with
      | .simple => []
      | .hadamard => " [color=blue]".toList) ++ ['\n']

def chars (d : Diagram) : List Char :=
  "graph \x7b\n".toList ++ d.vertices.flatMap (fun entry => vertexLine d entry.1 entry.2) ++
    '\n' :: d.edges.flatMap edgeLine ++ "\x7d\n".toList

-- Markers and the scalar are not drawn.
def text (d : Diagram) : String := String.ofList (chars d)

def trimmedText (d : Diagram) : String := String.ofList (Text.trimEnd (chars d))

end ToffoliBench.Drawing

import ToffoliBench.Phase

namespace ToffoliBench

inductive VertexKind where
  | boundary
  | z
  | x
  | hBox
deriving DecidableEq, Repr, Inhabited

def VertexKind.isSpider : VertexKind → Bool
  | .z | .x => true
  | .boundary | .hBox => false

inductive EdgeKind where
  | simple
  | hadamard
deriving DecidableEq, Repr, Inhabited

def EdgeKind.merge (k l : EdgeKind) : EdgeKind :=
  if k = l then .simple else .hadamard

inductive Marker where
  | potentialMaster
  | starHelper
deriving DecidableEq, Repr, Inhabited

structure Vertex where
  kind : VertexKind
  phase : Phase := .zero
  -- the drawing position; auxiliary legs lie at fractional or negative qubits
  qubit : Float := 0
  row : Float := 0
  marker : Option Marker := none
deriving DecidableEq

namespace Vertex

instance : Inhabited Vertex := ⟨{ kind := .boundary }⟩

def boundary : Vertex := { kind := .boundary }
def z : Vertex := { kind := .z }
def x : Vertex := { kind := .x }
def hBox : Vertex := { kind := .hBox, phase := .pi }

def withPhase (v : Vertex) (phase : Phase) : Vertex := { v with phase }
def mark (v : Vertex) (marker : Marker) : Vertex := { v with marker := some marker }
-- (row, qubit) of the drawing grid; `at` is a keyword
def placed (v : Vertex) (qubit row : Float) : Vertex := { v with qubit, row }

def shifted (v : Vertex) (qubits rows : Float) : Vertex :=
  { v with qubit := v.qubit + qubits, row := v.row + rows }

end Vertex

inductive BasisState where
  | zero
  | one
  | plus
  | minus
  | open
deriving DecidableEq, Repr, Inhabited

namespace BasisState

def ofChar (c : Char) : Except DiagramError BasisState :=
  match c with
  | '0' => .ok .zero
  | '1' => .ok .one
  | '+' => .ok .plus
  | '-' => .ok .minus
  | '/' => .ok .open
  | _ => .error (.invalidBasisState c)

def parse (cs : List Char) : Except DiagramError (List BasisState) := cs.mapM ofChar

def spider : BasisState → Option (VertexKind × Phase)
  | .zero => some (.x, .zero)
  | .one => some (.x, .pi)
  | .plus => some (.z, .zero)
  | .minus => some (.z, .pi)
  | .open => none

end BasisState

end ToffoliBench

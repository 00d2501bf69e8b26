import ToffoliBench.Diagram.Vertex
import ToffoliBench.Exchange.Reading
import ToffoliBench.Scalar

namespace ToffoliBench

open Exchange

-- A phase is stored as it is written, in whatever terms.
def Phase.ofJson? (j : Json) : Option Phase := do
  match ← list? (int? Range.signed64) j with
  | [numer, denom] => Phase.ofParts numer denom
  | _ => none

def Scalar.ofJson? (j : Json) : Option Scalar := do
  let fields ← fields? ["power_sqrt2", "phase"] j
  let power ← field? fields "power_sqrt2" (int? Range.signed32)
  let phase ← field? fields "phase" Phase.ofJson?
  pure ⟨power, phase⟩

def VertexKind.names : List (String × VertexKind) :=
  [("Boundary", .boundary), ("Z", .z), ("X", .x), ("HBox", .hBox)]

def EdgeKind.names : List (String × EdgeKind) := [("Simple", .simple), ("Hadamard", .hadamard)]

def Marker.names : List (String × Marker) :=
  [("PotentialMaster", .potentialMaster), ("StarHelper", .starHelper)]

def BasisState.names : List (String × BasisState) :=
  [("Zero", .zero), ("One", .one), ("Plus", .plus), ("Minus", .minus), ("Open", .open)]

def VertexKind.ofJson? : Json → Option VertexKind := choice? VertexKind.names
def EdgeKind.ofJson? : Json → Option EdgeKind := choice? EdgeKind.names
def Marker.ofJson? : Json → Option Marker := choice? Marker.names
def BasisState.ofJson? : Json → Option BasisState := choice? BasisState.names

def Vertex.ofJson? (j : Json) : Option Vertex := do
  let fields ← fields? ["kind", "phase", "qubit", "row", "marker"] j
  let kind ← field? fields "kind" VertexKind.ofJson?
  let phase ← field? fields "phase" Phase.ofJson?
  let qubit ← field? fields "qubit" float?
  let row ← field? fields "row" float?
  let marker ← maybeField? fields "marker" Marker.ofJson?
  pure { kind, phase, qubit, row, marker }

end ToffoliBench

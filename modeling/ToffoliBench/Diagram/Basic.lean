import ToffoliBench.Diagram.Vertex
import ToffoliBench.Scalar

namespace ToffoliBench

-- A wire between `low` and `high`; `low < high` in every diagram built by the operations.
structure Edge where
  low : Nat
  high : Nat
  kind : EdgeKind
deriving DecidableEq, Repr, Inhabited

namespace Edge

def between (a b : Nat) (kind : EdgeKind) : Edge := ⟨min a b, max a b, kind⟩

def joins (e : Edge) (a b : Nat) : Bool := e.low == min a b && e.high == max a b

def touches (e : Edge) (v : Nat) : Bool := e.low == v || e.high == v

def other? (e : Edge) (v : Nat) : Option Nat :=
  if e.low = v then some e.high else if e.high = v then some e.low else none

def before (e f : Edge) : Bool := e.low < f.low || (e.low == f.low && e.high < f.high)

end Edge

-- Vertices stand by ascending id and edges by ascending end points, so that equal contents are equal
-- values. A new vertex takes the id that was freed last, or the next unused one.
structure Diagram where
  vertices : List (Nat × Vertex) := []
  edges : List Edge := []
  freed : List Nat := []
  next : Nat := 0
  inputs : List Nat := []
  outputs : List Nat := []
  scalar : Scalar := .one
deriving DecidableEq, Inhabited

namespace Diagram

def empty : Diagram := {}

def ids (d : Diagram) : List Nat := d.vertices.map (·.1)

def vertex? (d : Diagram) (v : Nat) : Option Vertex := d.vertices.lookup v

def contains (d : Diagram) (v : Nat) : Bool := (d.vertex? v).isSome

def edgeKind? (d : Diagram) (a b : Nat) : Option EdgeKind :=
  (d.edges.find? (·.joins a b)).map (·.kind)

def connected (d : Diagram) (a b : Nat) : Bool := (d.edgeKind? a b).isSome

def incident (d : Diagram) (v : Nat) : List (Nat × EdgeKind) :=
  d.edges.filterMap fun e => (e.other? v).map fun w => (w, e.kind)

def neighbors (d : Diagram) (v : Nat) : List Nat := d.edges.filterMap (·.other? v)

def degree (d : Diagram) (v : Nat) : Nat := (d.neighbors v).length

def kind (d : Diagram) (v : Nat) : Except DiagramError VertexKind :=
  match d.vertex? v with
  | some x => .ok x.kind
  | none => .error (.vertexNotFound v)

def countKind (d : Diagram) (kind : VertexKind) : Nat :=
  d.vertices.countP fun entry => entry.2.kind == kind

def marked (d : Diagram) (marker : Marker) : List Nat :=
  (d.vertices.filter fun entry => entry.2.marker == some marker).map (·.1)

-- the greater of the two; a number that is not one never wins, and of two equals the later does
def later (acc x : Float) : Float := if x.isNaN || acc > x then acc else x

def depth (d : Diagram) : Float := d.vertices.foldl (fun acc entry => later acc entry.2.row) 0

def qubitCount (d : Diagram) : Float :=
  d.vertices.foldl (fun acc entry => later acc (entry.2.qubit + 1)) 0

def fresh (d : Diagram) : Nat := d.freed.headD d.next

def insertVertex (v : Nat) (x : Vertex) : List (Nat × Vertex) → List (Nat × Vertex)
  | [] => [(v, x)]
  | entry :: rest =>
    if v < entry.1 then (v, x) :: entry :: rest else entry :: insertVertex v x rest

def insertEdge (e : Edge) : List Edge → List Edge
  | [] => [e]
  | f :: rest => if e.before f then e :: f :: rest else f :: insertEdge e rest

def add (d : Diagram) (x : Vertex) : Diagram :=
  { d with
    vertices := insertVertex d.fresh x d.vertices
    freed := d.freed.tail
    next := if d.freed.isEmpty then d.next + 1 else d.next }

def set (d : Diagram) (v : Nat) (x : Vertex) : Diagram :=
  { d with vertices := d.vertices.map fun entry => if entry.1 = v then (v, x) else entry }

def drop (d : Diagram) (v : Nat) : Diagram :=
  if d.contains v then
    { d with
      vertices := d.vertices.filter fun entry => entry.1 != v
      edges := d.edges.filter fun e => !e.touches v
      freed := v :: d.freed }
  else d

def remove (d : Diagram) (v : Nat) : Except DiagramError (Vertex × Diagram) :=
  match d.vertex? v with
  | none => .error (.vertexNotFound v)
  | some x =>
    .ok (x, { d.drop v with inputs := d.inputs.filter (· != v), outputs := d.outputs.filter (· != v) })

def link (d : Diagram) (a b : Nat) (kind : EdgeKind) : Diagram :=
  { d with edges := insertEdge (.between a b kind) d.edges }

def addEdge (d : Diagram) (a b : Nat) (kind : EdgeKind) : Except DiagramError Diagram :=
  if !d.contains a then .error (.vertexNotFound a)
  else if !d.contains b then .error (.vertexNotFound b)
  else if a = b then .error (.selfLoop a)
  else if d.connected a b then .error (.parallelEdge a b)
  else .ok (d.link a b kind)

def removeEdge (d : Diagram) (a b : Nat) : Option EdgeKind × Diagram :=
  (d.edgeKind? a b, { d with edges := d.edges.filter fun e => !e.joins a b })

def mulScalar (d : Diagram) (s : Scalar) : Except Fault Diagram := do
  let scalar ← d.scalar.mul s
  pure { d with scalar }

def addWire (d : Diagram) (q : Nat) : Diagram :=
  let i := d.fresh
  let d := d.add (Vertex.boundary.placed q.toFloat 0)
  let o := d.fresh
  let d := d.add (Vertex.boundary.placed q.toFloat 1)
  let d := d.link i o .simple
  { d with inputs := d.inputs ++ [i], outputs := d.outputs ++ [o] }

def identity (n : Nat) : Diagram := (List.range n).foldl addWire empty

end Diagram

structure Interrupted where
  cause : DiagramError
  left : Diagram

end ToffoliBench

import ToffoliBench.Diagram.Basic

namespace ToffoliBench.Diagram

abbrev Renaming := List (Nat × Nat)

def copyVertices (qubits rows : Float) (d : Diagram) : List (Nat × Vertex) → Diagram × Renaming
  | [] => (d, [])
  | (v, x) :: rest =>
    let w := d.fresh
    let (d, names) := copyVertices qubits rows (d.add (x.shifted qubits rows)) rest
    (d, (v, w) :: names)

def rename (names : Renaming) (v : Nat) : Nat := (names.lookup v).getD v

def copyEdges (names : Renaming) (d : Diagram) (edges : List Edge) : Diagram :=
  edges.foldl (fun d e => d.link (rename names e.low) (rename names e.high) e.kind) d

-- Adds a copy of `other`, moved on the drawing. Scalars and boundary lists are left alone.
def append (d other : Diagram) (qubits rows : Float) : Diagram × Renaming :=
  let (copied, names) := d.copyVertices qubits rows other.vertices
  (copied.copyEdges names other.edges, names)

def renamed (names : Renaming) (v : Nat) : Except Fault Nat :=
  match names.lookup v with
  | some w => .ok w
  | none => .error .unmappedVertex

def soleNeighbor (d : Diagram) (b : Nat) : Except DiagramError (Nat × EdgeKind) :=
  match d.incident b with
  | [single] => .ok single
  | _ => .error (.danglingBoundary b)

def fusePair (d : Diagram) (o i : Nat) : Except Interrupted Diagram := do
  let (a, k) ← (d.soleNeighbor o).mapError (Interrupted.mk · d)
  let (b, l) ← (d.soleNeighbor i).mapError (Interrupted.mk · d)
  let opened := (d.drop o).drop i
  (opened.addEdge a b (k.merge l)).mapError (Interrupted.mk · opened)

def fusePairs (names : Renaming) (d : Diagram) : List (Nat × Nat) → Except Interrupted Diagram
  | [] => .ok d
  | (o, i) :: rest => do
    let i ← (renamed names i).mapError fun f => Interrupted.mk (.fault f) d
    let d ← d.fusePair o i
    fusePairs names d rest

-- `other` after `d`: the inputs of `other` are plugged into the outputs of `d`, in order.
def compose (d other : Diagram) : Except Interrupted Diagram :=
  if d.outputs.length ≠ other.inputs.length then
    .error ⟨.arityMismatch d.outputs.length other.inputs.length, d⟩
  else do
    let (appended, names) := d.append other 0 d.depth
    let pairs := d.outputs.zip other.inputs
    let fused ← fusePairs names { appended with outputs := [] } pairs
    let finished : Except Fault Diagram := do
      let outputs ← other.outputs.mapM (renamed names)
      mulScalar { fused with outputs } other.scalar
    finished.mapError fun f => ⟨.fault f, fused⟩

def tensor (d other : Diagram) : Except Fault Diagram := do
  let (appended, names) := d.append other d.qubitCount 0
  let inputs ← other.inputs.mapM (renamed names)
  let outputs ← other.outputs.mapM (renamed names)
  mulScalar { appended with inputs := d.inputs ++ inputs, outputs := d.outputs ++ outputs } other.scalar

end ToffoliBench.Diagram

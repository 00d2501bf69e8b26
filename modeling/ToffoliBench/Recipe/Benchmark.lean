import ToffoliBench.Circuit.Builder
import ToffoliBench.Diagram.Plug
import ToffoliBench.Diagram.Star
import ToffoliBench.Random.Subset
import ToffoliBench.Recipe.Basic

namespace ToffoliBench

-- Draws that may be refused.
abbrev CircuitDraw (α : Type) := ExceptT CircuitError Draw α

namespace Recipe

def pick (pool : List Nat) (gate : GateKind) (use : PoolUse) : CircuitDraw Nat := do
  match ← Draw.choose? pool with
  | some q => pure q
  | none => throw (.poolTooSmall gate use 1 0)

def randomNot (r : Recipe) : CircuitDraw Column := do
  let q ← pick r.notPool .not .not
  pure (.not q)

def randomCnot (r : Recipe) : CircuitDraw Column := do
  let control ← pick r.cnotPool .cnot .z
  let target ← pick (r.cnotPool.filter (· != control)) .cnot .x
  pure (.cnot control target)

def randomToffoli (r : Recipe) : CircuitDraw Column := do
  let target ← pick r.targetRange.toList .toffoli .target
  let pool := r.controlPool target
  if pool.length < 2 then throw (.poolTooSmall .toffoli .control 2 pool.length)
  else
    let count ← Draw.between .w64 2 pool.length
    let controls ← Draw.subset pool count
    pure (.sortedToffoli controls target)

def randomColumn (r : Recipe) : GateKind → CircuitDraw Column
  | .not => r.randomNot
  | .cnot => r.randomCnot
  | .toffoli => r.randomToffoli

def randomColumns (r : Recipe) (s : Sequence) : List GateKind → CircuitDraw Sequence
  | [] => pure s
  | kind :: rest => do
    let column ← r.randomColumn kind
    let s ← s.push column
    randomColumns r s rest

def kinds (r : Recipe) : List GateKind :=
  List.replicate r.nots .not ++ List.replicate r.cnots .cnot ++ List.replicate r.toffolis .toffoli

def generateFrom (r : Recipe) (source : Source) : Except CircuitError Sequence := do
  r.validate
  let draws : CircuitDraw Sequence := do
    let shuffled ← Draw.shuffle r.kinds
    r.randomColumns { qubits := r.qubits } shuffled
  (draws.run source).1

def generate (r : Recipe) (entropy : Nat) : Except CircuitError Sequence :=
  r.generateFrom (.ofSeed (r.seed.getD entropy).toUInt64)

end Recipe

structure BenchmarkCircuit where
  sequence : Sequence
  diagram : Diagram
  -- how many gadgets were resolved
  resolved : Nat

namespace Recipe

def close (r : Recipe) (d : Diagram) : Except DiagramError (Nat × Diagram) := do
  let d ← (d.plugInputs r.projection).mapError (·.cause)
  let d ← (d.plugOutputs r.projection).mapError (·.cause)
  d.resolveMarkers.mapError (·.cause)

def benchmark (r : Recipe) (entropy : Nat) : Except CircuitError BenchmarkCircuit := do
  let sequence ← r.generate entropy
  let built ← sequence.diagram
  let (resolved, diagram) ← (r.close built).mapError .diagram
  pure { sequence, diagram, resolved }

end Recipe

end ToffoliBench

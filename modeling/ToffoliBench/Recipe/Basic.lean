import ToffoliBench.Circuit.Error
import ToffoliBench.Diagram.Vertex

namespace ToffoliBench

structure QubitRange where
  start : Nat
  stop : Nat
deriving DecidableEq, Repr, Inhabited

namespace QubitRange

def contains (r : QubitRange) (q : Nat) : Bool := decide (r.start ≤ q) && decide (q < r.stop)

def toList (r : QubitRange) : List Nat := List.range' r.start (r.stop - r.start)

end QubitRange

structure Recipe where
  qubits : Nat
  nots : Nat
  cnots : Nat
  toffolis : Nat
  targetRange : QubitRange
  allowNotInTargetRange : Bool := false
  allowCnotInTargetRange : Bool := false
  allowControlInTargetRange : Bool := false
  -- without a seed the circuit is drawn from the entropy at hand
  seed : Option Nat := none
deriving DecidableEq, Repr, Inhabited

namespace Recipe

def forBenchmark (qubits nots cnots toffolis : Nat) (fraction : Float) (seed : Option Nat) : Recipe :=
  let reserved := (fraction * qubits.toUInt64.toFloat).floor.toUInt64.toNat
  { qubits, nots, cnots, toffolis, seed, targetRange := ⟨qubits - reserved, qubits⟩ }

def register (r : Recipe) : List Nat := List.range r.qubits

def outside (r : Recipe) : List Nat := r.register.filter fun q => !r.targetRange.contains q

def notPool (r : Recipe) : List Nat := if r.allowNotInTargetRange then r.register else r.outside

def cnotPool (r : Recipe) : List Nat := if r.allowCnotInTargetRange then r.register else r.outside

def controlPool (r : Recipe) (target : Nat) : List Nat :=
  if r.allowControlInTargetRange then r.register.filter (· != target) else r.outside

-- All targets leave control pools of one size; it is taken at the first.
def controlsLeft (r : Recipe) : Nat :=
  match r.targetRange.toList with
  | [] => 0
  | t :: _ => (r.controlPool t).length

def checkPool (gate : GateKind) (use : PoolUse) (needed available : Nat) : Except CircuitError Unit :=
  if available < needed then .error (.poolTooSmall gate use needed available) else .ok ()

def validate (r : Recipe) : Except CircuitError Unit := do
  if r.targetRange.stop < r.targetRange.start ∨ r.qubits < r.targetRange.stop then
    .error (.invalidTargetRange r.targetRange.start r.targetRange.stop r.qubits)
  else
    if 0 < r.nots then checkPool .not .not 1 r.notPool.length
    if 0 < r.cnots then checkPool .cnot .cnot 2 r.cnotPool.length
    if 0 < r.toffolis then
      checkPool .toffoli .target 1 (r.targetRange.stop - r.targetRange.start)
      checkPool .toffoli .control 2 r.controlsLeft

def projection (r : Recipe) : List BasisState :=
  r.register.map fun q => if r.targetRange.contains q then .zero else .plus

end Recipe

end ToffoliBench

import ToffoliBench.Diagram.Error

namespace ToffoliBench

inductive GateKind where
  | not
  | cnot
  | toffoli
deriving DecidableEq, Repr, Inhabited

def GateKind.text : GateKind → String
  | .not => "NOT"
  | .cnot => "CNOT"
  | .toffoli => "Toffoli"

inductive PoolUse where
  | not
  | cnot
  | z
  | x
  | target
  | control
deriving DecidableEq, Repr, Inhabited

def PoolUse.text : PoolUse → String
  | .not => "NOT"
  | .cnot => "CNOT"
  | .z => "Z"
  | .x => "X"
  | .target => "target"
  | .control => "control"

inductive ColumnFlaw where
  | notOneGate
  | cnotCoincides (qubit : Nat)
  | fewControls (count : Nat)
  | badControl (qubit : Nat)
deriving DecidableEq, Repr, Inhabited

def ColumnFlaw.message : ColumnFlaw → String
  | .notOneGate => "roles do not describe exactly one gate"
  | .cnotCoincides q => s!"CNOT control and target coincide on qubit {q}"
  | .fewControls n => s!"Toffoli needs at least 2 controls, got {n}"
  | .badControl q => s!"Toffoli control {q} repeated or equal to target"

inductive CircuitError where
  | poolTooSmall (gate : GateKind) (use : PoolUse) (needed available : Nat)
  | invalidTargetRange (start stop qubits : Nat)
  | qubitOutOfRange (qubit qubits : Nat)
  | invalidColumn (flaw : ColumnFlaw)
  | diagram (e : DiagramError)
deriving DecidableEq, Repr, Inhabited

def CircuitError.message : CircuitError → String
  | .poolTooSmall gate use needed available =>
    s!"Cannot place {gate.text}: need {needed} eligible {use.text} qubit(s), {available} available"
  | .invalidTargetRange start stop qubits => s!"Target range {start}..{stop} does not fit in {qubits} qubits"
  | .qubitOutOfRange qubit qubits => s!"Qubit {qubit} out of range for {qubits} qubits"
  | .invalidColumn flaw => s!"Invalid gate column: {flaw.message}"
  | .diagram e => s!"Diagram error: {e.message}"

end ToffoliBench

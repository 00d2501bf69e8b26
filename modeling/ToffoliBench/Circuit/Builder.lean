import ToffoliBench.Circuit.Fragment
import ToffoliBench.Circuit.Sequence

namespace ToffoliBench

structure Builder where
  qubits : Nat
  diagram : Diagram

namespace Builder

def start (qubits : Nat) : Builder := ⟨qubits, .identity qubits⟩

structure Refused where
  cause : CircuitError
  left : Builder

def apply (b : Builder) (column : Column) : Except Refused Builder := do
  let fragment ← (Fragment.ofColumn b.qubits column).mapError (Refused.mk · b)
  match b.diagram.compose fragment with
  | .ok diagram => pure { b with diagram }
  | .error stop => .error ⟨.diagram stop.cause, { b with diagram := stop.left }⟩

def not (b : Builder) (qubit : Nat) : Except Refused Builder := b.apply (.not qubit)

def cnot (b : Builder) (control target : Nat) : Except Refused Builder := b.apply (.cnot control target)

def toffoli (b : Builder) (controls : List Nat) (target : Nat) : Except Refused Builder :=
  b.apply (.sortedToffoli controls target)

def applyAll (b : Builder) : List Column → Except Refused Builder
  | [] => .ok b
  | column :: rest => do
    let b ← b.apply column
    applyAll b rest

end Builder

-- The diagram of a sequence, with its gadgets not yet resolved.
def Sequence.diagram (s : Sequence) : Except CircuitError Diagram :=
  match (Builder.start s.qubits).applyAll s.columns with
  | .ok b => .ok b.diagram
  | .error refused => .error refused.cause

end ToffoliBench

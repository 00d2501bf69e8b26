import ToffoliBench.Task.Basic

namespace ToffoliBench

namespace Task

def maxSeed : Nat := 100000000

-- The first size varies slowest and the samples fastest, and the seeds are drawn in this order.
def sizes (s : Settings) : List (Nat → Task) :=
  s.qubits.flatMap fun qubits => s.nots.flatMap fun nots => s.cnots.flatMap fun cnots =>
    s.toffolis.flatMap fun toffolis => List.replicate s.samples fun seed => ⟨qubits, nots, cnots, toffolis, seed⟩

def seeded : List (Nat → Task) → Draw (List Task)
  | [] => pure []
  | size :: rest => do
    let seed ← Draw.between .w64 1 maxSeed
    let tasks ← seeded rest
    pure (size seed :: tasks)

def taskBytes : Nat := 40

def grid (s : Settings) (entropy : Nat) : Except Fault (List Task) := do
  let count ← s.taskCount
  if Range.addressLimit < count * taskBytes then .error .overflow
  else .ok ((seeded (sizes s)).run (.ofSeed (s.masterSeed.getD entropy).toUInt64)).1

def size (t : Task) : List Nat := [t.qubits, t.nots, t.cnots, t.toffolis]

-- Checks that the circuits of all tasks can be generated, one task of each size.
def check (s : Settings) (seen : List (List Nat)) : List Task → Except CircuitError Unit
  | [] => .ok ()
  | t :: rest => do
    if seen.contains t.size then check s seen rest
    else
      (t.recipe s).validate
      check s (t.size :: seen) rest

end Task

end ToffoliBench

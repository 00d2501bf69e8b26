import ToffoliBench.Files.Path
import ToffoliBench.Recipe.Benchmark
import ToffoliBench.Settings.Basic

namespace ToffoliBench

structure Task where
  qubits : Nat
  nots : Nat
  cnots : Nat
  toffolis : Nat
  seed : Nat
deriving DecidableEq, Repr, Inhabited

namespace Task

def stem (t : Task) : String :=
  Text.joined "_" ([t.qubits, t.nots, t.cnots, t.toffolis, t.seed].map fun n => String.ofList (Text.ofNat n))

def fileName (t : Task) : String := t.stem ++ ".txt"

def fileIn (t : Task) (dir : String) : String := Files.join dir t.fileName

def recipe (t : Task) (s : Settings) : Recipe :=
  { Recipe.forBenchmark t.qubits t.nots t.cnots t.toffolis s.targetFraction (some t.seed) with
    allowNotInTargetRange := s.allowNotInTargetRange
    allowCnotInTargetRange := s.allowCnotInTargetRange
    allowControlInTargetRange := s.allowControlInTargetRange }

-- a task always has a seed, so no entropy is needed
def circuit (t : Task) (s : Settings) : Except CircuitError BenchmarkCircuit := (t.recipe s).benchmark 0

end Task

end ToffoliBench

import ToffoliBench.Decimal.Shortest
import ToffoliBench.Fault
import ToffoliBench.Files.Basic

namespace ToffoliBench

inductive TimeoutPolicy where
  | symmetric
  | secondOnly
deriving DecidableEq, Repr, Inhabited

structure Settings where
  qubits : List Nat := [20, 50, 80]
  nots : List Nat := [0, 20, 80, 240]
  cnots : List Nat := [0, 20, 80, 240]
  toffolis : List Nat := [20, 40, 60, 80]
  samples : Nat := 50
  workers : Nat := 12
  timeoutSeconds : Nat := 180
  timeoutPolicy : TimeoutPolicy := .symmetric
  solver : String := "./target/release/main"
  inputDir : String := "benchmark_dot_repr"
  outputDir : String := "benchmark_output"
  targetFraction : Float := 0.15
  allowNotInTargetRange : Bool := false
  allowCnotInTargetRange : Bool := false
  allowControlInTargetRange : Bool := false
  -- without a seed the seeds of the tasks are drawn from the entropy at hand
  masterSeed : Option Nat := none
deriving BEq, Repr, Inhabited

inductive SettingsFlaw where
  | notPositive (field : String)
  | emptyGrid (field : String)
  | badFraction (x : Float)
deriving BEq, Repr

def SettingsFlaw.message : SettingsFlaw → String
  | .notPositive field => s!"{field} must be greater than 0"
  | .emptyGrid field => s!"{field} grid must not be empty"
  | .badFraction x => s!"target_fraction must lie in (0, 1), got {Decimal.text x}"

inductive SettingsError where
  | unreadable (path : String) (e : FileError)
  | malformed
  | invalid (flaw : SettingsFlaw)
deriving BEq, Repr

def SettingsError.message : SettingsError → String
  | .unreadable path e => s!"IO error: {path}: {e.message}"
  | .malformed => "Parse error: not a mapping of settings"
  | .invalid flaw => s!"Validation error: {flaw.message}"

namespace Settings

def positive (field : String) (n : Nat) : Except SettingsFlaw Unit :=
  if n = 0 then .error (.notPositive field) else .ok ()

def nonempty (field : String) (grid : List Nat) : Except SettingsFlaw Unit :=
  if grid = [] then .error (.emptyGrid field) else .ok ()

def flaw? (s : Settings) : Except SettingsFlaw Unit := do
  positive "workers" s.workers
  positive "timeout_secs" s.timeoutSeconds
  positive "samples" s.samples
  nonempty "qubits" s.qubits
  nonempty "nots" s.nots
  nonempty "cnots" s.cnots
  nonempty "toffolis" s.toffolis
  if s.targetFraction > 0 && s.targetFraction < 1 then .ok () else .error (.badFraction s.targetFraction)

def validate (s : Settings) : Except SettingsError Unit := s.flaw?.mapError .invalid

-- The size of the grid. Each partial product has to fit a word.
def taskCount (s : Settings) : Except Fault Nat := do
  let n ← within Range.word (s.qubits.length * s.nots.length)
  let n ← within Range.word (n * s.cnots.length)
  let n ← within Range.word (n * s.toffolis.length)
  within Range.word (n * s.samples)

end Settings

end ToffoliBench

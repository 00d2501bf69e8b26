import ToffoliBench.Settings.Reading

namespace ToffoliBench.Settings

abbrev Environment := String → Option String

-- A number in a variable; one that is not a number is passed over.
def wordOf (vars : Environment) (name : String) (old : Nat) : Nat :=
  ((vars name).bind fun text => Text.natUpTo? Range.maxWord text.toList).getD old

def withVariables (s : Settings) (vars : Environment) : Settings :=
  { s with
    solver := (vars "ZXBENCH_SOLVER").getD s.solver
    timeoutSeconds := wordOf vars "ZXBENCH_TIMEOUT_SECS" s.timeoutSeconds
    workers := wordOf vars "ZXBENCH_WORKERS" s.workers
    inputDir := (vars "ZXBENCH_INPUT_DIR").getD s.inputDir
    outputDir := (vars "ZXBENCH_OUTPUT_DIR").getD s.outputDir
    masterSeed :=
      match (vars "ZXBENCH_MASTER_SEED").bind fun text => Text.natUpTo? Range.maxWord text.toList with
      | some seed => some seed
      | none => s.masterSeed }

structure Overrides where
  solver : Option String := none
  workers : Option Nat := none
  timeoutSeconds : Option Nat := none
  samples : Option Nat := none
  masterSeed : Option Nat := none
  secondOnly : Bool := false
deriving DecidableEq, Repr, Inhabited

def override (s : Settings) (o : Overrides) : Settings :=
  { s with
    solver := o.solver.getD s.solver
    workers := o.workers.getD s.workers
    timeoutSeconds := o.timeoutSeconds.getD s.timeoutSeconds
    samples := o.samples.getD s.samples
    masterSeed := o.masterSeed.or s.masterSeed
    timeoutPolicy := if o.secondOnly then .secondOnly else s.timeoutPolicy }

-- The first layer. What a file describes has to be valid already.
def base (fs : Files) : Option String → Except SettingsError Settings
  | none => .ok {}
  | some path =>
    match fs.read path with
    | .error e => .error (.unreadable path e)
    | .ok source => ofYaml source

def load (fs : Files) (vars : Environment) (path : Option String) : Except SettingsError Settings := do
  let s ← base fs path
  let s := s.withVariables vars
  s.validate
  pure s

end ToffoliBench.Settings

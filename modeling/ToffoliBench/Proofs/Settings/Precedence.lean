import Mathlib
import ToffoliBench.Command.Basic
import ToffoliBench.Proofs.Settings.Validity

namespace ToffoliBench

namespace Settings
open Outcome

variable {file s : Settings} {vars : Environment} {o : Overrides} {fs : Files} {config : Option String}

-- The number that a variable gives, if it is one.
def number? (vars : Environment) (name : String) : Option Nat :=
  (vars name).bind fun text => Text.natUpTo? Range.maxWord text.toList

-- Each field as the command line has it, else the environment, else the file.
def effective (file : Settings) (vars : Environment) (o : Overrides) : Settings :=
  { file with
    solver := (o.solver.or (vars "ZXBENCH_SOLVER")).getD file.solver
    workers := (o.workers.or (number? vars "ZXBENCH_WORKERS")).getD file.workers
    timeoutSeconds := (o.timeoutSeconds.or (number? vars "ZXBENCH_TIMEOUT_SECS")).getD file.timeoutSeconds
    samples := o.samples.getD file.samples
    masterSeed := (o.masterSeed.or (number? vars "ZXBENCH_MASTER_SEED")).or file.masterSeed
    inputDir := (vars "ZXBENCH_INPUT_DIR").getD file.inputDir
    outputDir := (vars "ZXBENCH_OUTPUT_DIR").getD file.outputDir
    timeoutPolicy := if o.secondOnly then .secondOnly else file.timeoutPolicy }

theorem withVariables_seed : (file.withVariables vars).masterSeed = (number? vars "ZXBENCH_MASTER_SEED").or file.masterSeed := by
  rw [withVariables, number?]
  dsimp only
  split
  · rename_i seed given
    rw [given, Option.some_or]
  · rename_i missing
    rw [missing, Option.none_or]

theorem override_variables : (file.withVariables vars).override o = file.effective vars o := by
  rw [override, withVariables_seed]
  simp only [withVariables, effective, wordOf, number?, Option.getD_or, Option.or_assoc]

def described? (fs : Files) : Option String → Option Settings
  | none => some {}
  | some path => (fs.read path).toOption.bind decode?

theorem described?_read {path source : String} (found : fs.read path = .ok source) : described? fs (some path) = decode? source := by
  rw [described?, found]
  rfl

theorem default_valid : ({} : Settings).Valid := validate_ok.mp rfl

theorem base_ok_iff (described : described? fs config = some file) : base fs config = .ok s ↔ s = file ∧ file.Valid := by
  cases config with
  | none =>
    obtain rfl := Option.some.inj described
    rw [base, Except.ok.injEq]
    exact ⟨fun same => ⟨same.symm, default_valid⟩, fun same => same.1.symm⟩
  | some path =>
    rw [base]
    cases found : fs.read path with
    | error e => simp [described?, found, Except.toOption] at described
    | ok source =>
      dsimp only
      rw [ofYaml, ← described?_read found, described]
      dsimp only
      rw [check_ok, validate_ok, pure_ok, and_comm, eq_comm]

theorem load_ok_iff (described : described? fs config = some file) :
    load fs vars config = .ok s ↔ s = file.withVariables vars ∧ file.Valid ∧ (file.withVariables vars).Valid := by
  rw [load, bind_ok]
  simp only [base_ok_iff described, check_ok, validate_ok, pure_ok]
  constructor
  · rintro ⟨_, ⟨rfl, first⟩, second, rfl⟩
    exact ⟨rfl, first, second⟩
  · rintro ⟨rfl, first, second⟩
    exact ⟨file, ⟨rfl, first⟩, second, rfl⟩

-- No number of a lower layer is zero, whether it is replaced or not.
structure PositiveBelow (file : Settings) (vars : Environment) : Prop where
  samples : file.samples ≠ 0
  workers : file.workers ≠ 0
  timeout : file.timeoutSeconds ≠ 0
  workersVariable : number? vars "ZXBENCH_WORKERS" ≠ some 0
  timeoutVariable : number? vars "ZXBENCH_TIMEOUT_SECS" ≠ some 0

theorem wordOf_positive {name : String} {old : Nat} (positive : old ≠ 0) : wordOf vars name old ≠ 0 ↔ number? vars name ≠ some 0 := by
  change (number? vars name).getD old ≠ 0 ↔ _
  cases number? vars name <;> simp [positive]

theorem Valid.below (valid : (file.effective vars o).Valid) :
    file.Valid ∧ (file.withVariables vars).Valid ↔ file.PositiveBelow vars := by
  obtain ⟨_, _, _, qubits, nots, cnots, toffolis, fraction⟩ := valid
  constructor
  · intro ⟨first, second⟩
    exact ⟨first.samples, first.workers, first.timeout, (wordOf_positive first.workers).mp second.workers,
      (wordOf_positive first.timeout).mp second.timeout⟩
  · intro ⟨samples, workers, timeout, workersVariable, timeoutVariable⟩
    exact ⟨⟨workers, timeout, samples, qubits, nots, cnots, toffolis, fraction⟩,
      ⟨(wordOf_positive workers).mpr workersVariable, (wordOf_positive timeout).mpr timeoutVariable, samples, qubits, nots, cnots, toffolis, fraction⟩⟩

end Settings

namespace Command
open Outcome Settings

-- A run has exactly the settings that the layers come to, or none. It has them if they are valid and
-- there was no zero among the numbers of the lower layers.
theorem settings_ok_iff (w : World) (config : Option String) (o : Overrides) (file : Settings)
    (described : described? w.files config = some file) (s : Settings) :
    settings w config o = .ok s ↔ s = file.effective w.environment o ∧ s.validate = .ok () ∧ file.PositiveBelow w.environment := by
  rw [settings, bind_ok]
  simp only [mapError_ok, load_ok_iff described, check_ok, pure_ok]
  constructor
  · rintro ⟨_, ⟨rfl, below⟩, valid, rfl⟩
    rw [override_variables] at valid ⊢
    exact ⟨rfl, valid, (validate_ok.mp valid).below.mp below⟩
  · rintro ⟨rfl, valid, positive⟩
    refine ⟨_, ⟨rfl, (validate_ok.mp valid).below.mpr positive⟩, ?_⟩
    rw [override_variables]
    exact ⟨valid, rfl⟩

def layered (source : String) (name value : String) : World where
  files := { entries := [(["bench.yaml"], .file source false)] }
  environment := fun asked => if asked = name then some value else none
  entropy := 0

theorem layered_described (source name value : String) :
    described? (layered source name value).files (some "bench.yaml") = decode? source := described?_read rfl

set_option maxRecDepth 20000 in
theorem settings_ok_iff_layered :
    settings (layered "workers: 4\n" "ZXBENCH_WORKERS" "3") (some "bench.yaml") { samples := some 2, secondOnly := true } =
      .ok { workers := 3, samples := 2, timeoutPolicy := .secondOnly } := by
  have document : Yaml.read "workers: 4\n" = some (some (.mapping [(.scalar .plain "workers", .scalar .plain "4")])) := by cbv
  have described : described? (layered "workers: 4\n" "ZXBENCH_WORKERS" "3").files (some "bench.yaml") = some { workers := 4 } := by
    rw [layered_described, decode?, document]
    rfl
  refine (settings_ok_iff _ _ _ _ described _).mpr ⟨rfl, rfl, ?_⟩
  constructor <;> decide

set_option maxRecDepth 20000 in
theorem zero_unreplaced :
    described? (layered "workers: 0\n" "ZXBENCH_WORKERS" "3").files (some "bench.yaml") = some { workers := 0 } ∧
    effective { workers := 0 } (layered "workers: 0\n" "ZXBENCH_WORKERS" "3").environment {} = { workers := 3 } ∧
    ({ workers := 3 } : Settings).validate = .ok () ∧
    settings (layered "workers: 0\n" "ZXBENCH_WORKERS" "3") (some "bench.yaml") {} =
      .error ["Failed to load configuration", "Validation error: workers must be greater than 0"] ∧
    effective {} (layered "" "ZXBENCH_WORKERS" "0").environment { workers := some 3 } = { workers := 3 } ∧
    settings (layered "" "ZXBENCH_WORKERS" "0") none { workers := some 3 } =
      .error ["Failed to load configuration", "Validation error: workers must be greater than 0"] := by
  have document : Yaml.read "workers: 0\n" = some (some (.mapping [(.scalar .plain "workers", .scalar .plain "0")])) := by cbv
  have decoded : decode? "workers: 0\n" = some { workers := 0 } := by
    rw [decode?, document]
    rfl
  have refused : base (layered "workers: 0\n" "ZXBENCH_WORKERS" "3").files (some "bench.yaml") =
      .error (.invalid (.notPositive "workers")) := by
    have found : (layered "workers: 0\n" "ZXBENCH_WORKERS" "3").files.read "bench.yaml" = .ok "workers: 0\n" := rfl
    rw [base, found]
    dsimp only
    rw [ofYaml, decoded]
    rfl
  refine ⟨(layered_described ..).trans decoded, rfl, rfl, ?_, rfl, ?_⟩
  · rw [settings, load, refused]
    rfl
  · rfl

end Command

end ToffoliBench

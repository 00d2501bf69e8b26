import ToffoliBench.Exchange.Reading
import ToffoliBench.Settings.Reading
import ToffoliBench.Solver.Outcome
import ToffoliBench.Task.Basic

namespace ToffoliBench

open Exchange

def TimeoutPolicy.ofJson? : Json → Option TimeoutPolicy :=
  choice? [("symmetric", .symmetric), ("second_only", .secondOnly)]

def Mode.ofJson? : Json → Option Mode := choice? [("WithSd", .withSd), ("WithoutSd", .withoutSd)]

def Task.ofJson? (j : Json) : Option Task := do
  let fields ← fields? ["qubits", "nots", "cnots", "toffolis", "seed"] j
  let qubits ← field? fields "qubits" word?
  let nots ← field? fields "nots" word?
  let cnots ← field? fields "cnots" word?
  let toffolis ← field? fields "toffolis" word?
  let seed ← field? fields "seed" word?
  pure ⟨qubits, nots, cnots, toffolis, seed⟩

def Task.toJson (t : Task) : Json :=
  .object
    [("qubits", .ofNat t.qubits), ("nots", .ofNat t.nots), ("cnots", .ofNat t.cnots),
      ("toffolis", .ofNat t.toffolis), ("seed", .ofNat t.seed)]

-- A span of time whose surplus nanoseconds are carried into the seconds.
def Duration.ofJson? (j : Json) : Option Duration := do
  let fields ← closedFields? ["secs", "nanos"] j
  let seconds ← field? fields "secs" word?
  let nanos ← field? fields "nanos" (nat? 4294967295)
  let carried := seconds + nanos / Duration.perSecond
  if Range.word carried then some ⟨carried, nanos % Duration.perSecond⟩ else none

def Duration.toJson (d : Duration) : Json :=
  .object [("secs", .ofNat d.seconds), ("nanos", .ofNat d.nanos)]

def Outcome.ofJson? : Json → Option Outcome
  | .object [("Completed", .object fields)] => do
    let stdout ← field? fields "stdout" text?
    let exitCode ← maybeField? fields "exit_code" (int? Range.signed32)
    let elapsed ← field? fields "elapsed" Duration.ofJson?
    pure (.completed stdout exitCode elapsed)
  | .object [("TimedOut", .object fields)] => (field? fields "limit" Duration.ofJson?).map .timedOut
  | .object [("Failed", .object fields)] => (field? fields "message" text?).map .failed
  | _ => none

def Outcome.toJson : Outcome → Json
  | .completed stdout exitCode elapsed =>
    .object
      [("Completed", .object
        [("stdout", .string stdout), ("exit_code", .ofOption .ofInt exitCode), ("elapsed", elapsed.toJson)])]
  | .timedOut limit => .object [("TimedOut", .object [("limit", limit.toJson)])]
  | .failed message => .object [("Failed", .object [("message", .string message)])]

namespace Settings

def replaced (fields : Fields) (name : String) (old : α) (item? : Json → Option α) : Option α :=
  match fields.lookup name with
  | none => some old
  | some j => item? j

-- Fields that are not written have their defaults; in an array these are the last ones.
def jsonFields? : Json → Option Fields
  | .array items => if items.length ≤ Settings.fields.length then some (Settings.fields.zip items) else none
  | .object fields => some fields
  | _ => none

def ofJson? (j : Json) : Option Settings := do
  let fields ← jsonFields? j
  let d : Settings := {}
  let qubits ← replaced fields "qubits" d.qubits (list? Exchange.word?)
  let nots ← replaced fields "nots" d.nots (list? Exchange.word?)
  let cnots ← replaced fields "cnots" d.cnots (list? Exchange.word?)
  let toffolis ← replaced fields "toffolis" d.toffolis (list? Exchange.word?)
  let samples ← replaced fields "samples" d.samples Exchange.word?
  let workers ← replaced fields "workers" d.workers Exchange.word?
  let timeoutSeconds ← replaced fields "timeout_secs" d.timeoutSeconds Exchange.word?
  let timeoutPolicy ← replaced fields "timeout_policy" d.timeoutPolicy TimeoutPolicy.ofJson?
  let solver ← replaced fields "solver" d.solver Exchange.text?
  let inputDir ← replaced fields "input_dir" d.inputDir Exchange.text?
  let outputDir ← replaced fields "output_dir" d.outputDir Exchange.text?
  let targetFraction ← replaced fields "target_fraction" d.targetFraction Exchange.float?
  let allowNotInTargetRange ← replaced fields "allow_not_in_target_range" false Exchange.flag?
  let allowCnotInTargetRange ← replaced fields "allow_cnot_in_target_range" false Exchange.flag?
  let allowControlInTargetRange ← replaced fields "allow_ctrl_in_target_range" false Exchange.flag?
  let masterSeed ← replaced fields "master_seed" none (maybe? Exchange.word?)
  pure
    { qubits, nots, cnots, toffolis, samples, workers, timeoutSeconds, timeoutPolicy, solver,
      inputDir, outputDir, targetFraction, allowNotInTargetRange, allowCnotInTargetRange,
      allowControlInTargetRange, masterSeed }

end Settings

end ToffoliBench

import ToffoliBench.Settings.Basic
import ToffoliBench.Yaml.Writing

namespace ToffoliBench

def TimeoutPolicy.name : TimeoutPolicy → String
  | .symmetric => "symmetric"
  | .secondOnly => "second_only"

namespace Settings

def line (field value : String) : String := field ++ ": " ++ value ++ "\n"

def numberText (n : Nat) : String := String.ofList (Text.ofNat n)

def flagText (b : Bool) : String := if b then "true" else "false"

def listLines (field : String) (ns : List Nat) : String :=
  if ns = [] then line field "[]"
  else field ++ ":\n" ++ String.join (ns.map fun n => "- " ++ numberText n ++ "\n")

-- a block may end its last line itself
def textLine (field value : String) : String :=
  let cs := Yaml.textChars value
  let written := field ++ ": " ++ String.ofList cs
  if cs.getLast?.any Yaml.isBreak then written else written ++ "\n"

def toYaml (s : Settings) : String :=
  listLines "qubits" s.qubits ++ listLines "nots" s.nots ++ listLines "cnots" s.cnots ++
  listLines "toffolis" s.toffolis ++ line "samples" (numberText s.samples) ++
  line "workers" (numberText s.workers) ++ line "timeout_secs" (numberText s.timeoutSeconds) ++
  line "timeout_policy" s.timeoutPolicy.name ++ textLine "solver" s.solver ++
  textLine "input_dir" s.inputDir ++ textLine "output_dir" s.outputDir ++
  line "target_fraction" (Decimal.marked s.targetFraction) ++
  line "allow_not_in_target_range" (flagText s.allowNotInTargetRange) ++
  line "allow_cnot_in_target_range" (flagText s.allowCnotInTargetRange) ++
  line "allow_ctrl_in_target_range" (flagText s.allowControlInTargetRange) ++
  line "master_seed" ((s.masterSeed.map numberText).getD "null")

end Settings

end ToffoliBench

import ToffoliBench.Settings.Basic
import ToffoliBench.Yaml.Reading

namespace ToffoliBench.Settings

open Yaml

-- The text that may be a number or truth value: a plain one, or a literal block that carries the tag for
-- it.
def plain? (tag : String) : Node → Option String
  | .scalar .plain text => some text
  | .tagged t (.scalar .literal text) => if t = tag then some text else none
  | .tagged _ (.scalar .plain text) => some text
  | _ => none

def text? (node : Node) : Option String :=
  match node.untagged with
  | .scalar _ text => some text
  | _ => none

def integerTag : String := "tag:yaml.org,2002:int"

def word? (node : Node) : Option Nat := do
  let text ← plain? integerTag node
  nat? text

-- A list of numbers; nothing at all is an empty list.
def words? (node : Node) : Option (List Nat) :=
  match node.untagged with
  | .sequence items => items.mapM word?
  | .scalar .plain "" => some []
  | _ => none

def fraction? (node : Node) : Option Float := do
  let text ← plain? "tag:yaml.org,2002:float" node
  float? text

def flag? (node : Node) : Option Bool := do
  let text ← plain? "tag:yaml.org,2002:bool" node
  bool? text

def policyNamed? : String → Option TimeoutPolicy
  | "symmetric" => some .symmetric
  | "second_only" => some .secondOnly
  | _ => none

def isNothing (text : String) : Bool := text == "" || isNull text

def policy? : Node → Option TimeoutPolicy
  | .scalar _ text => policyNamed? text
  | .tagged tag (.scalar .plain text) => if isNothing text then policyNamed? (bare tag) else none
  | _ => none
where
  bare (tag : String) : String :=
    match tag.toList with
    | '!' :: rest => String.ofList rest
    | _ => tag

-- No seed is written as nothing; under a tag, the tag has to be that of nothing.
def seed? (node : Node) : Option (Option Nat) :=
  match node with
  | .scalar .plain text => if isNothing text then some none else (nat? text).map some
  | .tagged "tag:yaml.org,2002:null" (.scalar .plain text) => if isNull text then some none else none
  | _ => (word? node).map some

def fields : List String :=
  ["qubits", "nots", "cnots", "toffolis", "samples", "workers", "timeout_secs", "timeout_policy",
    "solver", "input_dir", "output_dir", "target_fraction", "allow_not_in_target_range",
    "allow_cnot_in_target_range", "allow_ctrl_in_target_range", "master_seed"]

def assign (s : Settings) (field : String) (node : Node) : Option Settings :=
  match field with
  | "qubits" => (words? node).map fun v => { s with qubits := v }
  | "nots" => (words? node).map fun v => { s with nots := v }
  | "cnots" => (words? node).map fun v => { s with cnots := v }
  | "toffolis" => (words? node).map fun v => { s with toffolis := v }
  | "samples" => (word? node).map fun v => { s with samples := v }
  | "workers" => (word? node).map fun v => { s with workers := v }
  | "timeout_secs" => (word? node).map fun v => { s with timeoutSeconds := v }
  | "timeout_policy" => (policy? node).map fun v => { s with timeoutPolicy := v }
  | "solver" => (text? node).map fun v => { s with solver := v }
  | "input_dir" => (text? node).map fun v => { s with inputDir := v }
  | "output_dir" => (text? node).map fun v => { s with outputDir := v }
  | "target_fraction" => (fraction? node).map fun v => { s with targetFraction := v }
  | "allow_not_in_target_range" => (flag? node).map fun v => { s with allowNotInTargetRange := v }
  | "allow_cnot_in_target_range" => (flag? node).map fun v => { s with allowCnotInTargetRange := v }
  | "allow_ctrl_in_target_range" => (flag? node).map fun v => { s with allowControlInTargetRange := v }
  | "master_seed" => (seed? node).map fun v => { s with masterSeed := v }
  | _ => some s

def assignAll (s : Settings) (seen : List String) : List (Node × Node) → Option Settings
  | [] => some s
  | (key, value) :: rest => do
    let field ← text? key
    if seen.contains field then none
    else
      let s ← s.assign field value
      assignAll s (if fields.contains field then field :: seen else seen) rest

def ofNode? (node : Node) : Option Settings :=
  match node.untagged with
  | .mapping entries => assignAll {} [] entries
  | .scalar .plain "" => some {}
  | _ => none

def decode? (source : String) : Option Settings := do
  match ← Yaml.read source with
  | none => some {}
  | some node => ofNode? node

def ofYaml (source : String) : Except SettingsError Settings :=
  match decode? source with
  | none => .error .malformed
  | some s => do
    s.validate
    pure s

end ToffoliBench.Settings

import ToffoliBench.Circuit.Sequence
import ToffoliBench.Exchange.Reading
import ToffoliBench.Recipe.Basic

namespace ToffoliBench

open Exchange

def GateKind.names : List (String × GateKind) := [("Not", .not), ("Cnot", .cnot), ("Toffoli", .toffoli)]

def Role.names : List (String × Role) :=
  [("Not", .not), ("ZControl", .zControl), ("XControl", .xControl), ("Control", .control), ("Target", .target)]

def GateKind.ofJson? : Json → Option GateKind := choice? GateKind.names
def Role.ofJson? : Json → Option Role := choice? Role.names

-- Nothing is validated: a column may use qubits that its sequence does not have.
def Column.ofJson? : Json → Option Column
  | .object [("Not", .object fields)] => (field? fields "qubit" word?).map .not
  | .object [("Cnot", .object fields)] => do
    let control ← field? fields "control" word?
    let target ← field? fields "target" word?
    pure (.cnot control target)
  | .object [("Toffoli", .object fields)] => do
    let controls ← field? fields "controls" (list? word?)
    let target ← field? fields "target" word?
    pure (.toffoli controls target)
  | _ => none

def Sequence.ofJson? (j : Json) : Option Sequence := do
  let fields ← fields? ["qubits", "columns"] j
  let qubits ← field? fields "qubits" word?
  let columns ← field? fields "columns" (list? Column.ofJson?)
  pure { qubits, columns }

def QubitRange.ofJson? (j : Json) : Option QubitRange := do
  let fields ← closedFields? ["start", "end"] j
  let start ← field? fields "start" word?
  let stop ← field? fields "end" word?
  pure ⟨start, stop⟩

def Recipe.ofJson? (j : Json) : Option Recipe := do
  let fields ← fields?
    ["qubits", "nots", "cnots", "toffolis", "target_range", "allow_not_in_target_range",
      "allow_cnot_in_target_range", "allow_ctrl_in_target_range", "seed"] j
  let qubits ← field? fields "qubits" word?
  let nots ← field? fields "nots" word?
  let cnots ← field? fields "cnots" word?
  let toffolis ← field? fields "toffolis" word?
  let targetRange ← field? fields "target_range" QubitRange.ofJson?
  let allowNotInTargetRange ← field? fields "allow_not_in_target_range" flag?
  let allowCnotInTargetRange ← field? fields "allow_cnot_in_target_range" flag?
  let allowControlInTargetRange ← field? fields "allow_ctrl_in_target_range" flag?
  let seed ← maybeField? fields "seed" word?
  pure
    { qubits, nots, cnots, toffolis, targetRange, allowNotInTargetRange, allowCnotInTargetRange,
      allowControlInTargetRange, seed }

end ToffoliBench

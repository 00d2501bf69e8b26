import ToffoliBench.Circuit.Error

namespace ToffoliBench

inductive Column where
  | not (qubit : Nat)
  | cnot (control target : Nat)
  | toffoli (controls : List Nat) (target : Nat)
deriving DecidableEq, Repr, Inhabited

inductive Role where
  | not
  | zControl
  | xControl
  | control
  | target
deriving DecidableEq, Repr, Inhabited

def Role.tag : Role → String
  | .not => "NOT"
  | .zControl => "Z"
  | .xControl => "X"
  | .control => "ctrl"
  | .target => "targ"

namespace Column

def sortedToffoli (controls : List Nat) (target : Nat) : Column :=
  .toffoli (controls.mergeSort fun a b => a ≤ b) target

def kind : Column → GateKind
  | .not _ => .not
  | .cnot _ _ => .cnot
  | .toffoli _ _ => .toffoli

-- The roles that are given out, in order; a later one on the same qubit stands.
def assignments : Column → List (Nat × Role)
  | .not q => [(q, .not)]
  | .cnot c t => [(c, .zControl), (t, .xControl)]
  | .toffoli cs t => cs.map (fun c => (c, Role.control)) ++ [(t, .target)]

-- The role of every qubit; `none` is an idle one. Qubits outside the register are left out.
def roles (column : Column) (qubits : Nat) : List (Option Role) :=
  column.assignments.foldl (fun roles a => roles.set a.1 (some a.2)) (List.replicate qubits none)

def checkQubit (qubits q : Nat) : Except CircuitError Unit :=
  if q < qubits then .ok () else .error (.qubitOutOfRange q qubits)

def checkControls (qubits target : Nat) (before : List Nat) : List Nat → Except CircuitError Unit
  | [] => .ok ()
  | c :: rest => do
    checkQubit qubits c
    if c = target ∨ c ∈ before then .error (.invalidColumn (.badControl c))
    else checkControls qubits target (c :: before) rest

def validate (column : Column) (qubits : Nat) : Except CircuitError Unit :=
  match column with
  | .not q => checkQubit qubits q
  | .cnot c t => do
    checkQubit qubits c
    checkQubit qubits t
    if c = t then .error (.invalidColumn (.cnotCoincides c)) else pure ()
  | .toffoli cs t => do
    checkQubit qubits t
    if cs.length < 2 then .error (.invalidColumn (.fewControls cs.length))
    else checkControls qubits t [] cs

def holders (role : Role) (start : Nat) : List (Option Role) → List Nat
  | [] => []
  | r :: rest =>
    if r = some role then start :: holders role (start + 1) rest else holders role (start + 1) rest

def ofRoles (roles : List (Option Role)) : Except CircuitError Column := do
  let held := fun role => holders role 0 roles
  let column ←
    match held .not, held .zControl, held .xControl, held .target, held .control with
    | [q], [], [], [], [] => pure (.not q)
    | [], [c], [t], [], [] => pure (.cnot c t)
    | [], [], [], [t], cs => pure (.toffoli cs t)
    | _, _, _, _, _ => .error (.invalidColumn .notOneGate)
  column.validate roles.length
  pure column

end Column

end ToffoliBench

import ToffoliBench.Circuit.Column
import ToffoliBench.Diagram.Compose

namespace ToffoliBench

structure Line where
  qubit : Nat
  start : Nat
  stop : Nat
  spider : Option Nat
deriving DecidableEq, Repr

namespace Fragment

def addLine (d : Diagram) (length : Float) (q : Nat) (spider : Option Vertex) : Diagram × Line :=
  let start := d.fresh
  let d := d.add (Vertex.boundary.placed q.toFloat 0)
  let stop := d.fresh
  let d := d.add (Vertex.boundary.placed q.toFloat length)
  match spider with
  | none => (d.link start stop .simple, ⟨q, start, stop, none⟩)
  | some x =>
    let s := d.fresh
    let d := d.add (x.placed q.toFloat 1)
    ((d.link start s .simple).link s stop .simple, ⟨q, start, stop, some s⟩)

def addLines (length : Float) (spiderOn : Nat → Option Vertex) (d : Diagram) : List Nat → Diagram × List Line
  | [] => (d, [])
  | q :: rest =>
    let (d, line) := addLine d length q (spiderOn q)
    let (d, lines) := addLines length spiderOn d rest
    (d, line :: lines)

def register (qubits : Nat) (length : Float) (spiderOn : Nat → Option Vertex) : Diagram × List Line :=
  addLines length spiderOn .empty (List.range qubits)

def withEnds (d : Diagram) (lines : List Line) : Diagram :=
  { d with inputs := lines.map (·.start), outputs := lines.map (·.stop) }

def not (qubits qubit : Nat) : Diagram :=
  let (d, lines) := register qubits 2 fun q => if q = qubit then some (Vertex.x.withPhase .pi) else none
  withEnds d lines

def spiderOf (lines : List Line) (qubit : Nat) : Option Nat :=
  (lines.find? (·.qubit == qubit)).bind (·.spider)

def cnot (qubits control target : Nat) : Diagram :=
  let (d, lines) := register qubits 2 fun q =>
    if q = control then some .z else if q = target then some .x else none
  let joined :=
    if control = target then d
    else
      match spiderOf lines control, spiderOf lines target with
      | some z, some x => d.link z x .simple
      | _, _ => d
  withEnds joined lines

-- A Toffoli gate has no three-legged box of its own. Each control and the target grow a leg, drawn at
-- negative qubits, that ends in an H-box with a helper spider; a closing gadget ties the legs to one master
-- spider.
def addStar (d : Diagram) (feed : Nat) (qubit row helperQubit endRow : Float) : Diagram × Nat :=
  let box := d.fresh
  let d := d.add (Vertex.hBox.placed qubit row)
  let helper := d.fresh
  let d := d.add ((Vertex.z.placed helperQubit row).mark .starHelper)
  let stop := d.fresh
  let d := d.add (Vertex.boundary.placed qubit endRow)
  (((d.link feed box .simple).link box helper .simple).link box stop .simple, stop)

def controlLeg (d : Diagram) (n i spider : Nat) : Diagram × Nat :=
  let q := i.toFloat - n.toFloat - 1
  let flip := d.fresh
  let d := d.add ((Vertex.x.withPhase .pi).placed q 3)
  let (d, stop) := addStar d flip q 3.5 (q - 0.2) 4
  (d.link spider flip .simple, stop)

def controlLegs (n : Nat) (d : Diagram) (i : Nat) : List Nat → Diagram × List Nat
  | [] => (d, [])
  | spider :: rest =>
    let (d, stop) := controlLeg d n i spider
    let (d, stops) := controlLegs n d (i + 1) rest
    (d, stop :: stops)

def targetLeg (d : Diagram) (spider : Nat) : Diagram × Nat :=
  let shift := d.fresh
  let d := d.add ((Vertex.z.withPhase .pi).placed (-0.5) 3)
  let (d, stop) := addStar d shift (-1) 3 (-1.2) 3.5
  (d.link spider shift .simple, stop)

def hBoxPower : Int := -2

def toffoliLegs (qubits : Nat) (controls : List Nat) (target : Nat) : Except Fault Diagram := do
  let (d, lines) := register qubits 3 fun q =>
    if controls.contains q then some (Vertex.z.mark .potentialMaster)
    else if q = target then some .x
    else none
  let spiders := (lines.filter fun l => controls.contains l.qubit).filterMap (·.spider)
  let (d, stops) := controlLegs spiders.length d 0 spiders
  let (d, stops) :=
    match spiderOf (lines.filter fun l => !controls.contains l.qubit) target with
    | none => (d, stops)
    | some x =>
      let (d, stop) := targetLeg d x
      (d, stops ++ [stop])
  let scalar ← d.scalar.mulPower (hBoxPower * stops.length)
  pure { d with scalar, inputs := lines.map (·.start), outputs := stops ++ lines.map (·.stop) }

def addInputs (legs : Nat) (master last : Nat) (d : Diagram) : List Nat → Diagram
  | [] => d
  | i :: rest =>
    let bound := d.fresh
    let d := d.add (Vertex.boundary.placed (i.toFloat - legs.toFloat) 0)
    let d := d.link bound (if i + 1 = legs then last else master) .simple
    addInputs legs master last { d with inputs := d.inputs ++ [bound] } rest

def masterRow (legs : Nat) : Float :=
  let mid := legs.toFloat / 2
  if legs % 2 = 0 then mid + 0.5 else mid

def closing (qubits controls : Nat) : Except Fault Diagram :=
  let legs := controls + 1
  let d := Diagram.empty
  let master := d.fresh
  let d := d.add (((Vertex.z.withPhase .pi).placed (-masterRow legs) 1).mark .potentialMaster)
  let last := d.fresh
  let d := d.add ((Vertex.x.withPhase .pi).placed (-1) 1)
  let d := d.link last master .simple
  (addInputs legs master last d (List.range legs)).tensor (.identity qubits)

def controlledNot (qubits : Nat) (controls : List Nat) (target : Nat) : Except DiagramError Diagram := do
  let legs ← (toffoliLegs qubits controls target).mapError .fault
  let present := (List.range qubits).countP (controls.contains ·)
  let closed ← (closing qubits present).mapError .fault
  (legs.compose closed).mapError (·.cause)

def endBytes : Nat := 4

-- The gate on its own: nothing has shown yet that the ends of so many lines can be listed.
def toffoli (qubits : Nat) (controls : List Nat) (target : Nat) : Except DiagramError Diagram :=
  if Range.addressLimit < qubits * endBytes then .error (.fault .overflow)
  else controlledNot qubits controls target

-- The fragment of a column that is valid for the register, whose lines are there already.
def ofColumn (qubits : Nat) (column : Column) : Except CircuitError Diagram := do
  column.validate qubits
  match column with
  | .not q => pure (not qubits q)
  | .cnot c t => pure (cnot qubits c t)
  | .toffoli cs t => (controlledNot qubits cs t).mapError .diagram

end Fragment

end ToffoliBench

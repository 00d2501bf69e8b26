import ToffoliBench.Diagram.Basic

namespace ToffoliBench.Diagram

-- Turns the boundaries into spiders, wire by wire, and counts them on from `plugged`. Wires with no
-- state, or with the open one, are returned in order.
def plugWires (d : Diagram) (plugged : Int) : List Nat → List BasisState → Except Interrupted (Diagram × List Nat × Int)
  | [], _ => .ok (d, [], plugged)
  | v :: wires, states =>
    match (states.head?).bind BasisState.spider with
    | none => do
      let (d, stillOpen, plugged) ← plugWires d plugged wires states.tail
      pure (d, v :: stillOpen, plugged)
    | some (kind, phase) =>
      match d.vertex? v with
      | none => .error ⟨.vertexNotFound v, d⟩
      | some x => do
        let d := d.set v { x with kind, phase }
        let plugged ← (within Range.signed32 (plugged + 1)).mapError fun f => Interrupted.mk (.fault f) d
        plugWires d plugged wires states.tail

def plug (d : Diagram) (wires : List Nat) (states : List BasisState) :
    Except Interrupted (Diagram × List Nat) :=
  if wires.length < states.length then
    .error ⟨.tooManyStates states.length wires.length, d⟩
  else do
    let (closed, stillOpen, plugged) ← d.plugWires 0 wires states
    let scalar ← (closed.scalar.mulPower (-plugged)).mapError fun f => Interrupted.mk (.fault f) closed
    pure ({ closed with scalar }, stillOpen)

def plugInputs (d : Diagram) (states : List BasisState) : Except Interrupted Diagram := do
  let (closed, inputs) ← plug { d with inputs := [] } d.inputs states
  pure { closed with inputs }

def plugOutputs (d : Diagram) (states : List BasisState) : Except Interrupted Diagram := do
  let (closed, outputs) ← plug { d with outputs := [] } d.outputs states
  pure { closed with outputs }

end ToffoliBench.Diagram

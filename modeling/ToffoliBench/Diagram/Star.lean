import ToffoliBench.Diagram.Basic

namespace ToffoliBench.Diagram

structure StarGadget where
  helper : Nat
  hBox : Nat
  left : Nat
  right : Nat
deriving DecidableEq, Repr

def starAt (d : Diagram) (helper : Nat) : Except DiagramError StarGadget :=
  match d.neighbors helper with
  | [hBox] => do
    let kind ← d.kind hBox
    if kind ≠ .hBox then .error (.malformedGadget hBox .notOnHBox)
    else
      match (d.neighbors hBox).filter (· != helper) with
      | [left, right] => pure ⟨helper, hBox, left, right⟩
      | _ => .error (.malformedGadget hBox .outerNeighbours)
  | _ => .error (.malformedGadget helper .helperNeighbours)

def resolveStar (d : Diagram) (helper : Nat) : Except Interrupted Diagram := do
  let star ← (d.starAt helper).mapError (Interrupted.mk · d)
  let (_, d) ← (d.remove star.helper).mapError (Interrupted.mk · d)
  let (box, d) ← (d.remove star.hBox).mapError (Interrupted.mk · d)
  let spider := d.fresh
  let d := d.add ((Vertex.z.withPhase .third).placed box.qubit box.row)
  let d ← (d.addEdge star.left spider .simple).mapError (Interrupted.mk · d)
  (d.addEdge star.right spider .simple).mapError (Interrupted.mk · d)

def resolveStars (d : Diagram) : List Nat → Except Interrupted Diagram
  | [] => .ok d
  | helper :: rest => do
    let d ← d.resolveStar helper
    resolveStars d rest

def clearMarkers (d : Diagram) : Diagram :=
  { d with vertices := d.vertices.map fun entry => (entry.1, { entry.2 with marker := none }) }

-- Resolves every gadget, lowest helper first, then clears the markers that are left. The scalar stays: the
-- factor of an H-box was counted when its gadget was built. Answers how many helpers there were.
def resolveMarkers (d : Diagram) : Except Interrupted (Nat × Diagram) := do
  let helpers := d.marked .starHelper
  let resolved ← d.resolveStars helpers
  pure (helpers.length, resolved.clearMarkers)

end ToffoliBench.Diagram

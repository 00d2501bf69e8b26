import ToffoliBench.Fault
import ToffoliBench.Text.Integer

namespace ToffoliBench

inductive GadgetFlaw where
  | helperNeighbours
  | notOnHBox
  | outerNeighbours
deriving DecidableEq, Repr, Inhabited

def GadgetFlaw.message : GadgetFlaw → String
  | .helperNeighbours => "star helper must have exactly one neighbour"
  | .notOnHBox => "star helper must hang off an H-box"
  | .outerNeighbours => "H-box must have exactly two outer neighbours"

inductive DiagramError where
  | vertexNotFound (v : Nat)
  | parallelEdge (a b : Nat)
  | selfLoop (v : Nat)
  | arityMismatch (outputs inputs : Nat)
  | danglingBoundary (v : Nat)
  | tooManyStates (states wires : Nat)
  | invalidBasisState (c : Char)
  | invalidPhase (text : String)
  | malformedGadget (v : Nat) (flaw : GadgetFlaw)
  | fault (f : Fault)
deriving DecidableEq, Repr, Inhabited

def DiagramError.message : DiagramError → String
  | .vertexNotFound v => s!"Vertex {v} not found in diagram"
  | .parallelEdge a b => s!"Vertices {a} and {b} are already connected"
  | .selfLoop v => s!"Self-loop on vertex {v}"
  | .arityMismatch outputs inputs => s!"Cannot compose: {outputs} outputs against {inputs} inputs"
  | .danglingBoundary v => s!"Boundary vertex {v} must have exactly one neighbour"
  | .tooManyStates states wires => s!"Got {states} basis states for {wires} open wires"
  | .invalidBasisState c => s!"Invalid basis state '{c}', expected one of 0 1 + - /"
  | .invalidPhase text => s!"Invalid phase: {text}"
  | .malformedGadget v flaw => s!"Malformed gadget at vertex {v}: {flaw.message}"
  | .fault _ => "arithmetic fault"

end ToffoliBench

import Mathlib.Logic.Relation
import ToffoliBench.Proofs.Circuit.Unitary
import ToffoliBench.Proofs.Diagram.Plugging
import ToffoliBench.Proofs.Diagram.Stars

namespace ToffoliBench

open Diagram Outcome

theorem Fragment.ofColumn_wellFormed {n : Nat} {column : Column} {d : Diagram} (done : ofColumn n column = .ok d) : d.WellFormed := by
  obtain ⟨valid, made⟩ := check_ok.mp done
  have sits := Column.validate_ok.mp valid
  cases column with
  | not q =>
    obtain rfl := pure_ok.mp made
    exact (not_realizes sits).tidy.toWellFormed
  | cnot c t =>
    obtain rfl := pure_ok.mp made
    obtain ⟨control, target, different⟩ := sits
    exact (cnot_realizes control target different).tidy.toWellFormed
  | toffoli controls t =>
    obtain ⟨target, _, each, _⟩ := sits
    exact controlledNot_wellFormed target (fun held => (each t held).2 rfl) (mapError_ok.mp made)

namespace Diagram

inductive Call (d : Diagram) : Diagram → Prop
  | compose {other after : Diagram} (formed : other.WellFormed) (done : d.compose other = .ok after) : Call d after
  | tensor {other after : Diagram} (formed : other.WellFormed) (done : d.tensor other = .ok after) : Call d after
  | plugInputs {states : List BasisState} {after : Diagram} (done : d.plugInputs states = .ok after) : Call d after
  | plugOutputs {states : List BasisState} {after : Diagram} (done : d.plugOutputs states = .ok after) : Call d after
  | resolveMarkers {resolved : Nat} {after : Diagram} (done : d.resolveMarkers = .ok (resolved, after)) : Call d after

abbrev Calls : Diagram → Diagram → Prop := Relation.ReflTransGen Call

variable {d after : Diagram}

theorem Call.wellFormed (call : Call d after) (before : d.WellFormed) : after.WellFormed := by
  cases call with
  | compose formed done => exact compose_wellFormed before formed done
  | tensor formed done => exact tensor_wellFormed before formed done
  | plugInputs done => exact plugInputs_wellFormed before done
  | plugOutputs done => exact plugOutputs_wellFormed before done
  | resolveMarkers done => exact resolveMarkers_wellFormed before done

theorem Calls.wellFormed (calls : Calls d after) (before : d.WellFormed) : after.WellFormed := by
  induction calls with
  | refl => exact before
  | tail _ call ih => exact call.wellFormed ih

-- What calls start from is well formed, every call keeps it so, and hence all of them together.
theorem wellFormed_throughout :
    (∀ n, (identity n).WellFormed) ∧
    (∀ n column, column.validate n = .ok () →
      (Range.signed32 (Fragment.hBoxPower * column.boxes) = true → ∃ d, Fragment.ofColumn n column = .ok d) ∧
      ∀ d, Fragment.ofColumn n column = .ok d → d.WellFormed) ∧
    (∀ d after, d.WellFormed → Call d after → after.WellFormed) ∧
    ∀ d after, d.WellFormed → Calls d after → after.WellFormed := by
  refine ⟨fun n => (Fragment.identity_realizes n).tidy.toWellFormed, fun n column valid => ⟨fun ranged => ?_, fun d => ?_⟩,
    fun d after before call => call.wellFormed before, fun d after before calls => calls.wellFormed before⟩
  · obtain ⟨d, made, _⟩ := Fragment.ofColumn_realizes valid (Fragment.boxes_ranged.mp ranged)
    exact ⟨d, made⟩
  · exact Fragment.ofColumn_wellFormed

-- One wire, closed on both sides.
theorem wellFormed_throughout_closed : ∃ d, Calls (identity 1) d ∧ d.inputs = [] ∧ d.outputs = [] ∧ d.WellFormed := by
  obtain ⟨start, _, _, all⟩ := wellFormed_throughout
  have first := (plugInputs_ok (start 1)).mpr ⟨(by decide : [BasisState.zero].length ≤ _), by decide, by decide, rfl⟩
  have middle := all _ _ (start 1) (.single (.plugInputs first))
  have second := (plugOutputs_ok middle).mpr ⟨(by decide : [BasisState.plus].length ≤ _), by decide, by decide, rfl⟩
  have calls := Relation.ReflTransGen.single (Call.plugInputs first) |>.tail (.plugOutputs second)
  exact ⟨_, calls, rfl, rfl, all _ _ (start 1) calls⟩

end Diagram

end ToffoliBench

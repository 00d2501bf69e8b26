import Mathlib.Data.List.Nodup
import ToffoliBench.Circuit.Column
import ToffoliBench.Proofs.Outcome

namespace ToffoliBench.Column

open Outcome

variable {n t : Nat} {before controls : List Nat} {column : Column}

theorem checkQubit_ok {q : Nat} : checkQubit n q = .ok () ↔ q < n := by
  unfold checkQubit
  split
  · rename_i inside
    simp [inside]
  · rename_i outside
    simp [outside]

theorem checkControls_ok : checkControls n t before controls = .ok () ↔
    (∀ c ∈ controls, c < n ∧ c ≠ t ∧ c ∉ before) ∧ controls.Nodup := by
  induction controls generalizing before with
  | nil => simp [checkControls]
  | cons c rest ih =>
    simp only [checkControls, check_ok, checkQubit_ok, List.forall_mem_cons, List.nodup_cons]
    by_cases bad : c = t ∨ c ∈ before
    · rw [if_pos bad]
      constructor
      · rintro ⟨_, stop⟩
        cases stop
      · rintro ⟨⟨⟨_, other, new⟩, _⟩, _⟩
        exact (bad.elim other new).elim
    · rw [if_neg bad, ih]
      obtain ⟨other, new⟩ := not_or.mp bad
      constructor
      · rintro ⟨inside, each, once⟩
        refine ⟨⟨⟨inside, other, new⟩, fun q later => ?_⟩, fun again => ?_, once⟩
        · obtain ⟨small, target, absent⟩ := each q later
          exact ⟨small, target, fun early => absent (List.mem_cons_of_mem _ early)⟩
        · exact (each c again).2.2 List.mem_cons_self
      · rintro ⟨⟨⟨inside, _, _⟩, each⟩, absent, once⟩
        refine ⟨inside, fun q later => ?_, once⟩
        obtain ⟨small, target, early⟩ := each q later
        refine ⟨small, target, fun again => ?_⟩
        rcases List.mem_cons.mp again with rfl | again
        · exact absent later
        · exact early again

-- A gate that sits on `n` qubits.
def Sits (n : Nat) : Column → Prop
  | .not q => q < n
  | .cnot c t => c < n ∧ t < n ∧ c ≠ t
  | .toffoli controls t => t < n ∧ 2 ≤ controls.length ∧ (∀ c ∈ controls, c < n ∧ c ≠ t) ∧ controls.Nodup

theorem validate_ok : column.validate n = .ok () ↔ column.Sits n := by
  cases column with
  | not q => exact checkQubit_ok
  | cnot c t =>
    simp only [validate, check_ok, checkQubit_ok, Sits]
    by_cases same : c = t
    · simp [same]
    · simp [same, pure, Except.pure]
  | toffoli controls t =>
    simp only [validate, check_ok, checkQubit_ok, Sits]
    by_cases few : controls.length < 2
    · simp [few, Nat.not_le.mpr few]
    · rw [if_neg few, checkControls_ok]
      simp [Nat.not_lt.mp few]

end ToffoliBench.Column

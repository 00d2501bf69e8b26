import ToffoliBench.Proofs.Outcome
import ToffoliBench.Settings.Basic

namespace ToffoliBench.Settings
open Outcome

variable {s : Settings} {n : Nat} {grid : List Nat} {field : String}

theorem positive_ok : positive field n = .ok () ↔ n ≠ 0 := by
  unfold positive
  split <;> simp_all

theorem nonempty_ok : nonempty field grid = .ok () ↔ grid ≠ [] := by
  unfold nonempty
  split <;> simp_all

structure Valid (s : Settings) : Prop where
  workers : s.workers ≠ 0
  timeout : s.timeoutSeconds ≠ 0
  samples : s.samples ≠ 0
  qubits : s.qubits ≠ []
  nots : s.nots ≠ []
  cnots : s.cnots ≠ []
  toffolis : s.toffolis ≠ []
  fraction : (s.targetFraction > 0 && s.targetFraction < 1) = true

theorem validate_ok : s.validate = .ok () ↔ s.Valid := by
  have proper : (if s.targetFraction > 0 && s.targetFraction < 1 then Except.ok () else
      .error (SettingsFlaw.badFraction s.targetFraction)) = .ok () ↔ (s.targetFraction > 0 && s.targetFraction < 1) = true := by
    split <;> simp_all
  rw [validate, mapError_ok, flaw?]
  simp only [check_ok, positive_ok, nonempty_ok, proper]
  constructor
  · rintro ⟨workers, timeout, samples, qubits, nots, cnots, toffolis, fraction⟩
    exact ⟨workers, timeout, samples, qubits, nots, cnots, toffolis, fraction⟩
  · rintro ⟨workers, timeout, samples, qubits, nots, cnots, toffolis, fraction⟩
    exact ⟨workers, timeout, samples, qubits, nots, cnots, toffolis, fraction⟩

end ToffoliBench.Settings

import ToffoliBench.Fault

namespace ToffoliBench.Outcome

variable {ε φ : Type} {α β : Type}

theorem bind_ok {x : Except ε α} {f : α → Except ε β} {r : β} :
    x >>= f = .ok r ↔ ∃ a, x = .ok a ∧ f a = .ok r := by
  cases x with
  | error e => simp [bind, Except.bind]
  | ok a => simp [bind, Except.bind]

theorem check_ok {x : Except ε Unit} {y : Except ε β} {r : β} :
    (x >>= fun _ => y) = .ok r ↔ x = .ok () ∧ y = .ok r := by
  cases x with
  | error e => simp [bind, Except.bind]
  | ok a => simp [bind, Except.bind]

theorem mapError_ok {x : Except ε α} {f : ε → φ} {r : α} : x.mapError f = .ok r ↔ x = .ok r := by
  cases x with
  | error e => exact ⟨nofun, nofun⟩
  | ok a =>
    change (Except.ok a : Except φ α) = .ok r ↔ _
    rw [Except.ok.injEq, Except.ok.injEq]

theorem map_ok {f : α → β} {x : Except ε α} {r : β} : x.map f = .ok r ↔ ∃ a, x = .ok a ∧ f a = r := by
  cases x <;> simp [Except.map]

theorem pure_ok {a r : α} : (pure a : Except ε α) = .ok r ↔ a = r := by
  simp [pure, Except.pure]

-- A chain of computations stops where its first failure is.
theorem bind_error {x : Except ε α} {f : α → Except ε β} {e : ε} :
    x >>= f = .error e ↔ x = .error e ∨ ∃ a, x = .ok a ∧ f a = .error e := by
  cases x with
  | error e => simp [bind, Except.bind]
  | ok a => simp [bind, Except.bind]

theorem mapError_error {x : Except ε α} {f : ε → φ} {e : φ} : x.mapError f = .error e ↔ ∃ cause, x = .error cause ∧ f cause = e := by
  cases x with
  | error cause =>
    change (Except.error (f cause) : Except φ α) = .error e ↔ _
    simp
  | ok a => exact ⟨nofun, nofun⟩

theorem within_ok {range : α → Bool} {x y : α} : within range x = .ok y ↔ y = x ∧ range x = true := by
  unfold within
  split
  · rename_i inside
    simp [inside, eq_comm]
  · rename_i outside
    simp [outside]

theorem signed32_iff {x : Int} : Range.signed32 x = true ↔ -2147483648 ≤ x ∧ x ≤ 2147483647 := by
  rw [Range.signed32, Bool.and_eq_true, decide_eq_true_iff, decide_eq_true_iff]

end ToffoliBench.Outcome

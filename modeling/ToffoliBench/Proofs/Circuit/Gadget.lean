import Mathlib.Data.Finset.Card
import ToffoliBench.Proofs.Circuit.Unitary

namespace ToffoliBench.Fragment

open Diagram Meaning Outcome

variable {n t : Nat} {controls others : List Nat}

theorem contains_same (same : ∀ q, q ∈ others ↔ q ∈ controls) : others.contains = controls.contains := by
  funext q
  rw [Bool.eq_iff_iff, List.contains_iff_mem, List.contains_iff_mem, same]

theorem toffoli_same (same : ∀ q, q ∈ others ↔ q ∈ controls) (n t : Nat) : toffoli n others t = toffoli n controls t := by
  unfold toffoli controlledNot toffoliLegs
  rw [contains_same same]

theorem toffoli_held (held : n * endBytes ≤ Range.addressLimit) : toffoli n controls t = controlledNot n controls t :=
  if_neg (Nat.not_lt.mpr held)

theorem toffoli_unheld (vast : Range.addressLimit < n * endBytes) : toffoli n controls t = .error (.fault .overflow) := if_pos vast

theorem present_card (known : ∀ c ∈ controls, c < n) : (present controls n).length = controls.toFinset.card := by
  rw [← List.toFinset_card_of_nodup (present_nodup controls n)]
  refine congrArg Finset.card (Finset.ext fun q => ?_)
  rw [List.mem_toFinset, List.mem_toFinset, mem_present]
  exact ⟨And.right, fun held => ⟨known q held, held⟩⟩

theorem power_ranged (known : ∀ c ∈ controls, c < n) :
    Range.signed32 (hBoxPower * ((present controls n).length + 1)) = true ↔ controls.toFinset.card < 2 ^ 30 := by
  rw [show ((present controls n).length + 1 : ℤ) = ((present controls n).length + 1 : ℕ) from (Nat.cast_succ _).symm, boxes_ranged,
    present_card known]
  omega

theorem controlledNot_fault (inside : t < n) (outside : t ∉ controls)
    (unranged : ¬Range.signed32 (hBoxPower * ((present controls n).length + 1)) = true) :
    ∃ f, controlledNot n controls t = .error (.fault f) := by
  obtain ⟨d, after, lines, stops, stop, x, _, size, exact_⟩ := toffoliLegs_legged inside outside
  cases legs : toffoliLegs n controls t with
  | ok made => exact absurd (size ▸ ((exact_ made).mp legs).1) unranged
  | error f =>
    refine ⟨f, ?_⟩
    rw [controlledNot, legs]
    rfl

theorem toffoli_fault (inside : t < n) (outside : t ∉ controls) (known : ∀ c ∈ controls, c < n)
    (large : Range.addressLimit < n * endBytes ∨ 2 ^ 30 ≤ controls.toFinset.card) : ∃ f, toffoli n controls t = .error (.fault f) := by
  by_cases held : n * endBytes ≤ Range.addressLimit
  · have many := large.resolve_left (Nat.not_lt.mpr held)
    rw [toffoli_held held]
    exact controlledNot_fault inside outside (mt (power_ranged known).mp (Nat.not_lt.mpr many))
  · exact ⟨.overflow, toffoli_unheld (Nat.not_le.mp held)⟩

-- The gate, up to the factor of its target's spider. The ends of the lines have to fit into a list, and
-- the power of `√2` has 32 bits, which count the boxes of fewer than `2 ^ 30` different controls.
theorem toffoli_exact (inside : t < n) (outside : t ∉ controls) (known : ∀ c ∈ controls, c < n) :
    (∀ others : List Nat, (∀ q, q ∈ others ↔ q ∈ controls) → toffoli n others t = toffoli n controls t) ∧
    (n * endBytes ≤ Range.addressLimit → controls.toFinset.card < 2 ^ 30 →
      ∃ d, toffoli n controls t = .ok d ∧ d.WellFormed ∧ d.inputs.length = n ∧ d.outputs.length = n ∧
        d.scalar = ⟨-2 * (controls.toFinset.card + 1), .zero⟩ ∧
        d.matrix n n = rootTwo⁻¹ • (Column.toffoli controls t).permutation n) ∧
    (Range.addressLimit < n * endBytes ∨ 2 ^ 30 ≤ controls.toFinset.card → ∃ f, toffoli n controls t = .error (.fault f)) := by
  refine ⟨fun others same => toffoli_same same n t, fun held few => ?_, toffoli_fault inside outside known⟩
  obtain ⟨d, made, realizes⟩ := controlledNot_realizes inside outside known ((power_ranged known).mpr few)
  refine ⟨d, (toffoli_held held).trans made, realizes.tidy.toWellFormed, realizes.inputs, realizes.outputs, ?_,
    by simpa using realizes.matrix⟩
  rw [realizes.scalar, present_card known, hBoxPower]
  push_cast
  rfl

theorem toffoli_exact_repeated : (∃ d, toffoli 5 [3, 0, 3, 1, 0] 2 = .ok d ∧ toffoli 5 [0, 1, 3] 2 = .ok d ∧ d.scalar = ⟨-8, .zero⟩ ∧
      d.matrix 5 5 = rootTwo⁻¹ • (Column.toffoli [3, 0, 3, 1, 0] 2).permutation 5) ∧
    ∃ d, toffoli 1 [] 0 = .ok d ∧ d.scalar = ⟨-2, .zero⟩ ∧ d.matrix 1 1 = rootTwo⁻¹ • (Column.toffoli [] 0).permutation 1 := by
  obtain ⟨same, made, _⟩ := @toffoli_exact 5 2 [3, 0, 3, 1, 0] (by decide) (by decide) (by decide)
  obtain ⟨d, done, _, _, _, scalar, matrix⟩ := made (by decide) (by decide)
  obtain ⟨_, bare, _⟩ := @toffoli_exact 1 0 [] (by decide) (by decide) (by decide)
  obtain ⟨e, done', _, _, _, scalar', matrix'⟩ := bare (by decide) (by decide)
  exact ⟨⟨d, done, (same [0, 1, 3] (by simp; omega)).trans done, scalar, matrix⟩, e, done', scalar', matrix'⟩

theorem toffoli_crowded (many : 2 ^ 30 ≤ n) : n ∉ List.range n ∧ (∀ c ∈ List.range n, c < n + 1) ∧
    ∃ f, toffoli (n + 1) (List.range n) n = .error (.fault f) := by
  have outside : n ∉ List.range n := fun held => Nat.lt_irrefl n (List.mem_range.mp held)
  have known : ∀ c ∈ List.range n, c < n + 1 := fun c held => Nat.lt_succ_of_lt (List.mem_range.mp held)
  refine ⟨outside, known, toffoli_fault (Nat.lt_succ_self n) outside known (.inr ?_)⟩
  rwa [List.toFinset_range, Finset.card_range]

-- So many controls that their boxes cannot be counted, and so many lines that they cannot be listed.
theorem toffoli_refused : (2 ^ 30 ∉ List.range (2 ^ 30) ∧ (∀ c ∈ List.range (2 ^ 30), c < 2 ^ 30 + 1) ∧
      ∃ f, toffoli (2 ^ 30 + 1) (List.range (2 ^ 30)) (2 ^ 30) = .error (.fault f)) ∧
    toffoli 18446744073709551615 [] 0 = .error (.fault .overflow) :=
  ⟨toffoli_crowded (Nat.le_refl _), toffoli_unheld (by decide)⟩

end ToffoliBench.Fragment

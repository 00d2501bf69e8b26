import Mathlib.Data.Rat.Cast.Defs
import Mathlib.Tactic.Ring
import ToffoliBench.Fraction
import ToffoliBench.Proofs.Outcome

namespace ToffoliBench.Fraction
open Outcome

def value (x : Fraction) : ℚ := x.numer / x.denom

theorem checked_eq {x y : Int} (h : checked x = .ok y) : y = x := (within_ok.mp h).1

-- A common factor goes out of both parts, and both change sign together.
theorem make_value {n d : Int} {r : Fraction} (h : make n d = .ok r) :
    d ≠ 0 ∧ r.denom ≠ 0 ∧ r.value = n / d := by
  unfold make at h
  split at h
  · cases h
  rename_i nonzero
  refine ⟨nonzero, ?_⟩
  split at h
  · rename_i zero
    cases h
    simp [value, zero]
  split at h
  · rename_i same
    cases h
    have castNonzero : (d : ℚ) ≠ 0 := by exact_mod_cast nonzero
    simp [value, same, castNonzero]
  have divides : ((Int.gcd n d : Nat) : Int) ∣ n ∧ ((Int.gcd n d : Nat) : Int) ∣ d :=
    ⟨Int.gcd_dvd_left .., Int.gcd_dvd_right ..⟩
  have positive : ((Int.gcd n d : Nat) : Int) ≠ 0 := by
    intro zero
    rw [zero] at divides
    exact nonzero (Int.zero_dvd.mp divides.2)
  dsimp only at h
  generalize ((Int.gcd n d : Nat) : Int) = g at h divides positive
  have top : g * n.tdiv g = n := Int.mul_tdiv_cancel' divides.1
  have bottom : g * d.tdiv g = d := Int.mul_tdiv_cancel' divides.2
  have reducedNonzero : d.tdiv g ≠ 0 := by
    intro zero
    rw [zero, mul_zero] at bottom
    exact nonzero bottom.symm
  have reduced : ((n.tdiv g : Int) : ℚ) / (d.tdiv g : Int) = n / d := by
    have topCast : (g : ℚ) * (n.tdiv g : Int) = n := by exact_mod_cast top
    have bottomCast : (g : ℚ) * (d.tdiv g : Int) = d := by exact_mod_cast bottom
    have gCast : (g : ℚ) ≠ 0 := by exact_mod_cast positive
    rw [← topCast, ← bottomCast, mul_div_mul_left _ _ gCast]
  split at h
  · obtain ⟨a, up, h⟩ := bind_ok.mp h
    obtain ⟨b, down, h⟩ := bind_ok.mp h
    obtain rfl := pure_ok.mp h
    obtain rfl := checked_eq up
    obtain rfl := checked_eq down
    refine ⟨by simpa using reducedNonzero, ?_⟩
    simp only [value, zero_sub, Int.cast_neg, neg_div_neg_eq]
    exact reduced
  · cases h
    exact ⟨reducedNonzero, reduced⟩

theorem lcm_eq {a b c : Int} (h : lcm a b = .ok c) : a ∣ c ∧ b ∣ c := by
  unfold lcm at h
  obtain ⟨p, product, h⟩ := bind_ok.mp h
  obtain rfl := checked_eq product
  obtain rfl := checked_eq h
  have left : a ∣ a * b.tdiv (Int.gcd a b) := Int.dvd_mul_right ..
  have right : b ∣ a * b.tdiv (Int.gcd a b) := by
    obtain ⟨k, share⟩ : ((Int.gcd a b : Nat) : Int) ∣ a := Int.gcd_dvd_left ..
    have whole : ((Int.gcd a b : Nat) : Int) * b.tdiv (Int.gcd a b) = b :=
      Int.mul_tdiv_cancel' (Int.gcd_dvd_right ..)
    refine ⟨k, ?_⟩
    calc a * b.tdiv (Int.gcd a b) = (Int.gcd a b * k) * b.tdiv (Int.gcd a b) := by rw [← share]
      _ = (Int.gcd a b * b.tdiv (Int.gcd a b)) * k := by ring
      _ = b * k := by rw [whole]
  exact ⟨Int.dvd_natAbs.mpr left, Int.dvd_natAbs.mpr right⟩

-- The operation acts on numerators over some common denominator.
theorem overCommon_value {op : Int → Int → Int} {x y r : Fraction} (h : overCommon op x y = .ok r) :
    ∃ a b c : Int, c ≠ 0 ∧ x.value = a / c ∧ y.value = b / c ∧ r.denom ≠ 0 ∧ r.value = (op a b : Int) / c := by
  unfold overCommon at h
  split at h
  · rename_i same
    obtain ⟨n, top, h⟩ := bind_ok.mp h
    obtain rfl := checked_eq top
    obtain ⟨nonzero, made, exactly⟩ := make_value h
    exact ⟨x.numer, y.numer, x.denom, nonzero, rfl, by rw [value, same], made, exactly⟩
  · obtain ⟨c, common, h⟩ := bind_ok.mp h
    obtain ⟨a, left, h⟩ := bind_ok.mp h
    obtain ⟨b, right, h⟩ := bind_ok.mp h
    obtain ⟨n, top, h⟩ := bind_ok.mp h
    obtain rfl := checked_eq top
    obtain rfl := checked_eq left
    obtain rfl := checked_eq right
    obtain ⟨nonzero, made, exactly⟩ := make_value h
    obtain ⟨xDivides, yDivides⟩ := lcm_eq common
    have scaled : ∀ z : Fraction, z.denom ∣ c → z.value = (z.numer * c.tdiv z.denom : Int) / c := by
      intro z divides
      have whole : z.denom * c.tdiv z.denom = c := Int.mul_tdiv_cancel' divides
      have factorNonzero : c.tdiv z.denom ≠ 0 := by
        intro zero
        rw [zero, mul_zero] at whole
        exact nonzero whole.symm
      have factorCast : ((c.tdiv z.denom : Int) : ℚ) ≠ 0 := by exact_mod_cast factorNonzero
      have wholeCast : (z.denom : ℚ) * (c.tdiv z.denom : Int) = c := by exact_mod_cast whole
      rw [value, Int.cast_mul, ← wholeCast, mul_div_mul_right _ _ factorCast]
    exact ⟨_, _, c, nonzero, scaled x xDivides, scaled y yDivides, made, exactly⟩

theorem add_value {x y r : Fraction} (h : x.add y = .ok r) : r.value = x.value + y.value := by
  obtain ⟨a, b, c, _, left, right, _, total⟩ := overCommon_value h
  rw [left, right, total, Int.cast_add, add_div]

-- The remainder differs from the dividend by a whole number of divisors.
theorem rem_value {x y r : Fraction} (h : x.rem y = .ok r) : ∃ k : Int, r.value = x.value - k * y.value := by
  obtain ⟨a, b, c, _, left, right, _, rest⟩ := overCommon_value h
  refine ⟨a.tdiv b, ?_⟩
  have split : a.tmod b = a - b * a.tdiv b := by
    have whole := Int.mul_tdiv_add_tmod a b
    omega
  rw [left, right, rest, split]
  push_cast
  ring

end ToffoliBench.Fraction

import Mathlib.Analysis.SpecialFunctions.Complex.Circle
import ToffoliBench.Proofs.Numbers.Normal
import ToffoliBench.Scalar

namespace ToffoliBench

noncomputable def rootTwo : ℂ := (Real.sqrt 2 : ℝ)

theorem rootTwo_sq : rootTwo ^ 2 = 2 := by
  have positive : (0 : ℝ) ≤ 2 := by norm_num
  rw [rootTwo, ← Complex.ofReal_pow, Real.sq_sqrt positive, Complex.ofReal_ofNat]

theorem rootTwo_ne_zero : rootTwo ≠ 0 := by
  intro zero
  have square := rootTwo_sq
  rw [zero] at square
  norm_num at square

namespace Phase
open Outcome

-- The point e^(iπp) of the unit circle.
noncomputable def turn (p : Phase) : ℂ := Complex.exp (Complex.I * (Real.pi * (p.coeff.value : ℝ)))

theorem turn_zero : zero.turn = 1 := by simp [turn, zero, Fraction.value]

theorem turn_pi : pi.turn = -1 := by
  have value : pi.coeff.value = 1 := by simp [pi, Fraction.value]
  rw [turn, value, Rat.cast_one, Complex.ofReal_one, mul_one, mul_comm, Complex.exp_pi_mul_I]

theorem turn_of_shift {p q : Phase} (k : Int) (shift : p.coeff.value = q.coeff.value - k * 2) : p.turn = q.turn := by
  have period : Complex.I * (Real.pi * (q.coeff.value : ℝ)) =
      Complex.I * (Real.pi * (p.coeff.value : ℝ)) + k * (2 * Real.pi * Complex.I) := by
    rw [shift]
    push_cast
    ring
  rw [turn, turn, period, Complex.exp_periodic.int_mul]

theorem ofFraction_turn {r : Fraction} {p : Phase} (h : ofFraction r = .ok p) : p.turn = (Phase.mk r).turn := by
  have two : (Fraction.ofInt 2).value = 2 := by simp [Fraction.ofInt, Fraction.value]
  obtain ⟨turned, rest, h⟩ := bind_ok.mp h
  obtain ⟨k, shift⟩ := Fraction.rem_value rest
  rw [two] at shift
  split at h
  · obtain ⟨up, raised, h⟩ := bind_ok.mp h
    obtain rfl := pure_ok.mp h
    have total := Fraction.add_value raised
    rw [two, shift] at total
    refine turn_of_shift (k - 1) ?_
    rw [total]
    push_cast
    ring
  · obtain rfl := pure_ok.mp h
    exact turn_of_shift k shift

theorem add_turn {p q r : Phase} (h : p.add q = .ok r) : r.turn = p.turn * q.turn := by
  obtain ⟨sum, added, h⟩ := bind_ok.mp h
  rw [ofFraction_turn h, turn, turn, turn, ← Complex.exp_add, Fraction.add_value added]
  congr 1
  push_cast
  ring

theorem Normal.value_bounds {p : Phase} (normal : p.Normal) : 0 ≤ p.coeff.value ∧ p.coeff.value < 2 := by
  obtain ⟨positive, least, below, _, _⟩ := normal
  have denom : (0 : ℚ) < p.coeff.denom := by exact_mod_cast positive
  have top : (p.coeff.numer : ℚ) < 2 * p.coeff.denom := by exact_mod_cast below
  exact ⟨div_nonneg (by exact_mod_cast least) denom.le, (div_lt_iff₀ denom).mpr top⟩

theorem eq_of_value {p q : Phase} (positive : 0 < p.coeff.denom) (positive' : 0 < q.coeff.denom)
    (coprime : Int.gcd p.coeff.numer p.coeff.denom = 1) (coprime' : Int.gcd q.coeff.numer q.coeff.denom = 1)
    (same : p.coeff.value = q.coeff.value) : p = q := by
  obtain ⟨numer, denom⟩ := Rat.div_int_inj positive positive' coprime coprime' same
  obtain ⟨⟨_, _⟩⟩ := p
  obtain ⟨⟨_, _⟩⟩ := q
  exact congrArg Phase.mk (congrArg₂ Fraction.mk numer denom)

theorem Normal.eq_of_turn {p q : Phase} (left : p.Normal) (right : q.Normal) (same : p.turn = q.turn) : p = q := by
  obtain ⟨n, shift⟩ := Complex.exp_eq_exp_iff_exists_int.mp same
  have turns : (p.coeff.value : ℂ) = q.coeff.value + 2 * n := by
    have factor : Complex.I * Real.pi ≠ 0 := mul_ne_zero Complex.I_ne_zero (Complex.ofReal_ne_zero.mpr Real.pi_ne_zero)
    refine mul_left_cancel₀ factor ?_
    push_cast at shift
    linear_combination shift
  have turns : p.coeff.value = q.coeff.value + 2 * n := by exact_mod_cast turns
  obtain ⟨least, below⟩ := left.value_bounds
  obtain ⟨least', below'⟩ := right.value_bounds
  have none : n = 0 := by
    have more : (-1 : ℚ) < n := by linarith
    have less : (n : ℚ) < 1 := by linarith
    have more : -1 < n := by exact_mod_cast more
    have less : n < 1 := by exact_mod_cast less
    omega
  rw [none, Int.cast_zero, mul_zero, add_zero] at turns
  exact eq_of_value left.positive right.positive left.coprime right.coprime turns

end Phase

namespace Scalar
open Outcome

noncomputable def value (s : Scalar) : ℂ := rootTwo ^ s.power * s.phase.turn

theorem one_value : one.value = 1 := by simp [value, one, Phase.turn_zero]

theorem mul_parts {s t u : Scalar} (done : s.mul t = .ok u) : u.power = s.power + t.power ∧ s.phase.add t.phase = .ok u.phase := by
  obtain ⟨power, ranged, done⟩ := bind_ok.mp done
  obtain ⟨phase, added, done⟩ := bind_ok.mp done
  obtain rfl := pure_ok.mp done
  exact ⟨(within_ok.mp ranged).1, added⟩

-- Products are told apart by the power and the point on the circle.
theorem mul_unique {s t u v x y : Scalar} (left : s.mul t = .ok x) (right : u.mul v = .ok y)
    (powers : s.power + t.power = u.power + v.power) (turns : s.phase.turn * t.phase.turn = u.phase.turn * v.phase.turn) : x = y := by
  obtain ⟨p, one⟩ := mul_parts left
  obtain ⟨q, two⟩ := mul_parts right
  have phases : x.phase = y.phase := by
    refine (Phase.Built.add one).normal.eq_of_turn (Phase.Built.add two).normal ?_
    rw [Phase.add_turn one, Phase.add_turn two, turns]
  have power : x.power = y.power := p.trans (powers.trans q.symm)
  obtain ⟨_, _⟩ := x
  obtain ⟨_, _⟩ := y
  exact congrArg₂ Scalar.mk power phases

-- Products that there are do not depend on the order of multiplication.
theorem mul_regroup {a b c ab bc left right : Scalar} (first : a.mul b = .ok ab) (leftDone : ab.mul c = .ok left)
    (second : b.mul c = .ok bc) (rightDone : a.mul bc = .ok right) : left = right := by
  obtain ⟨p, x⟩ := mul_parts first
  obtain ⟨q, y⟩ := mul_parts second
  refine mul_unique leftDone rightDone (by omega) ?_
  rw [Phase.add_turn x, Phase.add_turn y, mul_assoc]

theorem mul_interchange {a b c d ab cd ac bd left right : Scalar} (one : a.mul b = .ok ab) (two : c.mul d = .ok cd)
    (leftDone : ab.mul cd = .ok left) (three : a.mul c = .ok ac) (four : b.mul d = .ok bd) (rightDone : ac.mul bd = .ok right) :
    left = right := by
  obtain ⟨p, x⟩ := mul_parts one
  obtain ⟨q, y⟩ := mul_parts two
  obtain ⟨r, z⟩ := mul_parts three
  obtain ⟨s, w⟩ := mul_parts four
  refine mul_unique leftDone rightDone (by omega) ?_
  rw [Phase.add_turn x, Phase.add_turn y, Phase.add_turn z, Phase.add_turn w, mul_mul_mul_comm]

-- A scalar in range with a phase that operations have built is the same times one.
theorem mul_one_ok {s : Scalar} (ranged : Range.signed32 s.power = true) (built : s.phase.Built) :
    s.mul .one = .ok s ∧ one.mul s = .ok s := by
  obtain ⟨right, left⟩ := built.normal.plus_zero
  obtain ⟨power, phase⟩ := s
  exact ⟨bind_ok.mpr ⟨power, within_ok.mpr ⟨(add_zero power).symm, by simpa [one] using ranged⟩, bind_ok.mpr ⟨phase, right, rfl⟩⟩,
    bind_ok.mpr ⟨power, within_ok.mpr ⟨(zero_add power).symm, by simpa [one] using ranged⟩, bind_ok.mpr ⟨phase, left, rfl⟩⟩⟩

theorem mul_value {s t u : Scalar} (h : s.mul t = .ok u) : u.value = s.value * t.value := by
  obtain ⟨power, ranged, h⟩ := bind_ok.mp h
  obtain ⟨phase, added, h⟩ := bind_ok.mp h
  obtain rfl := pure_ok.mp h
  obtain ⟨rfl, _⟩ := within_ok.mp ranged
  rw [value, value, value, zpow_add₀ rootTwo_ne_zero, Phase.add_turn added]
  ring

-- Scalars with no turn multiply by adding their powers.
theorem mul_plain {p q : Int} (ranged : Range.signed32 (p + q) = true) :
    (Scalar.mk p .zero).mul ⟨q, .zero⟩ = .ok ⟨p + q, .zero⟩ :=
  bind_ok.mpr ⟨p + q, within_ok.mpr ⟨rfl, ranged⟩, rfl⟩

end Scalar

end ToffoliBench

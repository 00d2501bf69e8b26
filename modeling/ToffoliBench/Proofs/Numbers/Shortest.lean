import Mathlib
import ToffoliBench.Proofs.Numbers.Scientific

namespace ToffoliBench.Decimal

def Ratio.value (r : Ratio) : ℚ := r.num / r.den

def Digits.value (d : Digits) : ℚ := d.digits * 10 ^ d.exponent

theorem scaled_den {n base : ℕ} {e : ℤ} (positive : 0 < base) : 0 < (scaled n base e).den := by
  unfold scaled
  split
  · exact Nat.pow_pos positive
  · exact one_pos

theorem scaled_value {n base : ℕ} {e : ℤ} (positive : 0 < base) : (scaled n base e).value = n * (base : ℚ) ^ e := by
  have nonzero : (base : ℚ) ≠ 0 := by exact_mod_cast positive.ne'
  unfold scaled Ratio.value
  split
  · rename_i below
    have power : (base : ℚ) ^ e = 1 / (base : ℚ) ^ e.natAbs := zpow_down (by omega)
    rw [power, mul_one_div]
    simp only [Nat.pow_eq, Nat.cast_pow]
  · rename_i above
    have power : (base : ℚ) ^ e = (base : ℚ) ^ e.natAbs := zpow_up (by omega)
    rw [power]
    simp only [Nat.pow_eq, Nat.cast_mul, Nat.cast_pow, Nat.cast_one, div_one]

theorem unit_value (e : ℤ) : (scaled 1 10 e).value = 10 ^ e := by
  rw [scaled_value (by decide), Nat.cast_one, one_mul, Nat.cast_ofNat]

theorem Ratio.num_pos {r : Ratio} (positive : 0 < r.value) : 0 < r.num := by
  refine Nat.pos_of_ne_zero fun none => ?_
  rw [Ratio.value, none, Nat.cast_zero, zero_div] at positive
  exact lt_irrefl _ positive

theorem Digits.ratio_value (d : Digits) : d.ratio.value = d.value := scaled_value (by decide)

theorem Ratio.le_iff {r s : Ratio} (left : 0 < r.den) (right : 0 < s.den) : r.le s = true ↔ r.value ≤ s.value := by
  unfold Ratio.le Ratio.value
  rw [decide_eq_true_iff, div_le_div_iff₀ (by exact_mod_cast left) (by exact_mod_cast right)]
  exact_mod_cast Iff.rfl

theorem Ratio.lt_iff {r s : Ratio} (left : 0 < r.den) (right : 0 < s.den) : r.lt s = true ↔ r.value < s.value := by
  unfold Ratio.lt Ratio.value
  rw [decide_eq_true_iff, div_lt_div_iff₀ (by exact_mod_cast left) (by exact_mod_cast right)]
  exact_mod_cast Iff.rfl

-- The parts of a number as it is kept, with the gap below it.
structure Binary.Kept (b : Binary) : Prop where
  canonical : Canonical b.m b.q
  halved : b.halved = true ↔ b.m = 2 ^ 52 ∧ -1074 < b.q

theorem ofFloat_parts (x : Float) : (Binary.ofFloat x).m = mantissaOf (x.toBits.toNat % 2 ^ 63) ∧
    (Binary.ofFloat x).q = exponentOf (x.toBits.toNat % 2 ^ 63) ∧
    ((Binary.ofFloat x).halved = true ↔ (Binary.ofFloat x).m = 2 ^ 52 ∧ -1074 < (Binary.ofFloat x).q) := by
  unfold Binary.ofFloat mantissaOf exponentOf
  dsimp only
  generalize x.toBits.toNat = n
  split
  · rename_i least
    rw [if_pos (by omega), if_pos (by omega)]
    refine ⟨by dsimp only; omega, rfl, ?_⟩
    simp
  · rename_i normal
    rw [if_neg (by omega), if_neg (by omega)]
    refine ⟨by dsimp only; omega, by dsimp only; omega, ?_⟩
    simp only [Bool.and_eq_true, beq_iff_eq, decide_eq_true_eq]
    omega

theorem ofFloat_kept {x : Float} (nonzero : x.toBits.toNat % 2 ^ 63 ≠ 0) : (Binary.ofFloat x).Kept := by
  obtain ⟨mantissa, exponent, halved⟩ := ofFloat_parts x
  refine ⟨?_, halved⟩
  rw [mantissa, exponent]
  exact canonical_bits nonzero

namespace Binary.Kept

variable {b : Binary} {d : Digits}

-- The decimals that hold are those that round to the number.
theorem holds_iff (kept : b.Kept) : b.holds d = true ↔ Rounds b.m b.q d.value := by
  have positive := kept.canonical.positive
  have quarter : (2 : ℚ) ^ (b.q - 2) = 2 ^ b.q / 4 := by
    rw [zpow_sub₀ two_ne_zero]
    norm_num
  have low : (scaled (4 * b.m - if b.halved then 1 else 2) 2 (b.q - 2)).value = (b.m - reach b.m b.q) * 2 ^ b.q := by
    have fits : (if b.halved then 1 else 2) ≤ 4 * b.m := by split <;> omega
    have distance : (4 : ℚ) * reach b.m b.q = ((if b.halved then 1 else 2 : ℕ) : ℚ) := by
      unfold reach
      simp only [kept.halved]
      split <;> norm_num
    rw [scaled_value two_pos, Nat.cast_ofNat, quarter, Nat.cast_sub fits, ← distance]
    push_cast
    ring
  have high : (scaled (4 * b.m + 2) 2 (b.q - 2)).value = (b.m + 1 / 2) * 2 ^ b.q := by
    rw [scaled_value two_pos, Nat.cast_ofNat, quarter]
    push_cast
    ring
  have ten : 0 < d.ratio.den := scaled_den (by decide)
  unfold holds Rounds
  dsimp only
  split
  · rename_i even
    rw [Bool.and_eq_true, Ratio.le_iff (scaled_den two_pos) ten, Ratio.le_iff ten (scaled_den two_pos), low, high, d.ratio_value]
    exact ⟨fun both => ⟨both, fun odd => by omega⟩, And.left⟩
  · rename_i odd
    rw [Bool.and_eq_true, Ratio.lt_iff (scaled_den two_pos) ten, Ratio.lt_iff ten (scaled_den two_pos), low, high, d.ratio_value]
    exact ⟨fun both => ⟨⟨both.1.le, both.2.le⟩, fun _ => both⟩, fun both => both.2 (by omega)⟩

end Binary.Kept

variable {b : Binary} {step top : ℤ} {count fuel : ℕ}

theorem Binary.ratio_value (b : Binary) : b.ratio.value = b.m * 2 ^ b.q := scaled_value two_pos

-- The grid point below and the next one enclose the number.
theorem floorAt_value {r : Ratio} (positive : 0 < r.den) :
    (floorAt r step).value ≤ r.value ∧ r.value < (floorAt r step).value + 10 ^ step := by
  have unit : (0 : ℚ) < 10 ^ step := by positivity
  have one := unit_value step
  have den : 0 < (scaled 1 10 step).den := scaled_den (by decide)
  have num : 0 < (scaled 1 10 step).num := Ratio.num_pos (one ▸ unit)
  have parts : r.value = (r.num * (scaled 1 10 step).den : ℕ) / (r.den * (scaled 1 10 step).num : ℕ) * 10 ^ step := by
    have left : (r.den : ℚ) ≠ 0 := by exact_mod_cast positive.ne'
    have right : ((scaled 1 10 step).num : ℚ) ≠ 0 := by exact_mod_cast num.ne'
    have below : ((scaled 1 10 step).den : ℚ) ≠ 0 := by exact_mod_cast den.ne'
    rw [← one, Ratio.value, Ratio.value]
    push_cast
    field_simp
  have whole : 0 < r.den * (scaled 1 10 step).num := Nat.mul_pos positive num
  unfold Digits.value floorAt
  dsimp only
  rw [parts, ← add_one_mul]
  constructor
  · exact mul_le_mul_of_nonneg_right Nat.cast_div_le unit.le
  · refine mul_lt_mul_of_pos_right ?_ unit
    rw [div_lt_iff₀ (by exact_mod_cast whole)]
    exact_mod_cast Nat.lt_mul_of_div_lt (Nat.lt_succ_self _) whole

theorem above_value (d : Digits) : (Digits.mk (d.digits + 1) d.exponent).value = d.value + 10 ^ d.exponent := by
  unfold Digits.value
  push_cast
  ring

theorem Binary.onGrid?_holds {d : Digits} (hit : b.onGrid? step = some d) : b.holds d = true := by
  unfold Binary.onGrid? at hit
  dsimp only at hit
  split at hit
  · cases hit
  · cases hit
    assumption
  · cases hit
    assumption
  · split at hit <;> cases hit <;> assumption

theorem Binary.onGrid?_isSome : (b.onGrid? step).isSome =
    (b.holds (floorAt b.ratio step) || b.holds ⟨(floorAt b.ratio step).digits + 1, step⟩) := by
  unfold Binary.onGrid?
  dsimp only
  cases b.holds (floorAt b.ratio step) <;> cases b.holds ⟨(floorAt b.ratio step).digits + 1, step⟩ <;> dsimp only <;>
    first | rfl | (split <;> rfl)

-- Of two rationals around a number that are nearer to each other than the numbers beside it, one rounds to it.
theorem enclosed_rounds {m : ℕ} {q : ℤ} {low gap : ℚ} (below : low ≤ m * 2 ^ q) (above : m * 2 ^ q < low + gap) (fine : gap < 2 ^ q)
    (finer : m = 2 ^ 52 → gap < 2 ^ q / 2) : Rounds m q low ∨ Rounds m q (low + gap) := by
  have unit : (0 : ℚ) < 2 ^ q := by positivity
  have down := mul_pos (reach_pos m q) unit
  by_cases smallest : m = 2 ^ 52
  · have half := finer smallest
    exact .inr (Rounds.inside (by linarith) (by linarith))
  · have even : reach m q = 1 / 2 := if_neg fun both => smallest both.1
    by_cases near : m * 2 ^ q - low < 2 ^ q / 2
    · refine .inl (Rounds.inside ?_ (by linarith))
      rw [even]
      linarith
    · exact .inr (Rounds.inside (by linarith) (by linarith))

-- On a grid that is finer than the gaps beside the number there is a hit.
theorem Binary.Kept.onGrid?_hit (kept : b.Kept) (fine : (10 : ℚ) ^ step < 2 ^ b.q)
    (finer : b.m = 2 ^ 52 → (10 : ℚ) ^ step < 2 ^ b.q / 2) : (b.onGrid? step).isSome = true := by
  obtain ⟨below, above⟩ := @floorAt_value step b.ratio (scaled_den two_pos)
  have next := above_value (floorAt b.ratio step)
  rw [b.ratio_value] at below above
  rw [Binary.onGrid?_isSome, Bool.or_eq_true, kept.holds_iff, kept.holds_iff]
  change _ ∨ Rounds b.m b.q (Digits.mk ((floorAt b.ratio step).digits + 1) (floorAt b.ratio step).exponent).value
  rw [next]
  exact enclosed_rounds below above fine finer

theorem Binary.firstHit_holds (hit : ∃ c, count ≤ c ∧ c < count + fuel ∧ (b.onGrid? (top - c)).isSome = true) :
    b.holds (b.firstHit top fuel count) = true := by
  induction fuel generalizing count with
  | zero =>
    obtain ⟨c, low, high, -⟩ := hit
    omega
  | succ fuel held =>
    unfold Binary.firstHit
    cases grid : b.onGrid? (top - count) with
    | some d => exact Binary.onGrid?_holds grid
    | none =>
      obtain ⟨c, low, high, some_⟩ := hit
      refine held ⟨c, ?_, by omega, some_⟩
      by_contra other
      obtain rfl : count = c := by omega
      rw [grid] at some_
      cases some_

theorem magnitude_le {r : Ratio} (num : 0 < r.num) (den : 0 < r.den) : (10 : ℚ) ^ magnitude r ≤ r.value := by
  unfold magnitude
  dsimp only
  split
  · rename_i reached
    rwa [Ratio.le_iff (scaled_den (by decide)) den, unit_value] at reached
  · obtain ⟨some_, fills, -⟩ := digits_bounds num
    obtain ⟨-, -, fits⟩ := digits_bounds den
    unfold Ratio.value
    rw [le_div_iff₀ (by exact_mod_cast den)]
    calc (10 : ℚ) ^ ((digitCount r.num : ℤ) - digitCount r.den - 1) * r.den
        ≤ 10 ^ ((digitCount r.num : ℤ) - digitCount r.den - 1) * 10 ^ digitCount r.den :=
          mul_le_mul_of_nonneg_left (by exact_mod_cast fits.le) (by positivity)
      _ = 10 ^ (digitCount r.num - 1) := by
          rw [← zpow_natCast, ← zpow_natCast, ← zpow_add₀ (by norm_num)]
          congr 1
          omega
      _ ≤ r.num := by exact_mod_cast fills

theorem Digits.strip_value (d : Digits) : (d.strip fuel).value = d.value := by
  induction fuel generalizing d with
  | zero => rfl
  | succ fuel held =>
    unfold Digits.strip
    split
    · rename_i divisible
      rw [Bool.and_eq_true, decide_eq_true_iff] at divisible
      rw [held]
      unfold Digits.value
      dsimp only
      have parts : (d.digits : ℚ) = (d.digits / 10 : ℕ) * 10 := by
        exact_mod_cast (by omega : d.digits = d.digits / 10 * 10)
      rw [zpow_add_one₀ (by norm_num), parts]
      ring
    · rfl

-- 53 bits are fewer than 17 digits.
theorem Binary.Kept.hit (kept : b.Kept) : (b.onGrid? (magnitude b.ratio - 16)).isSome = true := by
  have unit : (0 : ℚ) < 2 ^ b.q := by positivity
  have value : 0 < b.ratio.value := by
    rw [b.ratio_value]
    exact mul_pos (by exact_mod_cast kept.canonical.positive) unit
  have top := magnitude_le (Ratio.num_pos value) (scaled_den two_pos)
  rw [b.ratio_value] at top
  have grid : (10 : ℚ) ^ (magnitude b.ratio - 16) * 10 ^ 16 = 10 ^ magnitude b.ratio := by
    rw [zpow_sub₀ (by norm_num)]
    norm_num
  rw [← grid] at top
  refine kept.onGrid?_hit ?_ fun smallest => ?_
  · have short : (b.m : ℚ) < 10 ^ 16 := by exact_mod_cast kept.canonical.short.trans (by norm_num)
    have := mul_lt_mul_of_pos_right short unit
    exact lt_of_mul_lt_mul_right (by linarith) (by positivity : (0 : ℚ) ≤ 10 ^ 16)
  · rw [smallest] at top
    push_cast at top
    linarith

-- The shortest digits round to the number they were taken from.
theorem shortest_rounds {x : Float} (nonzero : x.toBits.toNat % 2 ^ 63 ≠ 0) :
    Rounds (mantissaOf (x.toBits.toNat % 2 ^ 63)) (exponentOf (x.toBits.toNat % 2 ^ 63)) (shortest x).value := by
  have kept := ofFloat_kept nonzero
  obtain ⟨mantissa, exponent, -⟩ := ofFloat_parts x
  have holds : (Binary.ofFloat x).holds ((Binary.ofFloat x).firstHit (magnitude (Binary.ofFloat x).ratio) 17 0) = true :=
    Binary.firstHit_holds ⟨16, by decide, by decide, kept.hit⟩
  rw [kept.holds_iff, mantissa, exponent] at holds
  unfold shortest
  rw [Digits.strip_value]
  exact holds

end ToffoliBench.Decimal

import Mathlib
import ToffoliBench.Proofs.Numbers.Binary

open Float.Model Float.Model.UnpackedFloat

namespace ToffoliBench.Decimal

variable {m : ℕ} {q : ℤ} {v : ℚ}

-- The mantissa is the whole part of the rational; the residual bits compare the rest with a half.
def Measures (e : ExtendedMantissa) (x : ℚ) : Prop :=
  match e.roundBit, e.stickyBit with
  | false, false => x = e.mantissa
  | false, true => e.mantissa < x ∧ x < e.mantissa + 1 / 2
  | true, false => x = e.mantissa + 1 / 2
  | true, true => e.mantissa + 1 / 2 < x ∧ x < e.mantissa + 1

theorem Measures.whole {e : ExtendedMantissa} {x : ℚ} (measures : Measures e x) : (e.mantissa : ℚ) ≤ x ∧ x < e.mantissa + 1 := by
  obtain ⟨n, half, rest⟩ := e
  cases half <;> cases rest <;> simp only [Measures] at measures <;> constructor <;> linarith

theorem Measures.half {e : ExtendedMantissa} {x : ℚ} (measures : Measures e x) : Measures e.shiftRightOne (x / 2) := by
  obtain ⟨n, half, rest⟩ := e
  have parts : (n : ℚ) = 2 * (n / 2 : ℕ) + (n % 2 : ℕ) := by exact_mod_cast (Nat.div_add_mod n 2).symm
  rcases Nat.mod_two_eq_zero_or_one n with even | odd
  · have dropped : (n % 2 != 0) = false := by rw [even]; rfl
    rw [even] at parts
    push_cast at parts
    cases half <;> cases rest <;> simp only [Measures, ExtendedMantissa.shiftRightOne, dropped, Bool.or_false, Bool.or_true] at measures ⊢ <;>
      first | linarith | (constructor <;> linarith)
  · have dropped : (n % 2 != 0) = true := by rw [odd]; rfl
    rw [odd] at parts
    push_cast at parts
    cases half <;> cases rest <;> simp only [Measures, ExtendedMantissa.shiftRightOne, dropped, Bool.or_false, Bool.or_true] at measures ⊢ <;>
      first | linarith | (constructor <;> linarith)

theorem Measures.shift {e : ExtendedMantissa} {x : ℚ} (measures : Measures e x) (n : ℕ) : Measures (e >>> n) (x / 2 ^ n) := by
  change Measures (n.repeat ExtendedMantissa.shiftRightOne e) _
  induction n with
  | zero => simpa [Nat.repeat] using measures
  | succ n held =>
    rw [pow_succ, ← div_div]
    exact held.half

-- The natural number next to the rational; half way between two it is the even one.
def Nearest (m : ℕ) (x : ℚ) : Prop :=
  (m - 1 / 2 ≤ x ∧ x ≤ m + 1 / 2) ∧ (m % 2 = 1 → m - 1 / 2 < x ∧ x < m + 1 / 2)

theorem Measures.rounded {e : ExtendedMantissa} {x : ℚ} (measures : Measures e x) (nearest : Nearest m x) : e.roundedMantissa = m := by
  obtain ⟨n, half, rest⟩ := e
  obtain ⟨⟨above, below⟩, odd⟩ := nearest
  have same {k : ℕ} (up : (k : ℚ) < m + 1) (down : (m : ℚ) < k + 1) : k = m := by
    have up : k < m + 1 := by exact_mod_cast up
    have down : m < k + 1 := by exact_mod_cast down
    omega
  cases half <;> cases rest <;> simp only [Measures] at measures <;>
    simp only [ExtendedMantissa.roundedMantissa, ExtendedMantissa.accuracy, Accuracy.roundToNearestEven]
  case false.false => exact same (by linarith) (by linarith)
  case false.true => exact same (by linarith) (by linarith)
  case true.false =>
    have up : n ≤ m := by exact_mod_cast (by linarith : (n : ℚ) ≤ m)
    have down : m ≤ n + 1 := by exact_mod_cast (by linarith : (m : ℚ) ≤ n + 1)
    have even : m % 2 = 0 := by
      by_contra other
      obtain ⟨low, high⟩ := odd (by omega)
      have up : n < m := by exact_mod_cast (by linarith : (n : ℚ) < m)
      have down : m < n + 1 := by exact_mod_cast (by linarith : (m : ℚ) < n + 1)
      omega
    omega
  case true.true =>
    refine same ?_ ?_ <;> push_cast <;> linarith

theorem target_exponent (n : ℕ) (e : ℤ) :
    Format.binary64.targetExponent (totalExponent n e) = max ((n.log2 : ℤ) + 1 + e - 53) (-1074) := rfl

-- The exponent at which a rational has 53 bits, fewer only at the least exponent.
structure Scaled (v : ℚ) (r : ℤ) : Prop where
  least : -1074 ≤ r
  below : v < 2 ^ (r + 53)
  above : r = -1074 ∨ 2 ^ (r + 52) ≤ v

theorem shifted {n : ℕ} {e : ℤ} {a : Accuracy} (measures : Measures (.ofMantissaAndAccuracy n a) (v / 2 ^ e)) (enough : e ≤ -1074 ∨ 2 ^ 52 ≤ n) :
    ∃ s r, shiftToTargetExponent Format.binary64 n e a = (s, r) ∧ Measures s (v / 2 ^ r) ∧ Scaled v r := by
  have kept : (ExtendedMantissa.ofMantissaAndAccuracy n a).mantissa = n := by
    rcases a with _ | (_ | _ | _) <;> rfl
  obtain ⟨low, high⟩ := measures.whole
  rw [kept, le_div_iff₀ (by positivity)] at low
  rw [kept, div_lt_iff₀ (by positivity)] at high
  have logarithm : 2 ^ 52 ≤ n → 52 ≤ n.log2 := fun large => (Nat.le_log2 (by omega)).mpr large
  have top : ((n : ℚ) + 1) * 2 ^ e ≤ 2 ^ ((n.log2 : ℤ) + 1 + e) := by
    rw [zpow_add₀ two_ne_zero]
    refine mul_le_mul_of_nonneg_right ?_ (by positivity)
    exact_mod_cast Nat.lt_log2_self
  have reached : e + (max ((n.log2 : ℤ) + 1 + e - 53) (-1074) - e).toNat = max ((n.log2 : ℤ) + 1 + e - 53) (-1074) := by
    rcases enough with low | large
    · omega
    · have := logarithm large
      omega
  refine ⟨_, _, rfl, ?_, ?_⟩
  · have shifted := measures.shift (max ((n.log2 : ℤ) + 1 + e - 53) (-1074) - e).toNat
    rwa [div_div, ← zpow_natCast, ← zpow_add₀ two_ne_zero] at shifted
  · rw [target_exponent, reached]
    refine ⟨by omega, high.trans_le (top.trans (zpow_le_zpow_right₀ one_le_two (by omega))), ?_⟩
    by_cases least : max ((n.log2 : ℤ) + 1 + e - 53) (-1074) = -1074
    · exact .inl least
    · have nonzero : n ≠ 0 := by
        rintro rfl
        simp only [Nat.log2_zero] at least
        omega
      refine .inr (le_trans ?_ low)
      rw [show max ((n.log2 : ℤ) + 1 + e - 53) (-1074) + 52 = n.log2 + e by omega, zpow_add₀ two_ne_zero]
      refine mul_le_mul_of_nonneg_right ?_ (by positivity)
      exact_mod_cast Nat.log2_self_le nonzero

-- A number as it is kept has 53 bits, fewer only at the least exponent.
structure Canonical (m : ℕ) (q : ℤ) : Prop where
  positive : 0 < m
  short : m < 2 ^ 53
  least : -1074 ≤ q
  full : q = -1074 ∨ 2 ^ 52 ≤ m

-- How far down what rounds to a number reaches; the number below is nearer where the exponent changes.
def reach (m : ℕ) (q : ℤ) : ℚ := if m = 2 ^ 52 ∧ -1074 < q then 1 / 4 else 1 / 2

-- What rounds to `m · 2^q`; the two ends do when the mantissa is even.
def Rounds (m : ℕ) (q : ℤ) (v : ℚ) : Prop :=
  ((m - reach m q) * 2 ^ q ≤ v ∧ v ≤ (m + 1 / 2) * 2 ^ q) ∧ (m % 2 = 1 → (m - reach m q) * 2 ^ q < v ∧ v < (m + 1 / 2) * 2 ^ q)

theorem reach_pos (m : ℕ) (q : ℤ) : 0 < reach m q := by
  unfold reach
  split <;> norm_num

theorem reach_le : reach m q ≤ 1 / 2 := by
  unfold reach
  split <;> norm_num

theorem Rounds.inside (low : (m - reach m q) * 2 ^ q < v) (high : v < (m + 1 / 2) * 2 ^ q) : Rounds m q v :=
  ⟨⟨low.le, high.le⟩, fun _ => ⟨low, high⟩⟩

theorem Rounds.nearest (rounds : Rounds m q v) : Nearest m (v / 2 ^ q) := by
  obtain ⟨⟨above, below⟩, odd⟩ := rounds
  have positive : (0 : ℚ) < 2 ^ q := by positivity
  rw [← le_div_iff₀ positive] at above
  rw [← div_le_iff₀ positive] at below
  rw [← lt_div_iff₀ positive, ← div_lt_iff₀ positive] at odd
  have := @reach_le m q
  exact ⟨⟨by linarith, below⟩, fun one => ⟨by linarith [odd one], (odd one).2⟩⟩

theorem Rounds.scaled {r : ℤ} (canonical : Canonical m q) (rounds : Rounds m q v) (scaled : Scaled v r) :
    r = q ∨ (r = q - 1 ∧ m = 2 ^ 52 ∧ v < 2 ^ (q + 52)) := by
  obtain ⟨⟨above, below⟩, -⟩ := rounds
  have positive : (0 : ℚ) < 2 ^ q := by positivity
  have top : v < 2 ^ (q + 53) := by
    refine below.trans_lt ?_
    rw [add_comm q, zpow_add₀ two_ne_zero]
    refine mul_lt_mul_of_pos_right ?_ positive
    have short : (m : ℚ) + 1 ≤ 2 ^ 53 := by exact_mod_cast canonical.short
    norm_num at short ⊢
    linarith
  have upper : r ≤ q := by
    rcases scaled.above with least | full
    · exact least ▸ canonical.least
    · have := (zpow_lt_zpow_iff_right₀ one_lt_two).mp (full.trans_lt top)
      omega
  have least := scaled.least
  rcases canonical.full with same | full
  · exact .inl (by omega)
  · by_cases high : (2 : ℚ) ^ (q + 52) ≤ v
    · have := (zpow_lt_zpow_iff_right₀ one_lt_two).mp (high.trans_lt scaled.below)
      exact .inl (by omega)
    · have high := lt_of_not_ge high
      have bottom : ((m : ℚ) - reach m q) < 2 ^ 52 := by
        rw [add_comm q, zpow_add₀ two_ne_zero] at high
        exact_mod_cast lt_of_mul_lt_mul_right (above.trans_lt high) positive.le
      have smallest : m = 2 ^ 52 := by
        have := @reach_le m q
        have below : m < 2 ^ 52 + 1 := by exact_mod_cast (by linarith : (m : ℚ) < 2 ^ 52 + 1)
        omega
      have half : (2 : ℚ) ^ (q + 51) ≤ v := by
        refine le_trans ?_ above
        rw [add_comm q, zpow_add₀ two_ne_zero]
        refine mul_le_mul_of_nonneg_right ?_ positive.le
        have := @reach_le m q
        rw [smallest] at this ⊢
        norm_num at this ⊢
        linarith
      have := (zpow_lt_zpow_iff_right₀ one_lt_two).mp (half.trans_lt scaled.below)
      by_cases same : r = q
      · exact .inl same
      · exact .inr ⟨by omega, smallest, high⟩

-- Nothing is left to shift out of a number as it is kept.
theorem Canonical.settled (canonical : Canonical m q) : shiftToTargetExponent Format.binary64 m q .exact = (⟨m, false, false⟩, q) := by
  have logarithm : m.log2 < 53 := (Nat.log2_lt canonical.positive.ne').mpr canonical.short
  have none : (max ((m.log2 : ℤ) + 1 + q - 53) (-1074) - q).toNat = 0 := by
    have := canonical.least
    omega
  unfold shiftToTargetExponent shiftToExponent
  rw [target_exponent]
  dsimp only
  rw [none]
  exact Prod.ext rfl (add_zero q)

theorem carried_settled (above : -1074 < q) : shiftToTargetExponent Format.binary64 (2 ^ 53) (q - 1) .exact = (⟨2 ^ 52, false, false⟩, q) := by
  have one : (max (((2 ^ 53 : ℕ).log2 : ℤ) + 1 + (q - 1) - 53) (-1074) - (q - 1)).toNat = 1 := by
    rw [Nat.log2_two_pow]
    omega
  unfold shiftToTargetExponent shiftToExponent
  rw [target_exponent]
  dsimp only
  rw [one]
  exact Prod.ext rfl (sub_add_cancel q 1)

theorem round_measured {s : Sign} {n : ℕ} {e : ℤ} {a : Accuracy} (canonical : Canonical m q) (rounds : Rounds m q v)
    (measures : Measures (.ofMantissaAndAccuracy n a) (v / 2 ^ e)) (enough : e ≤ -1074 ∨ 2 ^ 52 ≤ n) :
    roundWithAccuracy Format.binary64 s n e a = .finite s m q canonical.positive := by
  obtain ⟨shift, r, first, held, scaled⟩ := shifted measures enough
  have second : shiftToTargetExponent Format.binary64 shift.roundedMantissa r .exact = (⟨m, false, false⟩, q) := by
    rcases rounds.scaled canonical scaled with rfl | ⟨rfl, rfl, below⟩
    · rw [held.rounded rounds.nearest, canonical.settled]
    · have up : Nearest (2 ^ 53) (v / 2 ^ (q - 1)) := by
        obtain ⟨⟨above, -⟩, -⟩ := rounds
        have positive : (0 : ℚ) < 2 ^ (q - 1) := by positivity
        have double : (2 : ℚ) ^ q = 2 ^ (q - 1) * 2 := by rw [← zpow_add_one₀ two_ne_zero, sub_add_cancel]
        have least := scaled.least
        rw [reach, if_pos ⟨rfl, by omega⟩, double] at above
        rw [show q + 52 = q - 1 + 53 by ring, zpow_add₀ two_ne_zero] at below
        refine ⟨⟨?_, ?_⟩, by norm_num⟩
        · rw [le_div_iff₀ positive]
          push_cast at above ⊢
          linarith
        · rw [div_le_iff₀ positive]
          push_cast
          norm_num at below ⊢
          linarith
      have least := scaled.least
      rw [held.rounded up, carried_settled (by omega)]
  unfold roundWithAccuracy
  rw [first]
  dsimp only
  rw [second]
  exact dif_neg canonical.positive.ne'

end ToffoliBench.Decimal

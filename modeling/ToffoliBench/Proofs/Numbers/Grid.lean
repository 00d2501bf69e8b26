import Mathlib
import ToffoliBench.Proofs.Numbers.Scientific

open Float.Model Float.Model.UnpackedFloat

namespace ToffoliBench.Decimal

variable {m n : ℕ} {q : ℤ} {j k : ℤ} {u w : UnpackedFloat} {x y : Float}

-- So many halves, no more of them than 53 bits can count. There are none in either zero.
inductive Halved : UnpackedFloat → ℤ → Prop
  | zero (s : Sign) : Halved (.zero s) 0
  | finite {s : Sign} {m n : ℕ} {q : ℤ} (canonical : Canonical m q) (value : (m : ℚ) * 2 ^ q = n / 2) (short : n < 2 ^ 53) :
      Halved (.finite s m q canonical.positive) (s.apply n)

theorem halves_canonical (positive : 0 < n) (short : n < 2 ^ 53) : ∃ m q, Canonical m q ∧ (m : ℚ) * 2 ^ q = n / 2 := by
  obtain ⟨canonical, full, value⟩ := widened_canonical positive short
  refine ⟨_, (n.log2 : ℤ) - 53, ⟨canonical.positive, canonical.short, by omega, .inr full⟩, ?_⟩
  rw [show (n.log2 : ℤ) - 53 = (n.log2 : ℤ) - 52 - 1 by ring, zpow_sub_one₀ two_ne_zero, ← mul_assoc, value, div_eq_mul_inv]

theorem Halved.round {s : Sign} {p : ℕ} {e : ℤ} (positive : 0 < p) (value : (p : ℚ) * 2 ^ e = n / 2) (short : n < 2 ^ 53) :
    Halved (UnpackedFloat.round Format.binary64 s p e) (s.apply n) := by
  have some_ : 0 < n := by
    have above : (0 : ℚ) < n / 2 := value ▸ by positivity
    exact_mod_cast (div_pos_iff_of_pos_right two_pos).mp above
  obtain ⟨m, q, canonical, same⟩ := halves_canonical some_ short
  rw [round_exact canonical positive (value.trans same.symm)]
  exact .finite canonical same short

theorem Halved.normalize {a e : ℤ} (value : (a : ℚ) * 2 ^ e = k / 2) (short : k.natAbs < 2 ^ 53) :
    Halved (UnpackedFloat.normalize Format.binary64 a e .positive) k := by
  have power : (0 : ℚ) < 2 ^ e := by positivity
  have size : (a.natAbs : ℚ) * 2 ^ e = k.natAbs / 2 := by
    have sizes : |(a : ℚ) * 2 ^ e| = |(k : ℚ) / 2| := by rw [value]
    rwa [abs_mul, abs_div, abs_of_pos power, abs_two, ← Int.cast_abs, ← Int.cast_abs, ← Nat.cast_natAbs, ← Nat.cast_natAbs] at sizes
  unfold UnpackedFloat.normalize
  rcases lt_trichotomy a 0 with below | rfl | above
  · have less : k < 0 := by
      have product : (a : ℚ) * 2 ^ e < 0 := mul_neg_of_neg_of_pos (by exact_mod_cast below) power
      exact_mod_cast (by linarith : (k : ℚ) < 0)
    have signed : Sign.negative.apply k.natAbs = k := by simp only [Sign.apply]; omega
    rw [Int.compare_eq_lt.mpr below, ← signed]
    exact .round (by omega) (by rwa [show (-a).toNat = a.natAbs by omega]) short
  · have none : k = 0 := by
      rw [Int.cast_zero, zero_mul] at value
      exact_mod_cast (div_eq_zero_iff.mp value.symm).resolve_right two_ne_zero
    rw [none]
    exact .zero _
  · have more : 0 < k := by
      have product : 0 < (a : ℚ) * 2 ^ e := mul_pos (by exact_mod_cast above) power
      exact_mod_cast (by linarith : (0 : ℚ) < k)
    have signed : Sign.positive.apply k.natAbs = k := by simp only [Sign.apply]; omega
    rw [Int.compare_eq_gt.mpr above, ← signed]
    exact .round (by omega) (by rwa [show a.toNat = a.natAbs by omega]) short

theorem Halved.neg (left : Halved u j) : Halved u.neg (-j) := by
  cases left with
  | zero s => exact .zero _
  | @finite s m n q canonical value short =>
    have flipped : -s.apply n = (-s).apply n := by cases s <;> simp [Sign.apply]
    exact flipped ▸ .finite canonical value short

-- Both mantissas are brought to the lower of the two exponents.
theorem lowered {s : Sign} {e f : ℤ} (below : f ≤ e) (value : (m : ℚ) * 2 ^ e = n / 2) :
    ((s.apply (m <<< (e - f).toNat : ℕ) : ℤ) : ℚ) * 2 ^ f = (s.apply n : ℤ) / 2 := by
  have moved : ((m <<< (e - f).toNat : ℕ) : ℚ) * 2 ^ f = n / 2 := by
    have power : (2 : ℚ) ^ e = 2 ^ (e - f).toNat * 2 ^ f := by
      rw [← zpow_natCast, ← zpow_add₀ two_ne_zero]
      congr 1
      omega
    rw [← value, power, Nat.shiftLeft_eq]
    push_cast
    ring
  cases s with
  | positive => simpa only [Sign.apply, Int.cast_natCast] using moved
  | negative =>
    simp only [Sign.apply, Int.cast_neg, Int.cast_natCast]
    linarith

theorem Halved.add (left : Halved u j) (right : Halved w k) (short : (j + k).natAbs < 2 ^ 53) :
    Halved (UnpackedFloat.add Format.binary64 u w) (j + k) := by
  cases left with
  | zero s =>
    rw [Int.zero_add]
    cases right with
    | zero t =>
      unfold UnpackedFloat.add
      dsimp only
      split <;> exact .zero _
    | finite canonical value fits => exact .finite canonical value fits
  | @finite s m n q canonical value fits =>
    cases right with
    | zero t =>
      rw [Int.add_zero]
      exact .finite canonical value fits
    | @finite t l p r canonical' value' fits' =>
      refine .normalize ?_ short
      rw [Int.cast_add, Int.cast_add, add_mul, lowered (min_le_left q r) value, lowered (min_le_right q r) value', add_div]

-- Half of a number is exact, as long as it is a half number itself.
theorem Halved.half (left : Halved u k) (even : k = 2 * j) :
    Halved (UnpackedFloat.div Format.binary64 u (.finite .positive (2 ^ 52) (-51) (by decide))) j := by
  cases left with
  | zero s =>
    obtain rfl : j = 0 := by omega
    exact .zero _
  | @finite s m n q canonical value short =>
    obtain ⟨p, rfl, rfl⟩ : ∃ p, n = 2 * p ∧ j = s.apply p := by
      refine ⟨j.natAbs, ?_⟩
      cases s <;> simp only [Sign.apply] at even ⊢ <;> omega
    have some_ : 0 < p := by
      have above : (0 : ℚ) < (2 * p : ℕ) / 2 := value ▸ mul_pos (by exact_mod_cast canonical.positive) (by positivity)
      exact_mod_cast (by push_cast at above; linarith : (0 : ℚ) < p)
    obtain ⟨l, r, canonical', same⟩ := halves_canonical some_ (by omega)
    have quotient : (m : ℚ) * 2 ^ q / ((2 ^ 52 : ℕ) * 2 ^ (-51 : ℤ)) = l * 2 ^ r := by
      rw [value, same]
      norm_num
    have kept : s / .positive = s := by cases s <;> rfl
    rw [quotient_rounds canonical' (quotient ▸ rounds_self), kept]
    exact .finite canonical' same (by omega)

theorem Halved.repacked (left : Halved u k) : UnpackedFloat.unpack Format.binary64 (UnpackedFloat.pack Format.binary64 u) = u := by
  cases left with
  | zero s => exact unpack_packedZero
  | @finite s m n q canonical value short =>
    refine canonical.unpacked ?_ s
    have small : (2 : ℚ) ^ q < 2 ^ (53 : ℤ) := by
      have one : (1 : ℚ) ≤ m := by exact_mod_cast canonical.positive
      have fits : (n : ℚ) < 2 ^ 53 := by exact_mod_cast short
      calc (2 : ℚ) ^ q ≤ m * 2 ^ q := le_mul_of_one_le_left (by positivity) one
        _ = n / 2 := value
        _ ≤ n := half_le_self (Nat.cast_nonneg n)
        _ < 2 ^ (53 : ℤ) := by exact_mod_cast fits
    have := (zpow_lt_zpow_iff_right₀ one_lt_two).mp small
    omega

theorem sub_add_neg (u w : UnpackedFloat) : UnpackedFloat.sub Format.binary64 u w = UnpackedFloat.add Format.binary64 u w.neg := by
  have opposite : ∀ (s : Sign) (a : ℤ), (-s).apply a = -s.apply a := by
    intro s a
    cases s <;> simp [Sign.apply]
  cases u <;> cases w <;> grind [UnpackedFloat.sub, UnpackedFloat.add, UnpackedFloat.neg]

-- The coordinate is so many halves.
def Halves (x : Float) (k : ℤ) : Prop := Halved x.toModel.unpack k

theorem Halved.packed {x : Float} (held : Halved u k) (made : x.toModel = Float.Model.pack u) : Halves x k := by
  have same : x.toModel.unpack = u := by
    rw [made]
    exact held.repacked
  exact (congrArg (Halved · k) same).mpr held

theorem Halves.add (left : Halves x j) (right : Halves y k) (short : (j + k).natAbs < 2 ^ 53) : Halves (x + y) (j + k) :=
  (Halved.add left right short).packed rfl

theorem Halves.neg (left : Halves x j) : Halves (-x) (-j) := (Halved.neg left).packed rfl

theorem Halves.sub (left : Halves x j) (right : Halves y k) (short : (j - k).natAbs < 2 ^ 53) : Halves (x - y) (j - k) := by
  have sum : Halved (UnpackedFloat.sub Format.binary64 x.toModel.unpack y.toModel.unpack) (j - k) := by
    rw [sub_add_neg, sub_eq_add_neg]
    exact Halved.add left (Halved.neg right) (by omega)
  exact sum.packed rfl

theorem Halves.half (left : Halves x (2 * j)) : Halves (x / 2) j := (Halved.half left rfl).packed rfl

theorem toFloat_packed (positive : 0 < n) (short : n < 2 ^ 53) : n.toFloat.toModel =
    Float.Model.pack (.finite .positive (n * 2 ^ (52 - n.log2)) ((n.log2 : ℤ) - 52) (widened_canonical positive short).1.positive) := by
  obtain ⟨canonical, -, value⟩ := widened_canonical positive short
  refine short_rounds (e := 0) (s := false) canonical positive ⟨short, by decide⟩ ?_
  rw [if_neg Bool.false_ne_true, pow_zero, mul_one, ← value]
  exact rounds_self

theorem toFloat_halves (short : 2 * n < 2 ^ 53) : Halves n.toFloat (2 * n) := by
  rcases Nat.eq_zero_or_pos n with rfl | positive
  · exact .zero .positive
  · obtain ⟨canonical, -, value⟩ := widened_canonical positive (by omega : n < 2 ^ 53)
    refine (Halved.finite (s := .positive) (n := 2 * n) canonical ?_ short).packed (toFloat_packed positive (by omega))
    rw [value]
    push_cast
    ring

theorem halves_zero : Halves 0 0 := .zero .positive

theorem halves_one : Halves 1 2 := toFloat_halves (n := 1) (by decide)

theorem halves_half : Halves 0.5 1 := by
  have one : Halved (.finite .positive (2 ^ 52) (-53) (by decide)) 1 :=
    .finite (n := 1) ⟨by decide, by decide, by decide, by decide⟩ (by norm_num) (by decide)
  exact one.packed rfl

theorem halves_none : Halves x 0 ↔ ∃ s, x.toModel.unpack = .zero s := by
  unfold Halves
  constructor
  · intro none
    generalize x.toModel.unpack = u at none
    obtain ⟨k, same⟩ : ∃ k : ℤ, k = 0 := ⟨0, rfl⟩
    rw [← same] at none
    cases none with
    | zero s => exact ⟨s, rfl⟩
    | @finite s m n q canonical value short =>
      have empty : n = 0 := by cases s <;> simpa [Sign.apply] using same
      rw [empty, Nat.cast_zero, zero_div] at value
      have := canonical.positive
      have : (0 : ℚ) < m * 2 ^ q := by positivity
      linarith
  · rintro ⟨s, same⟩
    rw [same]
    exact .zero s

-- What counts down from zero is less than zero, whichever zero it is.
theorem Halves.below (counted : Halves x k) (less : k < 0) (none : Halves y 0) : x < y := by
  obtain ⟨t, zero⟩ := halves_none.mp none
  rw [lt_iff_compare, zero]
  unfold Halves at counted
  generalize x.toModel.unpack = u at counted
  cases counted with
  | zero s => exact absurd less (lt_irrefl 0)
  | @finite s m n q canonical value short =>
    cases s with
    | positive => exact absurd less (not_lt.mpr (Int.natCast_nonneg n))
    | negative => rfl

theorem unpack_injective (same : x.toModel.unpack = y.toModel.unpack) : x = y := by
  have bits := (unpack_inj_of_valid x.toModel.valid y.toModel.valid).mp same
  exact bits_injective (congrArg BitVec.toNat bits)

-- Of all numbers only the negative zero is changed when nothing is added to it.
theorem add_none (plain : x ≠ -0) (none : Halves y 0) : x + y = x := by
  obtain ⟨t, zero⟩ := halves_none.mp none
  have other : x.toModel.unpack ≠ .zero .negative := fun same => plain (unpack_injective same)
  have kept : UnpackedFloat.add Format.binary64 x.toModel.unpack (.zero t) = x.toModel.unpack := by
    generalize x.toModel.unpack = u at other
    cases u with
    | zero s => cases s <;> cases t <;> first | rfl | exact absurd rfl other
    | _ => rfl
  refine unpack_injective ?_
  change UnpackedFloat.unpack Format.binary64 (UnpackedFloat.pack Format.binary64 (UnpackedFloat.add _ x.toModel.unpack y.toModel.unpack)) = _
  rw [zero, kept]
  exact congrArg (UnpackedFloat.unpack Format.binary64) (pack_unpack_of_valid x.toModel.valid)

-- The sign that is packed is the sign that stands there.
theorem positive_packed {e : ℤ} (some_ : 0 < m) : (Float.Model.pack (.finite .positive m e some_)).unpack ≠ .zero .negative := by
  intro same
  have bits := congrArg unpackSign ((unpack_eq_zero_iff_of_valid valid_pack).mp same)
  have other : unpackSign (UnpackedFloat.pack Format.binary64 (.finite .positive m e some_)) = Sign.positive.toBitVec := by
    unfold UnpackedFloat.pack
    dsimp only
    split
    · exact unpackSign_packComponents ..
    · split <;> exact unpackSign_packComponents ..
  rw [other, packedZero, unpackSign_packComponents] at bits
  exact absurd bits (by decide)

theorem rounded_packed (m : ℕ) (e : ℤ) (a : Accuracy) :
    (Float.Model.pack (roundWithAccuracy Format.binary64 .positive m e a)).unpack ≠ .zero .negative := by
  unfold roundWithAccuracy
  generalize shiftToTargetExponent Format.binary64 m e a = first
  obtain ⟨shift, r⟩ := first
  dsimp only
  generalize shiftToTargetExponent Format.binary64 shift.roundedMantissa r .exact = second
  obtain ⟨last, p⟩ := second
  dsimp only
  split
  · intro same
    cases UnpackedFloat.zero.inj (unpack_packedZero.symm.trans same)
  · exact positive_packed _

-- A count is never the negative zero, however far beyond 53 bits it is.
theorem toFloat_plain (n : ℕ) : n.toFloat ≠ -0 := by
  intro same
  have zero : n.toFloat.toModel.unpack = .zero .negative := congrArg (·.toModel.unpack) same
  rcases Nat.eq_zero_or_pos n with rfl | positive
  · cases UnpackedFloat.zero.inj ((show (Nat.toFloat 0).toModel.unpack = .zero .positive from rfl).symm.trans zero)
  by_cases short : n < 2 ^ 53
  · have packed := congrArg Float.Model.unpack (toFloat_packed positive short)
    exact positive_packed (widened_canonical positive short).1.positive (packed.symm.trans zero)
  · have model : n.toFloat.toModel = Float.Model.pack (UnpackedFloat.ofScientific Format.binary64 n 0) := by
      change (Float.ofScientific n false 0).toModel = _
      unfold Float.ofScientific
      rw [dif_neg fun small => short small.1]
      rfl
    have product : ∀ {a b : ℕ} {e f : ℤ} (one : 0 < a) (other : 0 < b),
        UnpackedFloat.mul Format.binary64 (.finite .positive a e one) (.finite .positive b f other) =
          roundWithAccuracy Format.binary64 .positive (a * b) (e + f) .exact := fun _ _ => rfl
    have bits : (2 ^ Format.binary64.exponentBits : ℤ) = 2048 := by decide
    rw [model] at zero
    unfold UnpackedFloat.ofScientific at zero
    rw [dif_neg positive.ne', bits, if_neg (by decide), if_neg (by omega), if_pos (le_refl 0), product] at zero
    exact rounded_packed _ _ _ zero

end ToffoliBench.Decimal

import Mathlib
import ToffoliBench.Proofs.Numbers.Rounding

open Float.Model Float.Model.UnpackedFloat

namespace ToffoliBench.Decimal

variable {m : ℕ} {q : ℤ} {v : ℚ}

theorem zpow_up {base : ℚ} {e : ℤ} {k : ℕ} (same : e = k) : base ^ e = base ^ k := by rw [same, zpow_natCast]

theorem zpow_down {base : ℚ} {e : ℤ} {k : ℕ} (same : e = -k) : base ^ e = 1 / base ^ k := by
  rw [same, zpow_neg, zpow_natCast, one_div]

theorem rounds_self : Rounds m q (m * 2 ^ q) := by
  have positive : (0 : ℚ) < 2 ^ q := by positivity
  have down := mul_pos (reach_pos m q) positive
  exact Rounds.inside (by linarith) (by linarith)

theorem product_rounds {s t : Sign} {n k : ℕ} {e f : ℤ} {some_ : 0 < n} {more : 0 < k} (canonical : Canonical m q)
    (rounds : Rounds m q (n * 2 ^ e * (k * 2 ^ f))) (enough : 2 ^ 52 ≤ n * k) :
    mul Format.binary64 (.finite s n e some_) (.finite t k f more) = .finite (s * t) m q canonical.positive := by
  refine round_measured canonical rounds ?_ (.inr enough)
  change _ = ((n * k : ℕ) : ℚ)
  rw [zpow_add₀ two_ne_zero]
  push_cast
  field_simp

theorem fraction_measured {n rest k : ℕ} (small : rest < k) :
    Measures (.ofMantissaAndAccuracy n (accuracyOfFraction rest k)) (n + rest / k) := by
  have positive : (0 : ℚ) < k := by exact_mod_cast Nat.zero_lt_of_lt small
  have below : (rest : ℚ) / k < 1 := (div_lt_one positive).mpr (by exact_mod_cast small)
  unfold accuracyOfFraction
  split
  · rename_i none
    rw [none, Nat.cast_zero, zero_div, add_zero]
    rfl
  · rename_i something
    have above : (0 : ℚ) < rest / k := div_pos (by exact_mod_cast Nat.pos_of_ne_zero something) positive
    cases half : compare (2 * rest) k with
    | lt =>
      have : (rest : ℚ) / k < 1 / 2 := by
        rw [div_lt_div_iff₀ positive two_pos]
        exact_mod_cast (by have := Nat.compare_eq_lt.mp half; omega : rest * 2 < 1 * k)
      simp only [ExtendedMantissa.ofMantissaAndAccuracy, Measures]
      exact ⟨by linarith, by linarith⟩
    | eq =>
      have : (rest : ℚ) / k = 1 / 2 := by
        rw [div_eq_div_iff positive.ne' two_ne_zero]
        exact_mod_cast (by have := Nat.compare_eq_eq.mp half; omega : rest * 2 = 1 * k)
      simp only [ExtendedMantissa.ofMantissaAndAccuracy, Measures, this]
    | gt =>
      have : 1 / 2 < (rest : ℚ) / k := by
        rw [div_lt_div_iff₀ two_pos positive]
        exact_mod_cast (by have := Nat.compare_eq_gt.mp half; omega : 1 * k < rest * 2)
      simp only [ExtendedMantissa.ofMantissaAndAccuracy, Measures]
      exact ⟨by linarith, by linarith⟩

theorem quotient_rounds {s t : Sign} {n k : ℕ} {e f : ℤ} {some_ : 0 < n} {more : 0 < k} (canonical : Canonical m q)
    (rounds : Rounds m q (n * 2 ^ e / (k * 2 ^ f))) :
    div Format.binary64 (.finite s n e some_) (.finite t k f more) = .finite (s / t) m q canonical.positive := by
  have target : Format.binary64.targetExponent (totalExponent n e - totalExponent k f) =
      max ((n.log2 : ℤ) + 1 + e - (k.log2 + 1 + f) - 53) (-1074) := rfl
  refine round_measured canonical rounds ?_ ?_
  all_goals
    rw [target, Nat.shiftLeft_eq]
    generalize shift : (e - f - min (e - f) (max ((n.log2 : ℤ) + 1 + e - (k.log2 + 1 + f) - 53) (-1074))).toNat = places
  · have moved : min (e - f) (max ((n.log2 : ℤ) + 1 + e - (k.log2 + 1 + f) - 53) (-1074)) = e - f - places := by omega
    have measures := @fraction_measured (n * 2 ^ places / k) (n * 2 ^ places % k) k (Nat.mod_lt _ more)
    have positive : (0 : ℚ) < k := by exact_mod_cast more
    have whole : (k : ℚ) * (n * 2 ^ places / k : ℕ) + (n * 2 ^ places % k : ℕ) = n * 2 ^ places := by
      exact_mod_cast Nat.div_add_mod (n * 2 ^ places) k
    have value : ((n * 2 ^ places / k : ℕ) : ℚ) + (n * 2 ^ places % k : ℕ) / k = n * 2 ^ e / (k * 2 ^ f) / 2 ^ (e - f - places) := by
      rw [zpow_sub₀ two_ne_zero, zpow_sub₀ two_ne_zero, zpow_natCast]
      field_simp
      linarith
    rw [moved, ← value]
    exact measures
  · by_cases low : max ((n.log2 : ℤ) + 1 + e - (k.log2 + 1 + f) - 53) (-1074) = -1074
    · exact .inl (by omega)
    · have wide : k.log2 + 53 ≤ n.log2 + places := by omega
      refine .inr ((Nat.le_div_iff_mul_le more).mpr ?_)
      calc 2 ^ 52 * k ≤ 2 ^ 52 * 2 ^ (k.log2 + 1) := Nat.mul_le_mul_left _ Nat.lt_log2_self.le
        _ = 2 ^ (k.log2 + 53) := by ring
        _ ≤ 2 ^ (n.log2 + places) := Nat.pow_le_pow_right two_pos wide
        _ = 2 ^ n.log2 * 2 ^ places := pow_add 2 _ _
        _ ≤ n * 2 ^ places := Nat.mul_le_mul_right _ (Nat.log2_self_le some_.ne')

-- The bits below the sign.
def lowBits (m : ℕ) (q : ℤ) : ℕ := (q + 1074).toNat * 2 ^ 52 + m

theorem Canonical.mantissa (canonical : Canonical m q) : mantissaOf (lowBits m q) = m := by
  obtain ⟨positive, short, least, full⟩ := canonical
  unfold mantissaOf lowBits
  split <;> omega

theorem Canonical.exponent (canonical : Canonical m q) : exponentOf (lowBits m q) = q := by
  obtain ⟨positive, short, least, full⟩ := canonical
  unfold exponentOf lowBits
  split <;> omega

theorem Canonical.ranged (canonical : Canonical m q) (bounded : q ≤ 971) : lowBits m q < 2047 * 2 ^ 52 := by
  obtain ⟨positive, short, least, full⟩ := canonical
  unfold lowBits
  omega

theorem canonical_bits {low : ℕ} (nonzero : low ≠ 0) : Canonical (mantissaOf low) (exponentOf low) := by
  unfold mantissaOf exponentOf
  refine ⟨?_, ?_, ?_, ?_⟩ <;> split <;> omega

theorem lowBits_eq (low : ℕ) : lowBits (mantissaOf low) (exponentOf low) = low := by
  unfold lowBits mantissaOf exponentOf
  split <;> omega

theorem Canonical.packed (canonical : Canonical m q) (bounded : q ≤ 971) (s : Sign) :
    (UnpackedFloat.pack Format.binary64 (.finite s m q canonical.positive)).toNat = s.toBitVec.toNat * 2 ^ 63 + lowBits m q := by
  have nonzero : lowBits m q ≠ 0 := by
    have := canonical.positive
    unfold lowBits
    omega
  have mantissa : 0 < mantissaOf (lowBits m q) := by
    rw [canonical.mantissa]
    exact canonical.positive
  have packed := pack_finite (s := s) nonzero (canonical.ranged bounded) mantissa
  simpa only [canonical.mantissa, canonical.exponent] using packed

theorem unpack_ranged {b : BitVec 64} (ranged : b.toNat % 2 ^ 63 < 2047 * 2 ^ 52) : (UnpackedFloat.unpack Format.binary64 b).isFinite = true := by
  have exponent := exponent_bits b
  have top : (-1#11).toNat = 2047 := by decide
  unfold UnpackedFloat.unpack
  dsimp only
  rw [if_neg]
  · split
    · split <;> rfl
    · rfl
  · intro all
    rw [all, top] at exponent
    omega

-- What is packed as it is kept is unpacked again.
theorem Canonical.unpacked (canonical : Canonical m q) (bounded : q ≤ 971) (s : Sign) :
    UnpackedFloat.unpack Format.binary64 (UnpackedFloat.pack Format.binary64 (.finite s m q canonical.positive)) =
      .finite s m q canonical.positive := by
  have bits := canonical.packed bounded s
  have ranged := canonical.ranged bounded
  have positive := canonical.positive
  have nonzero : lowBits m q ≠ 0 := by
    unfold lowBits
    omega
  have sign : s.toBitVec.toNat < 2 := s.toBitVec.isLt
  generalize UnpackedFloat.pack Format.binary64 (.finite s m q canonical.positive) = b at bits ⊢
  have low : b.toNat % 2 ^ 63 = lowBits m q := by omega
  obtain ⟨-, ⟨none, -⟩ | ⟨-, _, unpacked⟩⟩ := unpack_finite (unpack_ranged (low ▸ ranged))
  · omega
  · have signed : signOf b.toNat = s := by
      have zero : Sign.positive.toBitVec.toNat = 0 := rfl
      have one : Sign.negative.toBitVec.toNat = 1 := rfl
      unfold signOf
      cases s with
      | positive => rw [if_pos (by omega)]
      | negative => rw [if_neg (by omega)]
    simp only [unpacked, low, signed, canonical.mantissa, canonical.exponent]

-- A number is its own rounding, in whatever form it comes.
theorem round_exact {s : Sign} {n : ℕ} {e : ℤ} (canonical : Canonical m q) (positive : 0 < n) (same : (n : ℚ) * 2 ^ e = m * 2 ^ q) :
    UnpackedFloat.round Format.binary64 s n e = .finite s m q canonical.positive := by
  unfold UnpackedFloat.round
  rw [target_exponent]
  unfold decreaseExponent
  dsimp only
  generalize shift : (e - max ((n.log2 : ℤ) + 1 + e - 53) (-1074)).toNat = places
  refine round_measured canonical rounds_self ?_ ?_
  · have value : ((n <<< places : ℕ) : ℚ) = m * 2 ^ q / 2 ^ (e - places) := by
      rw [← same, Nat.shiftLeft_eq, zpow_sub₀ two_ne_zero, zpow_natCast]
      push_cast
      field_simp
    exact value.symm
  · by_cases low : e - places ≤ -1074
    · exact .inl low
    · have wide : 52 ≤ n.log2 + places := by omega
      refine .inr ?_
      calc 2 ^ 52 ≤ 2 ^ (n.log2 + places) := Nat.pow_le_pow_right two_pos wide
        _ = 2 ^ n.log2 * 2 ^ places := pow_add 2 _ _
        _ ≤ n <<< places := Nat.shiftLeft_eq n places ▸ Nat.mul_le_mul_right _ (Nat.log2_self_le positive.ne')

section whole

variable {n : ℕ} (positive : 0 < n) (short : n < 2 ^ 53)
include positive short

-- A whole number of at most 53 bits, brought to 53 bits.
theorem widened_canonical : Canonical (n * 2 ^ (52 - n.log2)) ((n.log2 : ℤ) - 52) ∧ 2 ^ 52 ≤ n * 2 ^ (52 - n.log2) ∧
    ((n * 2 ^ (52 - n.log2) : ℕ) : ℚ) * 2 ^ ((n.log2 : ℤ) - 52) = n := by
  have logarithm : n.log2 < 53 := (Nat.log2_lt positive.ne').mpr short
  have widened : 2 ^ n.log2 * 2 ^ (52 - n.log2) = 2 ^ 52 := by
    rw [← pow_add]
    congr 1
    omega
  have full : 2 ^ 52 ≤ n * 2 ^ (52 - n.log2) := widened ▸ Nat.mul_le_mul_right _ (Nat.log2_self_le positive.ne')
  have fits : n * 2 ^ (52 - n.log2) < 2 ^ 53 := by
    have below := Nat.mul_lt_mul_of_pos_right (@Nat.lt_log2_self n) (Nat.two_pow_pos (52 - n.log2))
    rw [pow_succ, mul_right_comm, widened] at below
    omega
  have power : (2 : ℚ) ^ ((n.log2 : ℤ) - 52) = 1 / 2 ^ (52 - n.log2) := zpow_down (by omega)
  refine ⟨⟨by omega, fits, by omega, .inr full⟩, full, ?_⟩
  rw [power]
  push_cast
  field_simp

theorem normalize_whole : UnpackedFloat.normalize Format.binary64 (n : ℤ) 0 .positive =
    .finite .positive (n * 2 ^ (52 - n.log2)) ((n.log2 : ℤ) - 52) (widened_canonical positive short).1.positive := by
  obtain ⟨canonical, -, value⟩ := widened_canonical positive short
  unfold UnpackedFloat.normalize
  rw [Int.compare_eq_gt.mpr (by omega)]
  dsimp only
  rw [Int.toNat_natCast]
  exact round_exact canonical positive (by rw [zpow_zero, mul_one, value])

theorem whole_exact : ∃ k f, ∃ canonical : Canonical k f, 2 ^ 52 ≤ k ∧ (k : ℚ) * 2 ^ f = n ∧
    n.toUInt64.toFloat.toModel.unpack = .finite .positive k f canonical.positive := by
  obtain ⟨canonical, full, value⟩ := widened_canonical positive short
  have logarithm : n.log2 < 53 := (Nat.log2_lt positive.ne').mpr short
  have kept : n.toUInt64.toNat = n := by
    rw [Nat.toUInt64, UInt64.toNat_ofNat']
    omega
  have model : n.toUInt64.toFloat.toModel.unpack = UnpackedFloat.unpack Format.binary64
      (UnpackedFloat.pack Format.binary64 (UnpackedFloat.normalize Format.binary64 (n.toUInt64.toNat : ℤ) 0 .positive)) := rfl
  refine ⟨_, _, canonical, full, value, ?_⟩
  rw [model, kept, normalize_whole positive short, canonical.unpacked (by omega)]

end whole

-- The number with these bits is the whole number, and has all its 53 bits.
def Spells (low n : ℕ) : Prop :=
  low < 2047 * 2 ^ 52 ∧ -52 ≤ exponentOf low ∧ 2 ^ 52 ≤ mantissaOf low ∧
    mantissaOf low * 2 ^ (exponentOf low + 52).toNat = n * 2 ^ 52

instance (low n : ℕ) : Decidable (Spells low n) := inferInstanceAs (Decidable (_ ∧ _))

theorem powers_spelled : ∀ e : Fin Float.exactlyRepresentablePowersOfTen.size,
    Spells Float.exactlyRepresentablePowersOfTen[e].toBits.toNat (10 ^ e.val) := by
  decide +kernel

theorem Spells.exact {x : Float} {n : ℕ} (spells : Spells x.toBits.toNat n) :
    ∃ k f, ∃ canonical : Canonical k f, 2 ^ 52 ≤ k ∧ (k : ℚ) * 2 ^ f = n ∧ x.toModel.unpack = .finite .positive k f canonical.positive := by
  obtain ⟨ranged, least, full, value⟩ := spells
  have whole : x.toModel.toBits.toBitVec.toNat = x.toBits.toNat := rfl
  have low : x.toBits.toNat % 2 ^ 63 = x.toBits.toNat := Nat.mod_eq_of_lt (by omega)
  have nonzero : x.toBits.toNat ≠ 0 := by
    intro none
    rw [none] at full
    revert full
    decide
  obtain ⟨-, ⟨none, -⟩ | ⟨-, _, unpacked⟩⟩ := unpack_finite (@unpack_ranged x.toModel.toBits.toBitVec (by rw [whole, low]; exact ranged))
  · rw [whole, low] at none
    exact absurd none nonzero
  · simp only [whole, low, signOf, if_pos (show x.toBits.toNat < 2 ^ 63 by omega)] at unpacked
    refine ⟨_, _, canonical_bits nonzero, full, ?_, unpacked⟩
    have place : exponentOf x.toBits.toNat = ((exponentOf x.toBits.toNat + 52).toNat : ℤ) - 52 := by omega
    rw [place, zpow_sub₀ two_ne_zero, zpow_natCast, mul_div_assoc', div_eq_iff (by norm_num)]
    exact_mod_cast value

-- Short digits and small powers of ten are numbers themselves; their product and their quotient are rounded once.
theorem short_rounds {d e : ℕ} {s : Bool} (canonical : Canonical m q) (positive : 0 < d) (short : d < 2 ^ 53 ∧ e ≤ 22)
    (rounds : Rounds m q (if s then (d : ℚ) / 10 ^ e else d * 10 ^ e)) :
    (Float.ofScientific d s e).toModel = Float.Model.pack (.finite .positive m q canonical.positive) := by
  obtain ⟨k, f, _, full, digits, unpacked⟩ := whole_exact positive short.1
  obtain ⟨l, g, _, other, tens, opened⟩ := (powers_spelled ⟨e, Nat.lt_succ_of_le short.2⟩).exact
  push_cast at tens
  rw [← digits, ← tens] at rounds
  unfold Float.ofScientific
  rw [dif_pos short]
  dsimp only [Fin.getElem_fin] at opened ⊢
  cases s with
  | true =>
    rw [if_pos rfl] at rounds ⊢
    change Float.Model.pack (div Format.binary64 d.toUInt64.toFloat.toModel.unpack _) = _
    rw [unpacked, opened, quotient_rounds canonical rounds]
    rfl
  | false =>
    rw [if_neg Bool.false_ne_true] at rounds ⊢
    change Float.Model.pack (mul Format.binary64 d.toUInt64.toFloat.toModel.unpack _) = _
    rw [unpacked, opened, product_rounds canonical rounds (by nlinarith)]
    rfl

theorem model_rounds {d : ℕ} {e : ℤ} (canonical : Canonical m q) (positive : 0 < d) (rounds : Rounds m q (d * 10 ^ e))
    (above : e ≤ 2048) (below : -(2048 + (d.log2 : ℤ)) ≤ e) :
    UnpackedFloat.ofScientific Format.binary64 d e = .finite .positive m q canonical.positive := by
  have bits : (2 ^ Format.binary64.exponentBits : ℤ) = 2048 := by decide
  unfold UnpackedFloat.ofScientific
  rw [dif_neg positive.ne', bits, if_neg (by omega), if_neg (by omega)]
  split
  · rename_i whole
    refine product_rounds canonical ?_ ?_
    · have value : ((d <<< Format.binary64.mantissaBits : ℕ) : ℚ) * 2 ^ (-(Format.binary64.mantissaBits : ℤ)) * ((10 ^ e.toNat : ℕ) * 2 ^ (0 : ℤ)) =
          d * 10 ^ e := by
        have tens : (10 : ℚ) ^ e = 10 ^ e.toNat := zpow_up (by omega)
        rw [Nat.shiftLeft_eq, tens, zpow_neg, zpow_natCast, zpow_zero]
        push_cast
        field_simp
      rwa [value]
    · rw [Nat.shiftLeft_eq]
      have tens : 0 < 10 ^ e.toNat := by positivity
      have wide : 2 ^ 52 ≤ 2 ^ Format.binary64.mantissaBits := Nat.pow_le_pow_right two_pos (by decide)
      exact wide.trans ((Nat.le_mul_of_pos_left _ positive).trans (Nat.le_mul_of_pos_right _ tens))
  · rename_i part
    refine quotient_rounds canonical ?_
    have tens : (10 : ℚ) ^ e = 1 / 10 ^ (-e).toNat := zpow_down (by omega)
    rw [tens, mul_one_div] at rounds
    simpa using rounds

theorem scientific_rounds {d : ℕ} {e : ℤ} (canonical : Canonical m q) (positive : 0 < d) (rounds : Rounds m q (d * 10 ^ e))
    (above : e ≤ 2048) (below : -(2048 + (d.log2 : ℤ)) ≤ e) :
    (Float.ofScientific d (decide (e < 0)) e.natAbs).toModel = Float.Model.pack (.finite .positive m q canonical.positive) := by
  by_cases short : d < 2 ^ 53 ∧ e.natAbs ≤ 22
  · refine short_rounds canonical positive short ?_
    by_cases part : e < 0
    · have tens : (10 : ℚ) ^ e = 1 / 10 ^ e.natAbs := zpow_down (by omega)
      rw [decide_eq_true part, if_pos rfl]
      rwa [tens, mul_one_div] at rounds
    · have tens : (10 : ℚ) ^ e = 10 ^ e.natAbs := zpow_up (by omega)
      rw [decide_eq_false part, if_neg Bool.false_ne_true]
      rwa [tens] at rounds
  · have signed : (if decide (e < 0) = true then Int.negOfNat e.natAbs else Int.ofNat e.natAbs) = e := by
      split
      · rename_i part
        have := of_decide_eq_true part
        rw [Int.negOfNat_eq, Int.ofNat_eq_natCast]
        omega
      · rename_i whole
        have := of_decide_eq_false (Bool.eq_false_iff.mpr whole)
        rw [Int.ofNat_eq_natCast]
        omega
    unfold Float.ofScientific
    rw [dif_neg short]
    dsimp only
    rw [signed]
    change Float.Model.pack _ = _
    rw [model_rounds canonical positive rounds above below]

-- A number has its place between the powers of ten that its digits are counted by.
theorem digits_bounds {d : ℕ} (positive : 0 < d) :
    0 < digitCount d ∧ 10 ^ (digitCount d - 1) ≤ d ∧ d < 10 ^ digitCount d := by
  have some_ := @Nat.length_toDigits_pos 10 d
  refine ⟨some_, ?_, (Nat.length_toDigits_le_iff (by decide) some_).mp le_rfl⟩
  by_cases one : digitCount d = 1
  · rw [one]
    exact positive
  · by_contra short
    have fewer := (Nat.length_toDigits_le_iff (n := d) (b := 10) (k := digitCount d - 1) (by decide) (by unfold digitCount at one ⊢; omega)).mpr
      (Nat.lt_of_not_le short)
    unfold digitCount at fewer
    omega

theorem digitCount_le {d : ℕ} (positive : 0 < d) : digitCount d ≤ d.log2 + 1 := by
  obtain ⟨_, least, -⟩ := digits_bounds positive
  have narrow : 2 ^ (digitCount d - 1) ≤ d := (Nat.pow_le_pow_left (by decide) _).trans least
  have := (Nat.le_log2 positive.ne').mpr narrow
  omega

-- What rounds to a number is not out of range.
theorem Rounds.ranged (canonical : Canonical m q) (bounded : q ≤ 971) (rounds : Rounds m q v) :
    (2 : ℚ) ^ (-1075 : ℤ) ≤ v ∧ v < 2 ^ (1024 : ℤ) := by
  obtain ⟨⟨low, high⟩, -⟩ := rounds
  constructor
  · refine le_trans ?_ low
    have one : (1 : ℚ) ≤ m := by exact_mod_cast canonical.positive
    have half : (2 : ℚ) ^ (-1 : ℤ) ≤ m - reach m q := by
      norm_num
      linarith [@reach_le m q]
    rw [show (-1075 : ℤ) = -1 + -1074 by norm_num, zpow_add₀ two_ne_zero]
    exact mul_le_mul half (zpow_le_zpow_right₀ one_le_two canonical.least) (by positivity) (le_trans (by positivity) half)
  · refine high.trans_lt ?_
    have short : (m : ℚ) + 1 ≤ 2 ^ 53 := by exact_mod_cast canonical.short
    have below : (m : ℚ) + 1 / 2 < 2 ^ (53 : ℤ) := by
      norm_num at short ⊢
      linarith
    rw [show (1024 : ℤ) = 53 + 971 by norm_num, zpow_add₀ two_ne_zero]
    exact mul_lt_mul below (zpow_le_zpow_right₀ one_le_two bounded) (by positivity) (by positivity)

theorem two_ten (k : ℕ) : (2 : ℚ) ^ (3 * (k : ℤ)) ≤ 10 ^ (k : ℤ) := by
  rw [zpow_mul, zpow_natCast, zpow_natCast]
  exact pow_le_pow_left₀ (by norm_num) (by norm_num) k

-- A decimal becomes the number it rounds to.
theorem ofDecimal_rounds {d : ℕ} {e : ℤ} (canonical : Canonical m q) (bounded : q ≤ 971) (rounds : Rounds m q (d * 10 ^ e)) :
    (ofDecimal d e).toBits.toNat = lowBits m q := by
  obtain ⟨least, greatest⟩ := rounds.ranged canonical bounded
  have positive : 0 < d := by
    rcases Nat.eq_zero_or_pos d with rfl | positive
    · rw [Nat.cast_zero, zero_mul] at least
      exact absurd least (not_le.mpr (by positivity))
    · exact positive
  obtain ⟨_, fills, fits⟩ := digits_bounds positive
  have wide := digitCount_le positive
  have under : ¬400 < (digitCount d : ℤ) + e := by
    intro large
    have power : (10 : ℚ) ^ (400 : ℤ) ≤ d * 10 ^ e := by
      calc (10 : ℚ) ^ (400 : ℤ) ≤ 10 ^ (((digitCount d - 1 : ℕ) : ℤ) + e) := zpow_le_zpow_right₀ (by norm_num) (by omega)
        _ = 10 ^ (digitCount d - 1) * 10 ^ e := by rw [zpow_add₀ (by norm_num), zpow_natCast]
        _ ≤ d * 10 ^ e := mul_le_mul_of_nonneg_right (by exact_mod_cast fills) (by positivity)
    have beyond : (2 : ℚ) ^ (1024 : ℤ) ≤ 10 ^ (400 : ℤ) := (zpow_le_zpow_right₀ one_le_two (by norm_num)).trans (two_ten 400)
    exact absurd (power.trans_lt greatest) (not_lt.mpr beyond)
  have above : ¬(digitCount d : ℤ) + e < -400 := by
    intro small
    have power : d * (10 : ℚ) ^ e < 10 ^ (-401 : ℤ) := by
      calc d * (10 : ℚ) ^ e < 10 ^ digitCount d * 10 ^ e := mul_lt_mul_of_pos_right (by exact_mod_cast fits) (by positivity)
        _ = 10 ^ ((digitCount d : ℤ) + e) := by rw [zpow_add₀ (by norm_num), zpow_natCast]
        _ ≤ 10 ^ (-401 : ℤ) := zpow_le_zpow_right₀ (by norm_num) (by omega)
    have beyond : (10 : ℚ) ^ (-401 : ℤ) ≤ 2 ^ (-1075 : ℤ) := by
      rw [zpow_neg, zpow_neg]
      exact inv_anti₀ (by positivity) ((zpow_le_zpow_right₀ one_le_two (by norm_num)).trans (two_ten 401))
    exact absurd (least.trans_lt power) (not_lt.mpr beyond)
  have model := scientific_rounds canonical positive rounds (by omega) (by omega)
  have bits {x : Float} (same : x.toModel = Float.Model.pack (.finite .positive m q canonical.positive)) : x.toBits.toNat = lowBits m q := by
    have whole : x.toBits.toNat = x.toModel.toBits.toBitVec.toNat := rfl
    rw [whole, same]
    exact (canonical.packed bounded .positive).trans (Nat.zero_add _)
  unfold ofDecimal
  rw [if_neg positive.ne']
  dsimp only
  rw [if_neg (by exact under), if_neg (by exact above)]
  split
  · rename_i part
    rw [decide_eq_true part] at model
    exact bits model
  · rename_i whole
    rw [decide_eq_false whole] at model
    exact bits model

end ToffoliBench.Decimal

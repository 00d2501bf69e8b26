import Mathlib
import ToffoliBench.Decimal.Reading
import ToffoliBench.Decimal.Shortest

open Float.Model Float.Model.UnpackedFloat

namespace ToffoliBench.Decimal

theorem mantissa_bits (b : BitVec 64) : (@unpackMantissa Format.binary64 b).toNat = b.toNat % 2 ^ 52 := by
  simp [unpackMantissa, BitVec.extractLsb_toNat]

theorem exponent_bits (b : BitVec 64) : (@unpackExponent Format.binary64 b).toNat = b.toNat / 2 ^ 52 % 2 ^ 11 := by
  simp [unpackExponent, BitVec.extractLsb_toNat, Nat.shiftRight_eq_div_pow]

theorem sign_bits (b : BitVec 64) : (@unpackSign Format.binary64 b).toNat = b.toNat / 2 ^ 63 % 2 := by
  simp [unpackSign, BitVec.extractLsb_toNat, Nat.shiftRight_eq_div_pow]

theorem packed_bits (s : Sign) (e : BitVec 11) (m : BitVec 52) :
    (packComponents Format.binary64 s e m).toNat = s.toBitVec.toNat * 2 ^ 63 + e.toNat * 2 ^ 52 + m.toNat := by
  unfold packComponents
  rw [BitVec.toNat_append, BitVec.toNat_append, ← Nat.shiftLeft_add_eq_or_of_lt m.isLt, ← Nat.shiftLeft_add_eq_or_of_lt e.isLt,
    Nat.shiftLeft_eq, Nat.shiftLeft_eq]
  omega

-- The sign of a number and the rest of its bits.
def signOf (n : Nat) : Sign := if n < 2 ^ 63 then .positive else .negative

def exponentOf (low : Nat) : Int := if low < 2 ^ 52 then -1074 else low / 2 ^ 52 - 1075

def mantissaOf (low : Nat) : Nat := if low < 2 ^ 52 then low else 2 ^ 52 + low % 2 ^ 52

theorem sign_eq (b : BitVec 64) : Sign.ofBitVec (@unpackSign Format.binary64 b) = signOf b.toNat := by
  have bits := sign_bits b
  have bound := b.isLt
  unfold Sign.ofBitVec signOf
  congr 1
  rw [← BitVec.toNat_inj, bits, eq_iff_iff]
  simp only [BitVec.toNat_ofNat]
  omega

-- A finite number is a zero or has a mantissa and an exponent, read off its bits.
theorem unpack_finite {b : BitVec 64} (finite : (UnpackedFloat.unpack Format.binary64 b).isFinite = true) :
    b.toNat % 2 ^ 63 < 2047 * 2 ^ 52 ∧
      ((b.toNat % 2 ^ 63 = 0 ∧ UnpackedFloat.unpack Format.binary64 b = .zero (signOf b.toNat)) ∨
        (b.toNat % 2 ^ 63 ≠ 0 ∧ ∃ positive, UnpackedFloat.unpack Format.binary64 b =
          .finite (signOf b.toNat) (mantissaOf (b.toNat % 2 ^ 63)) (exponentOf (b.toNat % 2 ^ 63)) positive)) := by
  have mantissa := mantissa_bits b
  have exponent := exponent_bits b
  have bound := b.isLt
  unfold UnpackedFloat.unpack at finite ⊢
  dsimp only at finite ⊢
  rw [sign_eq] at finite ⊢
  have top : (-1#11).toNat = 2047 := by decide
  have bias : (Format.exponentBias Format.binary64 : Int) = 1023 := by decide
  by_cases all : @unpackExponent Format.binary64 b = -1#_
  · rw [if_pos all] at finite
    split at finite <;> cases finite
  have below : b.toNat / 2 ^ 52 % 2 ^ 11 ≠ 2047 := fun same =>
    all (BitVec.eq_of_toNat_eq (exponent.trans (same.trans top.symm)))
  refine ⟨by omega, ?_⟩
  simp only [if_neg all]
  by_cases none : @unpackExponent Format.binary64 b = 0#_
  · rw [none] at exponent
    have zero : b.toNat / 2 ^ 52 % 2 ^ 11 = 0 := exponent.symm
    simp only [if_pos none]
    split
    · rename_i empty
      rw [empty] at mantissa
      have nothing : b.toNat % 2 ^ 52 = 0 := mantissa.symm
      exact .inl ⟨by omega, rfl⟩
    · rename_i some_
      have something : b.toNat % 2 ^ 52 ≠ 0 := fun same => some_ (BitVec.eq_of_toNat_eq (mantissa.trans same))
      have small : b.toNat % 2 ^ 63 < 2 ^ 52 := by omega
      have size : mantissaOf (b.toNat % 2 ^ 63) = (@unpackMantissa Format.binary64 b).toNat := by
        rw [mantissaOf, if_pos small, mantissa]
        omega
      have place : exponentOf (b.toNat % 2 ^ 63) =
          ((@unpackExponent Format.binary64 b).toNat : Int) - (Format.exponentBias Format.binary64 + (52 : Nat)) + 1 := by
        rw [exponentOf, if_pos small, none, bias]
        rfl
      refine .inr ⟨by omega, ?_⟩
      rw [size, place]
      exact ⟨by omega, rfl⟩
  · have nonzero : b.toNat / 2 ^ 52 % 2 ^ 11 ≠ 0 := fun same => none (BitVec.eq_of_toNat_eq (exponent.trans same))
    have large : ¬b.toNat % 2 ^ 63 < 2 ^ 52 := by omega
    have size : mantissaOf (b.toNat % 2 ^ 63) = (1#1 ++ @unpackMantissa Format.binary64 b).toNat := by
      rw [mantissaOf, if_neg large, BitVec.toNat_append, ← Nat.shiftLeft_add_eq_or_of_lt (BitVec.isLt _), Nat.shiftLeft_eq, mantissa]
      simp only [BitVec.toNat_ofNat]
      omega
    have place : exponentOf (b.toNat % 2 ^ 63) =
        ((@unpackExponent Format.binary64 b).toNat : Int) - (Format.exponentBias Format.binary64 + (52 : Nat)) := by
      rw [exponentOf, if_neg large, exponent, bias]
      omega
    simp only [if_neg none]
    refine .inr ⟨by omega, ?_⟩
    have positive : 0 < (1#1 ++ @unpackMantissa Format.binary64 b).toNat := by
      rw [← size, mantissaOf, if_neg large]
      omega
    rw [size, place]
    exact ⟨positive, rfl⟩

theorem pack_finite {s : Sign} {low : Nat} (nonzero : low ≠ 0) (ranged : low < 2047 * 2 ^ 52) (positive : 0 < mantissaOf low) :
    (UnpackedFloat.pack Format.binary64 (.finite s (mantissaOf low) (exponentOf low) positive)).toNat =
      s.toBitVec.toNat * 2 ^ 63 + low := by
  have bias : (Format.exponentBias Format.binary64 : Int) = 1023 := by decide
  have bits : Format.mantissaBits Format.binary64 = 53 := by decide
  simp only [UnpackedFloat.pack, bias, bits]
  by_cases small : low < 2 ^ 52
  · have size : mantissaOf low = low := if_pos small
    have place : exponentOf low = -1074 := if_pos small
    have short : ¬low.log2 + 1 = 53 := by
      have bound := (Nat.log2_lt nonzero).mpr small
      omega
    rw [if_neg (by rw [place]; decide), if_neg (by rwa [size]), packed_bits, size, BitVec.toNat_ofNat, BitVec.toNat_ofNat]
    omega
  · have size : mantissaOf low = 2 ^ 52 + low % 2 ^ 52 := if_neg small
    have place : exponentOf low = low / 2 ^ 52 - 1075 := if_neg small
    have full : (2 ^ 52 + low % 2 ^ 52).log2 = 52 := (Nat.log2_eq_iff (by omega)).mpr ⟨by omega, by omega⟩
    have biased : (exponentOf low + 1023 + (52 : Nat)).toNat = low / 2 ^ 52 := by
      rw [place]
      omega
    rw [biased, if_neg (by omega), if_pos (by rw [size, full]), packed_bits, size, BitVec.toNat_ofNat, BitVec.toNat_ofNat]
    omega

-- Changing the sign moves the sign bit and nothing else.
theorem neg_bits {x : Float} (finite : x.isFinite = true) : (-x).toBits.toNat % 2 ^ 63 = x.toBits.toNat % 2 ^ 63 ∧
    (2 ^ 63 ≤ (-x).toBits.toNat ↔ x.toBits.toNat < 2 ^ 63) := by
  obtain ⟨ranged, shape⟩ := unpack_finite finite
  have bits : (-x).toBits.toNat = (UnpackedFloat.pack Format.binary64
      (UnpackedFloat.unpack Format.binary64 x.toModel.toBits.toBitVec).neg).toNat := rfl
  have whole : x.toBits.toNat = x.toModel.toBits.toBitVec.toNat := rfl
  have bound := x.toModel.toBits.toBitVec.isLt
  rw [bits, whole]
  generalize x.toModel.toBits.toBitVec = b at ranged shape bound ⊢
  have negative : (Sign.toBitVec .negative).toNat = 1 := rfl
  have positive : (Sign.toBitVec .positive).toNat = 0 := rfl
  have packed : (UnpackedFloat.pack Format.binary64 (UnpackedFloat.unpack Format.binary64 b).neg).toNat =
      (-signOf b.toNat).toBitVec.toNat * 2 ^ 63 + b.toNat % 2 ^ 63 := by
    rcases shape with ⟨zero, unpacked⟩ | ⟨nonzero, mantissa, unpacked⟩
    · rw [unpacked, zero]
      refine (packed_bits (-signOf b.toNat) 0 0).trans ?_
      simp
    · rw [unpacked]
      exact pack_finite nonzero ranged mantissa
  rw [packed, signOf]
  split
  · rename_i below
    rw [show (-Sign.positive) = .negative from rfl, negative]
    omega
  · rename_i above
    rw [show (-Sign.negative) = .positive from rfl, positive]
    omega

theorem bits_injective {x y : Float} (same : x.toBits.toNat = y.toBits.toNat) : x = y := by
  obtain ⟨⟨a, _⟩⟩ := x
  obtain ⟨⟨b, _⟩⟩ := y
  obtain rfl : a = b := UInt64.toNat_inj.mp same
  rfl

-- The place of a number among all finite numbers; what is below zero counts downwards.
def place (x : Float) : Int := if x.toBits.toNat < 2 ^ 63 then x.toBits.toNat else 2 ^ 63 - 1 - x.toBits.toNat

theorem place_injective {x y : Float} (same : place x = place y) : x = y := by
  have bound := UInt64.toNat_lt x.toBits
  refine bits_injective ?_
  unfold place at same
  split at same <;> split at same <;> omega

-- Numbers that have mantissas are ordered by exponent first.
theorem then_lt {a b : Nat} : (compare (exponentOf a) (exponentOf b)).then (compare (mantissaOf a) (mantissaOf b)) = .lt ↔ a < b := by
  rw [Ordering.then_eq_lt, Int.compare_eq_lt, Int.compare_eq_eq, Nat.compare_eq_lt]
  unfold exponentOf mantissaOf
  split <;> split <;> omega

theorem then_gt {a b : Nat} : (compare (exponentOf a) (exponentOf b)).then (compare (mantissaOf a) (mantissaOf b)) = .gt ↔ b < a := by
  rw [Ordering.then_eq_gt, Int.compare_eq_gt, Int.compare_eq_eq, Nat.compare_eq_gt]
  unfold exponentOf mantissaOf
  split <;> split <;> omega

theorem lt_iff_compare {x y : Float} : x < y ↔ x.toModel.unpack.compare y.toModel.unpack = some .lt := by
  have unfolded : x < y ↔ decide (x.toModel < y.toModel) = true := Iff.rfl
  have model : x.toModel < y.toModel ↔ (x.toModel.unpack.compare y.toModel.unpack == some .lt) = true := Iff.rfl
  rw [unfolded, decide_eq_true_iff, model, beq_iff_eq]

theorem lt_iff_place {x y : Float} (xFinite : x.isFinite = true) (yFinite : y.isFinite = true) (xPlain : x ≠ -0) (yPlain : y ≠ -0) :
    x < y ↔ place x < place y := by
  have zero : (-0 : Float).toBits.toNat = 2 ^ 63 := by decide
  have xBits : x.toBits.toNat ≠ 2 ^ 63 := fun same => xPlain (bits_injective (same.trans zero.symm))
  have yBits : y.toBits.toNat ≠ 2 ^ 63 := fun same => yPlain (bits_injective (same.trans zero.symm))
  have xBound := UInt64.toNat_lt x.toBits
  have yBound := UInt64.toNat_lt y.toBits
  obtain ⟨_, xShape⟩ := unpack_finite xFinite
  obtain ⟨_, yShape⟩ := unpack_finite yFinite
  have xWhole : x.toModel.toBits.toBitVec.toNat = x.toBits.toNat := rfl
  have yWhole : y.toModel.toBits.toBitVec.toNat = y.toBits.toNat := rfl
  rw [xWhole] at xShape
  rw [yWhole] at yShape
  rw [lt_iff_compare, Float.Model.unpack, Float.Model.unpack, place, place]
  generalize x.toBits.toNat = a at *
  generalize y.toBits.toNat = b at *
  rcases xShape with ⟨xZero, xUnpacked⟩ | ⟨xSome, _, xUnpacked⟩ <;> rcases yShape with ⟨yZero, yUnpacked⟩ | ⟨ySome, _, yUnpacked⟩ <;>
    rw [xUnpacked, yUnpacked, signOf, signOf] <;> by_cases xSign : a < 2 ^ 63 <;> by_cases ySign : b < 2 ^ 63 <;>
    simp only [xSign, ySign, if_true, if_false, UnpackedFloat.compare, Option.some.injEq, Ordering.swap_eq_lt, then_lt, then_gt, reduceCtorEq, false_iff, true_iff] <;>
    omega

theorem sign_iff {x : Float} : sign x = true ↔ 2 ^ 63 ≤ x.toBits.toNat := by
  have bound := UInt64.toNat_lt x.toBits
  have shifted : (x.toBits >>> 63).toNat = x.toBits.toNat / 2 ^ 63 := by
    rw [UInt64.toNat_shiftRight, Nat.shiftRight_eq_div_pow]
    rfl
  rw [sign, beq_iff_eq, ← UInt64.toNat_inj, shifted]
  change x.toBits.toNat / 2 ^ 63 = 1 ↔ _
  omega

-- Only the two zeros are equal to zero.
theorem eq_zero_of_beq {x : Float} (finite : x.isFinite = true) (plain : x ≠ -0) (same : (x == 0) = true) : x = 0 := by
  have negative : (-0 : Float).toBits.toNat = 2 ^ 63 := by decide
  have zero : (0 : Float).toBits.toNat = 0 := by decide
  have unpackedZero : (0 : Float).toModel.unpack = .zero .positive := by rfl
  have equal : x.toModel.unpack.compare (0 : Float).toModel.unpack = some .eq := by
    have model : (x.toModel.unpack.compare (0 : Float).toModel.unpack == some .eq) = true := same
    exact beq_iff_eq.mp model
  obtain ⟨_, ⟨empty, _⟩ | ⟨_, _, unpacked⟩⟩ := unpack_finite finite
  · have whole : x.toModel.toBits.toBitVec.toNat = x.toBits.toNat := rfl
    have bound := UInt64.toNat_lt x.toBits
    have other : x.toBits.toNat ≠ 2 ^ 63 := fun same => plain (bits_injective (same.trans negative.symm))
    exact bits_injective (by omega)
  · rw [unpackedZero, Float.Model.unpack, unpacked] at equal
    unfold signOf at equal
    split at equal <;> cases equal

theorem finite_of_neg {x : Float} (finite : (-x).isFinite = true) : x.isFinite = true := by
  have bits : (-x).isFinite = (UnpackedFloat.unpack Format.binary64
      (UnpackedFloat.pack Format.binary64 x.toModel.unpack.neg)).isFinite := rfl
  have plain : x.isFinite = x.toModel.unpack.isFinite := rfl
  rw [bits] at finite
  rw [plain]
  cases shape : x.toModel.unpack with
  | notANumber =>
    rw [shape] at finite
    exact absurd finite (by decide)
  | infinity s =>
    rw [shape] at finite
    cases s <;> exact absurd finite (by decide)
  | zero s => rfl
  | finite s m e positive => rfl

-- The rank that a written number gets is its place.
theorem Signed.rank_eq_place {s : Signed} (finite : s.value.isFinite = true) (same : s.negative = sign s.value) :
    s.rank = place s.value := by
  obtain ⟨negative, x⟩ := s
  cases negative with
  | false =>
    have below : ¬sign x = true := by
      rw [show sign x = false from same.symm]
      nofun
    rw [sign_iff] at below
    change (x.toBits.toNat : Int) = place x
    exact (if_pos (Nat.lt_of_not_le below)).symm
  | true =>
    have above : sign (-x) = true := same.symm
    rw [sign_iff] at above
    have magnitude : x.isFinite = true := finite_of_neg finite
    obtain ⟨kept, moved⟩ := neg_bits magnitude
    have bound := UInt64.toNat_lt (-x).toBits
    have old := moved.mp above
    have unfolded : place (-x) = 2 ^ 63 - 1 - (-x).toBits.toNat := if_neg (by omega)
    change -(x.toBits.toNat : Int) - 1 = place (-x)
    rw [unfolded]
    omega

end ToffoliBench.Decimal

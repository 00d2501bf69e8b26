import Mathlib
import ToffoliBench.Proofs.Numbers.Scientific

open Float.Model Float.Model.UnpackedFloat

namespace ToffoliBench.Decimal

-- What has no minus sign.
def Unsigned : UnpackedFloat → Prop
  | .notANumber => True
  | .infinity s => s = .positive
  | .zero s => s = .positive
  | .finite s _ _ _ => s = .positive

theorem unsigned_bits (e : BitVec 11) (k : BitVec 52) : (packComponents Format.binary64 .positive e k).toNat < 2 ^ 63 := by
  have zero : Sign.positive.toBitVec.toNat = 0 := rfl
  have exponent := e.isLt
  have mantissa := k.isLt
  rw [packed_bits, zero]
  omega

theorem Unsigned.packed {f : UnpackedFloat} (unsigned : Unsigned f) : (UnpackedFloat.pack Format.binary64 f).toNat < 2 ^ 63 := by
  cases f with
  | notANumber => exact unsigned_bits _ _
  | infinity s =>
    obtain rfl : s = .positive := unsigned
    exact unsigned_bits _ _
  | zero s =>
    obtain rfl : s = .positive := unsigned
    exact unsigned_bits _ _
  | finite s n e more =>
    obtain rfl : s = .positive := unsigned
    unfold UnpackedFloat.pack
    dsimp only
    split
    · exact unsigned_bits _ _
    · split <;> exact unsigned_bits _ _

theorem unpack_unsigned {b : BitVec 64} (low : b.toNat < 2 ^ 63) : Unsigned (UnpackedFloat.unpack Format.binary64 b) := by
  have sign : signOf b.toNat = .positive := if_pos low
  unfold UnpackedFloat.unpack
  dsimp only
  rw [sign_eq, sign]
  split
  · split <;> first | rfl | trivial
  · split
    · split <;> rfl
    · rfl

theorem round_unsigned (n : ℕ) (e : ℤ) (a : Accuracy) : Unsigned (roundWithAccuracy Format.binary64 .positive n e a) := by
  unfold roundWithAccuracy
  dsimp only
  split <;> rfl

theorem Unsigned.product {f g : UnpackedFloat} (left : Unsigned f) (right : Unsigned g) : Unsigned (mul Format.binary64 f g) := by
  cases f <;> cases g <;> simp only [Unsigned] at left right <;> subst_vars <;> first | trivial | rfl | exact round_unsigned _ _ _

theorem Unsigned.quotient {f g : UnpackedFloat} (left : Unsigned f) (right : Unsigned g) : Unsigned (div Format.binary64 f g) := by
  cases f <;> cases g <;> simp only [Unsigned] at left right <;> subst_vars <;> first | trivial | rfl | exact round_unsigned _ _ _

theorem ofScientific_unsigned (d : ℕ) (e : ℤ) : Unsigned (UnpackedFloat.ofScientific Format.binary64 d e) := by
  unfold UnpackedFloat.ofScientific
  split
  · rfl
  · split
    · rfl
    · split
      · rfl
      · split
        · exact Unsigned.product rfl rfl
        · exact Unsigned.quotient rfl rfl

theorem whole_unsigned (n : UInt64) : n.toFloat.toBits.toNat < 2 ^ 63 := by
  refine Unsigned.packed (f := UnpackedFloat.normalize Format.binary64 (n.toNat : ℤ) 0 .positive) ?_
  unfold UnpackedFloat.normalize
  cases order : compare (n.toNat : ℤ) 0 with
  | lt =>
    have := Int.compare_eq_lt.mp order
    omega
  | eq => rfl
  | gt => exact round_unsigned _ _ _

theorem scientific_unsigned (d : ℕ) (s : Bool) (e : ℕ) : (Float.ofScientific d s e).toBits.toNat < 2 ^ 63 := by
  unfold Float.ofScientific
  split
  · rename_i short
    have left := unpack_unsigned (b := d.toUInt64.toFloat.toBits.toBitVec) (whole_unsigned _)
    have power := (powers_spelled ⟨e, Nat.lt_succ_of_le short.2⟩).1
    have right := unpack_unsigned (lt_trans power (by norm_num))
    dsimp only
    split
    · exact (left.quotient right).packed
    · exact (left.product right).packed
  · exact (ofScientific_unsigned _ _).packed

theorem ofDecimal_unsigned (d : ℕ) (e : ℤ) : (ofDecimal d e).toBits.toNat < 2 ^ 63 := by
  unfold ofDecimal
  split
  · decide
  · dsimp only
    split
    · decide
    · split
      · decide
      · split <;> exact scientific_unsigned _ _ _

theorem magnitude?_unsigned {cs : List Char} {y : Float} (read : magnitude? cs = some y) : y.toBits.toNat < 2 ^ 63 := by
  unfold magnitude? at read
  split at read
  · cases read
    decide
  · split at read
    · cases read
      decide
    · unfold unsigned? at read
      dsimp only at read
      obtain ⟨_, read⟩ := Option.ite_none_left_eq_some.mp read
      obtain ⟨e, _, rfl⟩ := Option.map_eq_some_iff.mp read
      exact ofDecimal_unsigned _ _

-- The sign that was read is the sign of the number.
theorem signed?_negative {cs : List Char} {s : Signed} (read : signed? cs = some s) (finite : s.value.isFinite = true) :
    s.negative = sign s.value := by
  have shape : ∃ y : Float, y.toBits.toNat < 2 ^ 63 ∧ (s = ⟨true, y⟩ ∨ s = ⟨false, y⟩) := by
    unfold signed? at read
    split at read <;> obtain ⟨y, magnitude, rfl⟩ := Option.map_eq_some_iff.mp read
    · exact ⟨y, magnitude?_unsigned magnitude, .inl rfl⟩
    · exact ⟨y, magnitude?_unsigned magnitude, .inr rfl⟩
    · exact ⟨y, magnitude?_unsigned magnitude, .inr rfl⟩
  obtain ⟨y, low, rfl | rfl⟩ := shape
  · have magnitude : y.isFinite = true := finite_of_neg finite
    exact (sign_iff.mpr ((neg_bits magnitude).2.mpr low)).symm
  · have plus : ¬sign y = true := fun negative => absurd (sign_iff.mp negative) (Nat.not_le.mpr low)
    exact (Bool.eq_false_iff.mpr plus).symm

end ToffoliBench.Decimal

import Mathlib
import ToffoliBench.Proofs.Numbers.Shortest
import ToffoliBench.Proofs.Text.Decimals

namespace ToffoliBench.Decimal

open Float.Model Float.Model.UnpackedFloat Text

variable {x : Float}

theorem digitsValue_append (left right : List Char) : digitsValue (left ++ right) = digitsValue left * 10 ^ right.length + digitsValue right := by
  induction right using List.reverseRecOn with
  | nil => simp [digitsValue]
  | append_singleton right c held =>
    have last (cs : List Char) : digitsValue (cs ++ [c]) = 10 * digitsValue cs + digitValue c := by simp [digitsValue]
    rw [← List.append_assoc, last, last, held, List.length_append, List.length_singleton, pow_succ]
    ring

theorem digitsValue_zeros (n : ℕ) : digitsValue (List.replicate n '0') = 0 := by
  induction n with
  | zero => rfl
  | succ n held =>
    rw [List.replicate_succ', digitsValue_append, held]
    rfl

theorem unsigned?_whole {cs : List Char} (digits : ∀ c ∈ cs, c.isDigit = true) (some_ : cs ≠ []) :
    unsigned? cs = some (ofDecimal (digitsValue cs) 0) := by
  have all : cs.takeWhile Char.isDigit = cs := List.takeWhile_eq_self_iff.mpr digits
  have none : cs.dropWhile Char.isDigit = [] := List.dropWhile_eq_nil_iff.mpr digits
  unfold unsigned?
  rw [all, none]
  simp [some_, exponent?]

theorem unsigned?_point {whole places : List Char} (left : ∀ c ∈ whole, c.isDigit = true) (right : ∀ c ∈ places, c.isDigit = true)
    (some_ : whole ≠ []) : unsigned? (whole ++ '.' :: places) = some (ofDecimal (digitsValue (whole ++ places)) (-places.length)) := by
  have front : (whole ++ '.' :: places).takeWhile Char.isDigit = whole := by
    rw [List.takeWhile_append_of_pos left]
    simp
  have back : (whole ++ '.' :: places).dropWhile Char.isDigit = '.' :: places := by
    rw [List.dropWhile_append_of_pos left]
    simp
  have all : places.takeWhile Char.isDigit = places := List.takeWhile_eq_self_iff.mpr right
  have none : places.dropWhile Char.isDigit = [] := List.dropWhile_eq_nil_iff.mpr right
  unfold unsigned?
  rw [front, back]
  simp [all, none, some_, exponent?]

-- The digits written out are read as a decimal of the same value.
theorem unsigned?_positional (d : Digits) : ∃ n e, unsigned? d.positional = some (ofDecimal n e) ∧ (n : ℚ) * 10 ^ e = d.value := by
  have digits : ∀ c ∈ Nat.toDigits 10 d.digits, c.isDigit = true := @ofNat_digits d.digits
  have value : digitsValue (Nat.toDigits 10 d.digits) = d.digits := digitsValue_ofNat d.digits
  have zeros {n : ℕ} : ∀ c ∈ List.replicate n '0', c.isDigit = true := by
    intro c listed
    rw [List.eq_of_mem_replicate listed]
    rfl
  unfold Digits.positional Digits.value
  split
  · rename_i whole
    refine ⟨_, _, unsigned?_whole (List.forall_mem_append.mpr ⟨digits, zeros⟩) (by simp [Nat.toDigits_ne_nil]), ?_⟩
    have power : (10 : ℚ) ^ d.exponent = 10 ^ d.exponent.natAbs := zpow_up (by omega)
    rw [digitsValue_append, value, digitsValue_zeros, List.length_replicate, power]
    push_cast
    ring
  · rename_i part
    unfold pointed
    dsimp only
    generalize padding : List.replicate (d.exponent.natAbs + 1 - (Nat.toDigits 10 d.digits).length) '0' = padded
    rw [if_neg (by omega)]
    have all : ∀ c ∈ padded ++ Nat.toDigits 10 d.digits, c.isDigit = true :=
      List.forall_mem_append.mpr ⟨padding ▸ zeros, digits⟩
    have long : d.exponent.natAbs + 1 ≤ (padded ++ Nat.toDigits 10 d.digits).length := by
      rw [List.length_append, ← padding, List.length_replicate]
      omega
    have same : digitsValue (padded ++ Nat.toDigits 10 d.digits) = d.digits := by
      rw [digitsValue_append, value, ← padding, digitsValue_zeros, zero_mul, zero_add]
    generalize padded ++ Nat.toDigits 10 d.digits = cs at all long same ⊢
    refine ⟨_, _, unsigned?_point (fun c listed => all c (List.mem_of_mem_take listed)) (fun c listed => all c (List.mem_of_mem_drop listed)) ?_, ?_⟩
    · exact List.ne_nil_of_length_pos (by rw [List.length_take]; omega)
    · rw [List.take_append_drop, same, List.length_drop]
      congr 2
      omega

theorem Figure.lower {c : Char} (figure : Figure c) : c.toLower = c := by
  rcases figure with digit | rfl
  · have high := (digit_bounds digit).2
    refine dif_neg fun capital => ?_
    have low : 65 ≤ c.toNat := UInt32.le_iff_toNat_le.mp capital.1
    omega
  · rfl

-- Figures are no word.
theorem magnitude?_figures {cs : List Char} (figures : ∀ c ∈ cs, Figure c) : magnitude? cs = unsigned? cs := by
  have kept : lower cs = cs := (List.map_congr_left fun c listed => (figures c listed).lower).trans (List.map_id' cs)
  have letter {c : Char} (listed : c ∈ cs) (other : c.isDigit = false ∧ c ≠ '.') : False := by
    rcases figures c listed with digit | point
    · rw [other.1] at digit
      cases digit
    · exact other.2 point
  unfold magnitude?
  rw [kept, if_neg, if_neg]
  · rintro rfl
    exact letter (c := 'n') (by decide) (by decide)
  · rintro (rfl | rfl) <;> exact letter (c := 'i') (by decide) (by decide)

theorem abs_bits (finite : x.isFinite = true) : x.abs.toBits.toNat = x.toBits.toNat % 2 ^ 63 := by
  obtain ⟨ranged, shape⟩ := unpack_finite finite
  have bits : x.abs.toBits.toNat = (UnpackedFloat.pack Format.binary64
      (UnpackedFloat.unpack Format.binary64 x.toModel.toBits.toBitVec).abs).toNat := rfl
  have whole : x.toBits.toNat = x.toModel.toBits.toBitVec.toNat := rfl
  rw [bits, whole]
  rcases shape with ⟨zero, unpacked⟩ | ⟨nonzero, mantissa, unpacked⟩
  · rw [unpacked, zero]
    exact packed_bits .positive 0 0
  · rw [unpacked]
    exact (pack_finite nonzero ranged mantissa).trans (Nat.zero_add _)

-- A decimal that has the value of the shortest digits is read as the bits below the sign.
theorem ofDecimal_shortest {n : ℕ} {e : ℤ} (finite : x.isFinite = true) (nonzero : x.toBits.toNat % 2 ^ 63 ≠ 0)
    (value : (n : ℚ) * 10 ^ e = (shortest x.abs).value) : (ofDecimal n e).toBits.toNat = x.toBits.toNat % 2 ^ 63 := by
  have ranged : x.toBits.toNat % 2 ^ 63 < 2047 * 2 ^ 52 := (unpack_finite finite).1
  have below : x.abs.toBits.toNat % 2 ^ 63 = x.toBits.toNat % 2 ^ 63 := by rw [abs_bits finite, Nat.mod_mod]
  have rounds := shortest_rounds (x := x.abs) (below ▸ nonzero)
  rw [below, ← value] at rounds
  have bounded : exponentOf (x.toBits.toNat % 2 ^ 63) ≤ 971 := by
    unfold exponentOf
    split <;> omega
  rw [ofDecimal_rounds (canonical_bits nonzero) bounded rounds, lowBits_eq]

theorem unsigned?_shortest (finite : x.isFinite = true) (nonzero : x.toBits.toNat % 2 ^ 63 ≠ 0) :
    ∃ y, unsigned? (shortest x.abs).positional = some y ∧ y.toBits.toNat = x.toBits.toNat % 2 ^ 63 := by
  obtain ⟨n, e, read, value⟩ := unsigned?_positional (shortest x.abs)
  exact ⟨_, read, ofDecimal_shortest finite nonzero value⟩

theorem float?_chars (finite : x.isFinite = true) (nonnegative : x ≠ -0) : float? (chars x) = some x := by
  have bound := UInt64.toNat_lt x.toBits
  by_cases zero : (x == 0) = true
  · obtain rfl := eq_zero_of_beq finite nonnegative zero
    decide +kernel
  · have nonzero : x.toBits.toNat % 2 ^ 63 ≠ 0 := by
      intro none
      have plus : (0 : Float).toBits.toNat = 0 := by decide
      have minus : (-0 : Float).toBits.toNat = 2 ^ 63 := by decide
      have other : x.toBits.toNat ≠ 2 ^ 63 := fun same => nonnegative (bits_injective (same.trans minus.symm))
      obtain rfl : x = 0 := bits_injective (by omega)
      exact zero (by decide)
    obtain ⟨y, read, bits⟩ := unsigned?_shortest finite nonzero
    have figures := positional_figures (shortest x.abs)
    have magnitude := (magnitude?_figures figures).trans read
    rw [float?, chars_eq finite, if_neg zero]
    cases below : sign x with
    | false =>
      have positive : x.toBits.toNat < 2 ^ 63 := by
        rw [← Nat.not_le, ← sign_iff, below]
        exact Bool.false_ne_true
      rw [if_neg Bool.false_ne_true, signed?_figures figures, magnitude]
      exact congrArg some (bits_injective (by rw [← Nat.mod_eq_of_lt positive]; exact bits))
    | true =>
      have negative := sign_iff.mp below
      have ranged : y.toModel.toBits.toBitVec.toNat % 2 ^ 63 < 2047 * 2 ^ 52 := by
        have low : y.toModel.toBits.toBitVec.toNat = x.toBits.toNat % 2 ^ 63 := bits
        rw [low, Nat.mod_mod]
        exact (unpack_finite finite).1
      obtain ⟨kept, moved⟩ := neg_bits (show y.isFinite = true from unpack_ranged ranged)
      have bounded := UInt64.toNat_lt (-y).toBits
      have value : (-y).toBits.toNat = x.toBits.toNat := by omega
      rw [if_pos rfl]
      change ((magnitude? _).map _).map _ = _
      rw [magnitude]
      exact congrArg some (bits_injective value)

end ToffoliBench.Decimal

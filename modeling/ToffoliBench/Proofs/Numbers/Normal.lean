import Mathlib.Algebra.Order.Ring.Int
import Mathlib.Data.Int.GCD
import ToffoliBench.Proofs.Numbers.Fraction
import ToffoliBench.Proofs.Text.Numerals
import ToffoliBench.Phase

namespace ToffoliBench

open Outcome

namespace Fraction

theorem checked_ok {x y : Int} : checked x = .ok y ↔ y = x ∧ Range.signed64 x = true := within_ok

theorem checked_fits {x : Int} (fits : Range.signed64 x = true) : checked x = .ok x := checked_ok.mpr ⟨rfl, fits⟩

theorem make_lowest {n d : Int} {r : Fraction} (made : make n d = .ok r) :
    0 < r.denom ∧ Int.gcd r.numer r.denom = 1 ∧ r.denom ∣ d ∧ r.numer * d = n * r.denom := by
  unfold make at made
  split at made
  · cases made
  rename_i nonzero
  split at made
  · rename_i zero
    cases made
    simp [zero]
  split at made
  · rename_i same
    cases made
    simp [same]
  have positive : 0 < Int.gcd n d := Nat.pos_of_ne_zero fun zero => nonzero (Int.gcd_eq_zero_iff.mp zero).2
  obtain ⟨a, b, coprime, top, bottom⟩ := Int.exists_gcd_one positive
  have cast : ((Int.gcd n d : Nat) : Int) ≠ 0 := by omega
  dsimp only at made
  generalize ((Int.gcd n d : Nat) : Int) = g at made top bottom cast
  subst top bottom
  rw [Int.mul_tdiv_cancel _ cast, Int.mul_tdiv_cancel _ cast] at made
  have bNonzero : b ≠ 0 := left_ne_zero_of_mul nonzero
  split at made
  · rename_i negative
    obtain ⟨a', up, made⟩ := bind_ok.mp made
    obtain ⟨b', down, made⟩ := bind_ok.mp made
    obtain rfl := pure_ok.mp made
    obtain rfl := checked_eq up
    obtain rfl := checked_eq down
    refine ⟨by dsimp only; omega, by simpa using coprime, ⟨-g, by ring⟩, by ring⟩
  · cases made
    exact ⟨by dsimp only; omega, coprime, ⟨g, by ring⟩, by ring⟩

theorem make_of_coprime {n d : Int} (positive : 0 < d) (coprime : Int.gcd n d = 1) : make n d = .ok ⟨n, d⟩ := by
  unfold make
  rw [if_neg (by omega)]
  split
  · rename_i zero
    have one : d = 1 := by
      rw [zero, Int.gcd_zero_left] at coprime
      omega
    rw [zero, one]
  split
  · rename_i same
    have one : d = 1 := by
      rw [same, Int.gcd_self] at coprime
      omega
    rw [same, one]
  · rw [coprime]
    simp only [Nat.cast_one, Int.tdiv_one]
    rw [if_neg (by omega)]

-- With a whole number on the right, the common denominator is that of the left operand.
theorem overCommon_whole {op : Int → Int → Int} {x r : Fraction} {k : Int} (done : overCommon op x (.ofInt k) = .ok r) :
    ∃ a c : Int, 0 < c ∧ (c = 1 ∨ Range.signed64 (k * c) = true) ∧ make (op a (k * c)) c = .ok r ∧
      (0 < x.denom → a = x.numer ∧ c = x.denom) := by
  unfold overCommon at done
  split at done
  · rename_i one
    obtain ⟨n, top, made⟩ := bind_ok.mp done
    obtain rfl := checked_eq top
    rw [ofInt] at one made
    dsimp only at one made
    rw [one] at made
    exact ⟨x.numer, 1, by decide, .inl rfl, by rwa [mul_one], fun _ => ⟨rfl, one.symm⟩⟩
  · obtain ⟨c, common, done⟩ := bind_ok.mp done
    obtain ⟨a, left, done⟩ := bind_ok.mp done
    obtain ⟨b, right, done⟩ := bind_ok.mp done
    obtain ⟨n, top, made⟩ := bind_ok.mp done
    obtain rfl := checked_eq top
    obtain rfl := checked_eq left
    obtain ⟨rfl, ranged⟩ := checked_ok.mp right
    obtain ⟨p, product, common⟩ := bind_ok.mp common
    obtain rfl := checked_eq product
    obtain rfl := checked_eq common
    simp only [ofInt, Int.gcd_one_right, Nat.cast_one, Int.tdiv_one, mul_one] at made ranged ⊢
    have nonzero := (make_value made).1
    refine ⟨_, _, by omega, .inr ranged, made, fun positive => ?_⟩
    have size : (x.denom.natAbs : Int) = x.denom := Int.natAbs_of_nonneg positive.le
    rw [size, Int.tdiv_self (by omega), mul_one]
    exact ⟨rfl, rfl⟩

theorem lcm_one {d : Int} (positive : 0 < d) (ranged : Range.signed64 d = true) : lcm d 1 = .ok d ∧ lcm 1 d = .ok d := by
  have small : (d.natAbs : Int) = d := Int.natAbs_of_nonneg positive.le
  have fits : checked d = .ok d := checked_ok.mpr ⟨rfl, ranged⟩
  unfold lcm
  rw [Int.gcd_one_right, Int.gcd_one_left, Nat.cast_one, Int.tdiv_one, Int.tdiv_one, mul_one, one_mul]
  exact ⟨bind_ok.mpr ⟨d, fits, by rw [small]; exact fits⟩, bind_ok.mpr ⟨d, fits, by rw [small]; exact fits⟩⟩

-- Over a proper denominator, the whole number on the right is brought over it first.
theorem overCommon_proper {op : Int → Int → Int} {a b k : Int} (positive : 0 < b) (numer : Range.signed64 a = true)
    (denom : Range.signed64 b = true) (proper : b ≠ 1) : overCommon op ⟨a, b⟩ (.ofInt k) =
      checked (k * b) >>= fun right => checked (op a right) >>= fun top => make top b := by
  unfold overCommon ofInt
  dsimp only
  rw [if_neg proper, (lcm_one positive denom).1]
  change (checked (a * b.tdiv b) >>= fun left => checked (k * b.tdiv 1) >>= fun right =>
    checked (op left right) >>= fun top => make top b) = _
  rw [Int.tdiv_self positive.ne', mul_one, Int.tdiv_one, checked_fits numer]
  rfl

theorem overCommon_ofInt {op : Int → Int → Int} {a b k : Int} (positive : 0 < b) (numer : Range.signed64 a = true)
    (denom : Range.signed64 b = true) (ranged : b = 1 ∨ Range.signed64 (k * b) = true) (result : Range.signed64 (op a (k * b)) = true) :
    overCommon op ⟨a, b⟩ (.ofInt k) = make (op a (k * b)) b := by
  by_cases one : b = 1
  · unfold overCommon ofInt
    dsimp only
    rw [one, mul_one] at result
    rw [if_pos one, checked_fits result, one, mul_one]
    rfl
  · rw [overCommon_proper positive numer denom one, checked_fits (ranged.resolve_left one)]
    change (checked (op a (k * b)) >>= fun top => make top b) = _
    rw [checked_fits result]
    rfl

end Fraction

namespace Phase
open Fraction

structure Normal (p : Phase) : Prop where
  positive : 0 < p.coeff.denom
  least : 0 ≤ p.coeff.numer
  below : p.coeff.numer < 2 * p.coeff.denom
  coprime : Int.gcd p.coeff.numer p.coeff.denom = 1
  ranged : p.coeff.denom = 1 ∨ Range.signed64 (2 * p.coeff.denom) = true

-- The phases that can be had: the named ones and the results of all operations, reading included.
inductive Built : Phase → Prop
  | zero : Built .zero
  | pi : Built .pi
  | third : Built .third
  | ofFraction {r : Fraction} {p : Phase} (done : ofFraction r = .ok p) : Built p
  | make {n d : Int} {p : Phase} (done : make n d = .ok p) : Built p
  | ofInt {n : Int} {p : Phase} (done : ofInt n = .ok p) : Built p
  | add {p q r : Phase} (done : p.add q = .ok r) : Built r
  | neg {p q : Phase} (done : p.neg = .ok q) : Built q
  | parse {cs : List Char} {p : Phase} (done : parse cs = .ok p) : Built p

theorem signed64_iff {x : Int} : Range.signed64 x = true ↔ -9223372036854775808 ≤ x ∧ x ≤ 9223372036854775807 := by
  rw [Range.signed64, Bool.and_eq_true, decide_eq_true_iff, decide_eq_true_iff]

theorem signed64_divisor {b c : Int} (positive : 0 < b) (larger : 0 < c) (divides : b ∣ c)
    (ranged : c = 1 ∨ Range.signed64 (2 * c) = true) : b = 1 ∨ Range.signed64 (2 * b) = true := by
  have bounded := Int.le_of_dvd larger divides
  rw [signed64_iff] at ranged ⊢
  omega

theorem ofFraction_normal {r : Fraction} {p : Phase} (done : ofFraction r = .ok p) : p.Normal := by
  obtain ⟨turned, rest, done⟩ := bind_ok.mp done
  obtain ⟨a, c, larger, ranged, made, _⟩ := overCommon_whole rest
  obtain ⟨positive, coprime, divides, cross⟩ := make_lowest made
  have kept := signed64_divisor positive larger divides ranged
  -- what is left over by whole turns is less than one turn
  have turn : 0 < 2 * c := by omega
  have bounds : -(2 * turned.denom) < turned.numer ∧ turned.numer < 2 * turned.denom := by
    constructor
    · refine lt_of_mul_lt_mul_right (a := c) ?_ larger.le
      calc -(2 * turned.denom) * c = -(2 * c) * turned.denom := by ring
        _ < a.tmod (2 * c) * turned.denom := mul_lt_mul_of_pos_right (Int.lt_tmod_of_pos a turn) positive
        _ = turned.numer * c := cross.symm
    · refine lt_of_mul_lt_mul_right (a := c) ?_ larger.le
      calc turned.numer * c = a.tmod (2 * c) * turned.denom := cross
        _ < 2 * c * turned.denom := mul_lt_mul_of_pos_right (Int.tmod_lt_of_pos a turn) positive
        _ = 2 * turned.denom * c := by ring
  split at done
  · rename_i negative
    obtain ⟨up, raised, done⟩ := bind_ok.mp done
    obtain rfl := pure_ok.mp done
    obtain ⟨b, e, _, _, remade, same⟩ := overCommon_whole raised
    obtain ⟨rfl, rfl⟩ := same positive
    have still : Int.gcd (turned.numer + 2 * turned.denom) turned.denom = 1 := by
      rw [Int.gcd_add_mul_right_left]
      exact coprime
    obtain rfl := Except.ok.inj ((make_of_coprime positive still).symm.trans remade)
    exact ⟨positive, by dsimp only; omega, by dsimp only; omega, still, kept⟩
  · rename_i least
    obtain rfl := pure_ok.mp done
    exact ⟨positive, by dsimp only; omega, bounds.2, coprime, kept⟩

theorem Built.normal {p : Phase} (built : p.Built) : p.Normal := by
  cases built with
  | zero => exact ⟨by decide, by decide, by decide, by decide, .inl rfl⟩
  | pi => exact ⟨by decide, by decide, by decide, by decide, .inl rfl⟩
  | third => exact ⟨by decide, by decide, by decide, by decide, .inr rfl⟩
  | ofFraction done => exact ofFraction_normal done
  | make done => exact (bind_ok.mp done).elim fun _ made => ofFraction_normal made.2
  | ofInt done => exact ofFraction_normal done
  | add done => exact (bind_ok.mp done).elim fun _ added => ofFraction_normal added.2
  | neg done => exact (bind_ok.mp done).elim fun _ flipped => ofFraction_normal flipped.2
  | parse done =>
    unfold Phase.parse at done
    split at done
    · cases done
    · exact (bind_ok.mp (mapError_ok.mp done)).elim fun _ read => ofFraction_normal read.2

theorem Normal.eq_zero {p : Phase} (normal : p.Normal) (zero : p.isZero = true) : p = .zero := by
  obtain ⟨⟨numer, denom⟩⟩ := p
  obtain ⟨positive, _, _, coprime, _⟩ := normal
  obtain rfl : numer = 0 := by simpa [isZero] using zero
  have one : denom = 1 := by
    simp only [Int.gcd_zero_left] at coprime positive
    omega
  rw [one]
  rfl

theorem Normal.fits {p : Phase} (normal : p.Normal) :
    Range.signed64 p.coeff.numer = true ∧ Range.signed64 p.coeff.denom = true := by
  obtain ⟨positive, least, below, _, ranged⟩ := normal
  rw [signed64_iff] at ranged
  rw [signed64_iff, signed64_iff]
  omega

-- A normal phase is left as it is.
theorem Normal.ofFraction {p : Phase} (normal : p.Normal) : ofFraction p.coeff = .ok p := by
  obtain ⟨⟨numer, denom⟩⟩ := p
  obtain ⟨top, bottom⟩ := normal.fits
  obtain ⟨positive, least, below, coprime, ranged⟩ := normal
  dsimp only at positive least below coprime ranged top bottom
  have kept : numer.tmod (2 * denom) = numer := Int.tmod_eq_of_lt least below
  have rest : Fraction.rem ⟨numer, denom⟩ (.ofInt 2) = .ok ⟨numer, denom⟩ := by
    rw [Fraction.rem, overCommon_ofInt positive top bottom ranged (by rwa [kept]), kept]
    exact make_of_coprime positive coprime
  refine bind_ok.mpr ⟨_, rest, ?_⟩
  rw [if_neg (by simpa using least)]
  rfl

-- Nothing is added to a normal phase, from either side.
theorem Normal.plus_zero {p : Phase} (normal : p.Normal) : p.add .zero = .ok p ∧ zero.add p = .ok p := by
  have kept := normal.ofFraction
  obtain ⟨⟨numer, denom⟩⟩ := p
  obtain ⟨top, bottom⟩ := normal.fits
  obtain ⟨positive, least, below, coprime, ranged⟩ := normal
  dsimp only at positive least below coprime ranged top bottom
  have made := make_of_coprime positive coprime
  have right : Fraction.add ⟨numer, denom⟩ (.ofInt 0) = .ok ⟨numer, denom⟩ := by
    have none : numer + 0 * denom = numer := by rw [zero_mul, add_zero]
    rw [Fraction.add, overCommon_ofInt positive top bottom (.inr (by rw [zero_mul]; rfl)) (by rwa [none]), none]
    exact made
  have left : Fraction.add (.ofInt 0) ⟨numer, denom⟩ = .ok ⟨numer, denom⟩ := by
    have fits := checked_fits top
    unfold Fraction.add overCommon Fraction.ofInt
    dsimp only
    by_cases one : denom = 1
    · rw [if_pos one.symm]
      exact bind_ok.mpr ⟨numer, by simpa using fits, one ▸ made⟩
    · have whole : denom.tdiv denom = 1 := Int.tdiv_self (by omega)
      rw [if_neg (Ne.symm one)]
      refine bind_ok.mpr ⟨denom, (lcm_one positive bottom).2, bind_ok.mpr ⟨0, by simpa using checked_fits rfl, ?_⟩⟩
      refine bind_ok.mpr ⟨numer, by simpa [whole] using fits, bind_ok.mpr ⟨numer, by simpa using fits, made⟩⟩
  exact ⟨bind_ok.mpr ⟨_, right, kept⟩, bind_ok.mpr ⟨_, left, kept⟩⟩

-- A normal phase is written with two natural numbers.
theorem Normal.exists_chars {p : Phase} (normal : p.Normal) : ∃ n d : Nat, p.coeff = ⟨n, d⟩ ∧
    p.chars = if d = 1 then Text.ofNat n else Text.ofNat n ++ '/' :: Text.ofNat d := by
  obtain ⟨⟨numer, denom⟩⟩ := p
  obtain ⟨positive, least, _⟩ := normal
  obtain ⟨n, rfl⟩ := Int.eq_ofNat_of_zero_le least
  obtain ⟨d, rfl⟩ := Int.eq_ofNat_of_zero_le positive.le
  refine ⟨n, d, rfl, ?_⟩
  rw [chars]
  simp only [Nat.cast_eq_one]
  rfl

theorem Normal.parse_chars {p : Phase} (normal : p.Normal) : parse p.chars = .ok p := by
  have kept := normal.ofFraction
  obtain ⟨n, d, shape, text⟩ := normal.exists_chars
  obtain ⟨numer, denom⟩ := normal.fits
  obtain ⟨positive, _, _, coprime, _⟩ := normal
  rw [shape] at positive coprime kept numer denom
  dsimp only at positive coprime numer denom
  have unblank : ∀ k, ∀ c ∈ Text.ofNat k, Text.isBlank c = false := fun k c listed =>
    Text.Numeral.unblank (.inl (Text.ofNat_digits c listed))
  have noSlash : '/' ∉ Text.ofNat n := fun listed => by cases Text.ofNat_digits _ listed
  rw [parse, text]
  by_cases one : d = 1
  · rw [if_pos one, Text.trim_unblank (unblank n), fraction?, Text.splitAt?_absent noSlash]
    simp only [Text.intIn?_ofNat numer, Option.map_some]
    rw [one] at kept
    exact mapError_ok.mpr kept
  · have whole : ∀ c ∈ Text.ofNat n ++ '/' :: Text.ofNat d, Text.isBlank c = false := by
      intro c listed
      rcases List.mem_append.mp listed with first | second
      · exact unblank n c first
      · rcases List.mem_cons.mp second with rfl | second
        · rfl
        · exact unblank d c second
    rw [if_neg one, Text.trim_unblank whole, fraction?, Text.splitAt?_append noSlash]
    simp only [Text.trim_unblank (unblank n), Text.trim_unblank (unblank d), Text.intIn?_ofNat numer, Text.intIn?_ofNat denom]
    have nonzero : ¬(d : Int) = 0 := by omega
    simp only [Option.bind_eq_bind, Option.bind_some, if_neg nonzero]
    exact mapError_ok.mpr (bind_ok.mpr ⟨_, make_of_coprime positive coprime, kept⟩)

end Phase

end ToffoliBench

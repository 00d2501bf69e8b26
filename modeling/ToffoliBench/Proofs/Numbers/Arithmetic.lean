import Mathlib.Algebra.GCDMonoid.Nat
import ToffoliBench.Proofs.Numbers.Overflow
import ToffoliBench.Proofs.Numbers.Stored

namespace ToffoliBench

open Outcome

namespace Fraction

variable {a b n d : Int} {x y : Fraction} {f : Int → Int → Int}

-- Up to this denominator, numerators of two turns can still be added.
def span : Int := 2305843009213693952

theorem lcm_small (left : 0 < a) (right : 0 < b) (small : (Int.lcm a b : Int) ≤ span) : lcm a b = .ok (Int.lcm a b) := by
  have product : a * b.tdiv (Int.gcd a b) = (Int.lcm a b : Int) := by
    have share : (Int.gcd a b : Int) * (Int.lcm a b : Int) = a * b := by
      rw [← Nat.cast_mul, Int.gcd_mul_lcm, ← Int.natAbs_mul, Int.natAbs_of_nonneg (mul_pos left right).le]
    have positive : (Int.gcd a b : Int) ≠ 0 := by
      exact_mod_cast (Int.gcd_pos_of_ne_zero_left b left.ne').ne'
    refine mul_left_cancel₀ positive ?_
    rw [share, mul_left_comm, Int.mul_tdiv_cancel' (Int.gcd_dvd_right ..)]
  have fits : Range.signed64 (Int.lcm a b : Int) = true := by
    rw [span] at small
    exact Phase.signed64_iff.mpr (by omega)
  unfold lcm
  rw [product, checked_fits fits]
  change checked ((Int.lcm a b : Int).natAbs : Int) = _
  rw [Int.natAbs_natCast, checked_fits fits]

-- Equal denominators are their own common one, so one formula covers both ways to add.
theorem overCommon_small (left : 0 < x.denom) (right : 0 < y.denom) (small : (Int.lcm x.denom y.denom : Int) ≤ span)
    (first : Range.signed64 (x.numer * (Int.lcm x.denom y.denom : Int).tdiv x.denom) = true)
    (second : Range.signed64 (y.numer * (Int.lcm x.denom y.denom : Int).tdiv y.denom) = true)
    (result : Range.signed64 (f (x.numer * (Int.lcm x.denom y.denom : Int).tdiv x.denom)
      (y.numer * (Int.lcm x.denom y.denom : Int).tdiv y.denom)) = true) :
    overCommon f x y = make (f (x.numer * (Int.lcm x.denom y.denom : Int).tdiv x.denom)
      (y.numer * (Int.lcm x.denom y.denom : Int).tdiv y.denom)) (Int.lcm x.denom y.denom) := by
  by_cases same : x.denom = y.denom
  · have own : (Int.lcm x.denom y.denom : Int) = x.denom := by
      rw [← same, Int.lcm_self, Int.natAbs_of_nonneg left.le]
    have whole : x.denom.tdiv x.denom = 1 := Int.tdiv_self left.ne'
    rw [own, ← same, whole, mul_one, mul_one] at result ⊢
    rw [overCommon, if_pos same, checked_fits result]
    rfl
  · rw [overCommon, if_neg same, lcm_small left right small]
    change (checked _ >>= fun a => checked _ >>= fun b => checked (f a b) >>= fun n => make n _) = _
    rw [checked_fits first, checked_fits second]
    change (checked (f _ _) >>= fun n => make n _) = _
    rw [checked_fits result]
    rfl

-- Only the least number has no opposite.
theorem make_exists (top : -9223372036854775807 ≤ n) (topLess : n ≤ 9223372036854775807) (nonzero : d ≠ 0) (bottom : |d| ≤ span) :
    ∃ r, make n d = .ok r ∧ -9223372036854775807 ≤ r.numer ∧ r.numer ≤ 9223372036854775807 ∧ r.denom ≤ span := by
  have positive : 0 < Int.gcd n d := Int.gcd_pos_of_ne_zero_right n nonzero
  obtain ⟨a, b, coprime, numer, denom⟩ := Int.exists_gcd_one positive
  have factor : (1 : Int) ≤ (Int.gcd n d : Int) := by exact_mod_cast positive
  generalize (Int.gcd n d : Int) = g at factor numer denom
  have proper : b ≠ 0 := by
    rintro rfl
    exact nonzero (by rw [denom, zero_mul])
  have shrinks : ∀ {k m : Int}, m = k * g → |k| ≤ |m| := fun {k m} whole => by
    rw [whole, abs_mul, abs_of_pos (by omega : 0 < g)]
    exact le_mul_of_one_le_right (abs_nonneg k) factor
  have numerSize := abs_le.mp ((shrinks numer).trans (abs_le.mpr ⟨top, topLess⟩))
  have denomSize := abs_le.mp ((shrinks denom).trans bottom)
  rw [span] at denomSize ⊢
  rw [numer, denom, make_reduced (by omega) proper coprime]
  split
  · have turned : Range.signed64 (0 - a) = true ∧ Range.signed64 (0 - b) = true := by
      rw [Phase.signed64_iff, Phase.signed64_iff]
      omega
    exact ⟨⟨0 - a, 0 - b⟩, bind_ok.mpr ⟨_, checked_fits turned.1, bind_ok.mpr ⟨_, checked_fits turned.2, rfl⟩⟩,
      by dsimp only; omega, by dsimp only; omega, by dsimp only; omega⟩
  · exact ⟨⟨a, b⟩, rfl, numerSize.1, numerSize.2, denomSize.2⟩

theorem denom_dvd {c k : Int} (positive : 0 < x.denom) (coprime : Int.gcd x.numer x.denom = 1) (nonzero : c ≠ 0)
    (same : x.value = k / c) : x.denom ∣ c := by
  have below : (x.denom : ℚ) ≠ 0 := by exact_mod_cast positive.ne'
  have other : (c : ℚ) ≠ 0 := by exact_mod_cast nonzero
  have cross : x.numer * c = k * x.denom := by
    rw [value, div_eq_div_iff below other] at same
    exact_mod_cast same
  exact (Int.isCoprime_iff_gcd_eq_one.mpr coprime).symm.dvd_of_dvd_mul_left ⟨k, by rw [cross, mul_comm]⟩

end Fraction

namespace Phase
open Fraction

variable {n d a c : Int} {p q r s : Phase}

-- Whole turns are taken away and nothing else.
theorem ofFraction_value {x : Fraction} (done : ofFraction x = .ok p) : ∃ k : Int, p.coeff.value = x.value - k * 2 := by
  have two : (Fraction.ofInt 2).value = 2 := by simp [Fraction.ofInt, Fraction.value]
  obtain ⟨turned, rest, done⟩ := bind_ok.mp done
  obtain ⟨k, shift⟩ := Fraction.rem_value rest
  rw [two] at shift
  split at done
  · obtain ⟨up, raised, done⟩ := bind_ok.mp done
    obtain rfl := pure_ok.mp done
    have total := Fraction.add_value raised
    rw [two, shift] at total
    exact ⟨k - 1, by rw [total]; push_cast; ring⟩
  · obtain rfl := pure_ok.mp done
    exact ⟨k, shift⟩

theorem modEq_of_shift {x y : ℚ} {k : Int} (shift : x = y - k * 2) : x ≡ y [PMOD 2] :=
  AddCommGroup.modEq_iff_zsmul'.mpr ⟨k, by rw [shift]; simp⟩

-- The two numbers that a phase may be given by.
structure Measured (n d : Int) : Prop where
  top : -9223372036854775807 ≤ n ∧ n ≤ 9223372036854775807
  bottom : |d| ≤ span
  nonzero : d ≠ 0

def Given (p : Phase) : Prop := ∃ n d, Measured n d ∧ make n d = .ok p

-- The exact phase of a fraction, whatever terms the fraction is in.
structure Exactly (p : Phase) (a c : Int) : Prop where
  reduced : p.Reduced
  same : p.coeff.value ≡ a / c [PMOD 2]
  divides : p.coeff.denom ∣ c

theorem make_exactly (measured : Measured n d) : ∃ p, make n d = .ok p ∧ p.Exactly n d := by
  obtain ⟨⟨least, most⟩, bottom, nonzero⟩ := measured
  obtain ⟨x, made, low, high, small⟩ := make_exists least most nonzero bottom
  obtain ⟨positive, coprime, divides, _⟩ := make_lowest made
  rw [span] at small
  obtain ⟨p, turned⟩ := ofFraction_exists positive coprime (signed64_iff.mpr (by omega)) (signed64_iff.mpr (by omega))
    (.inr (signed64_iff.mpr (by omega)))
  have reduced : p.Reduced := (Built.ofFraction turned).reduced
  obtain ⟨k, shift⟩ := ofFraction_value turned
  have below : (x.denom : ℚ) ≠ 0 := by exact_mod_cast positive.ne'
  have fraction : p.coeff.value = (x.numer - k * 2 * x.denom : Int) / x.denom := by
    rw [shift, Fraction.value]
    push_cast
    field_simp
  refine ⟨p, bind_ok.mpr ⟨x, made, turned⟩, reduced, ?_, ?_⟩
  · rw [← (make_value made).2.2]
    exact modEq_of_shift shift
  · exact (denom_dvd reduced.positive reduced.coprime positive.ne' fraction).trans divides

theorem Exactly.unique (one : p.Exactly a c) (other : q.Reduced) (same : q.coeff.value ≡ a / c [PMOD 2]) : q = p :=
  (other.eq_iff one.reduced).mpr (same.trans one.same.symm)

theorem Reduced.numer_bounds (reduced : p.Reduced) : 0 ≤ p.coeff.numer ∧ p.coeff.numer < 2 * p.coeff.denom := by
  have denom : (0 : ℚ) < p.coeff.denom := by exact_mod_cast reduced.positive
  have least := reduced.least
  have below := reduced.below
  rw [Fraction.value] at least below
  rw [le_div_iff₀ denom, zero_mul] at least
  rw [div_lt_iff₀ denom] at below
  exact ⟨by exact_mod_cast least, by exact_mod_cast below⟩

theorem Reduced.normal (reduced : p.Reduced) (small : p.coeff.denom ≤ span) : p.Normal := by
  obtain ⟨least, below⟩ := reduced.numer_bounds
  have positive := reduced.positive
  rw [span] at small
  exact ⟨positive, least, below, reduced.coprime, .inr (signed64_iff.mpr (by omega))⟩

theorem given_iff : p.Given ↔ p.Reduced ∧ p.coeff.denom ≤ span := by
  constructor
  · rintro ⟨n, d, measured, made⟩
    obtain ⟨again, madeAgain, exactly_⟩ := make_exactly measured
    obtain rfl := Except.ok.inj (made.symm.trans madeAgain)
    refine ⟨exactly_.reduced, le_trans ?_ measured.bottom⟩
    exact Int.le_of_dvd (abs_pos.mpr measured.nonzero) ((dvd_abs _ _).mpr exactly_.divides)
  · rintro ⟨reduced, small⟩
    obtain ⟨least, below⟩ := reduced.numer_bounds
    have positive := reduced.positive
    have kept := (reduced.normal small).ofFraction
    refine ⟨p.coeff.numer, p.coeff.denom, ⟨?_, ?_, positive.ne'⟩,
      bind_ok.mpr ⟨p.coeff, make_of_coprime positive reduced.coprime, kept⟩⟩
    · rw [span] at small
      omega
    · rwa [abs_of_pos positive]

theorem Reduced.scaled {m : Int} (reduced : p.Reduced) (positive : 0 < m) (divides : p.coeff.denom ∣ m) :
    0 ≤ p.coeff.numer * m.tdiv p.coeff.denom ∧ p.coeff.numer * m.tdiv p.coeff.denom < 2 * m ∧
      p.coeff.value = (p.coeff.numer * m.tdiv p.coeff.denom : Int) / m := by
  obtain ⟨least, below⟩ := reduced.numer_bounds
  obtain ⟨k, rfl⟩ := divides
  have denom := reduced.positive
  have factor : 0 < k := pos_of_mul_pos_right positive denom.le
  rw [Int.mul_tdiv_cancel_left _ denom.ne']
  refine ⟨mul_nonneg least factor.le, ?_, ?_⟩
  · calc p.coeff.numer * k < 2 * p.coeff.denom * k := mul_lt_mul_of_pos_right below factor
      _ = 2 * (p.coeff.denom * k) := by ring
  · have cast : (k : ℚ) ≠ 0 := by exact_mod_cast factor.ne'
    rw [Fraction.value, Int.cast_mul, Int.cast_mul, mul_div_mul_right _ _ cast]

theorem lcm_positive (left : p.Reduced) (right : q.Reduced) : 0 < (Int.lcm p.coeff.denom q.coeff.denom : Int) := by
  exact_mod_cast Int.lcm_pos left.positive.ne' right.positive.ne'

theorem add_exactly (left : p.Reduced) (right : q.Reduced) (small : (Int.lcm p.coeff.denom q.coeff.denom : Int) ≤ span) :
    ∃ s, p.add q = .ok s ∧ s.Reduced ∧ s.coeff.value ≡ p.coeff.value + q.coeff.value [PMOD 2] ∧
      s.coeff.denom ∣ Int.lcm p.coeff.denom q.coeff.denom := by
  have positive := lcm_positive left right
  have common := overCommon_small (x := p.coeff) (y := q.coeff) (f := (· + ·)) left.positive right.positive small
  obtain ⟨least, below, value⟩ := left.scaled positive (Int.dvd_lcm_left ..)
  obtain ⟨least', below', value'⟩ := right.scaled positive (Int.dvd_lcm_right ..)
  rw [value, value', ← add_div, ← Int.cast_add]
  generalize (Int.lcm p.coeff.denom q.coeff.denom : Int) = m at *
  generalize p.coeff.numer * m.tdiv p.coeff.denom = a at *
  generalize q.coeff.numer * m.tdiv q.coeff.denom = b at *
  rw [span] at small
  have made := common (signed64_iff.mpr (by omega)) (signed64_iff.mpr (by omega)) (signed64_iff.mpr (by omega))
  obtain ⟨s, done, exactly_⟩ := make_exactly (n := a + b) (d := m) ⟨by omega, by rw [span, abs_of_pos positive]; omega, positive.ne'⟩
  refine ⟨s, ?_, exactly_.reduced, exactly_.same, exactly_.divides⟩
  obtain ⟨x, fraction, turned⟩ := bind_ok.mp done
  exact bind_ok.mpr ⟨x, made.trans fraction, turned⟩

theorem neg_exactly (reduced : p.Reduced) (small : p.coeff.denom ≤ span) :
    ∃ s, p.neg = .ok s ∧ s.Reduced ∧ s.coeff.value ≡ -p.coeff.value [PMOD 2] ∧ s.coeff.denom ∣ p.coeff.denom := by
  obtain ⟨least, below⟩ := reduced.numer_bounds
  have positive := reduced.positive
  have coprime : Int.gcd (-p.coeff.numer) p.coeff.denom = 1 := by
    rw [Int.neg_gcd]
    exact reduced.coprime
  have measured : Measured (-p.coeff.numer) p.coeff.denom := by
    refine ⟨?_, by rwa [abs_of_pos positive], positive.ne'⟩
    rw [span] at small
    omega
  obtain ⟨s, done, exactly_⟩ := make_exactly measured
  obtain ⟨x, fraction, turned⟩ := bind_ok.mp done
  obtain rfl := Except.ok.inj ((make_of_coprime positive coprime).symm.trans fraction)
  refine ⟨s, ?_, exactly_.reduced, ?_, exactly_.divides⟩
  · have fits : Range.signed64 (-p.coeff.numer) = true := by
      rw [span] at small
      exact signed64_iff.mpr (by omega)
    exact bind_ok.mpr ⟨_, bind_ok.mpr ⟨_, checked_fits fits, rfl⟩, turned⟩
  · have opposite : -p.coeff.value = (-p.coeff.numer : Int) / p.coeff.denom := by rw [Fraction.value, Int.cast_neg, neg_div]
    rw [opposite]
    exact exactly_.same

theorem add_both (left : p.Reduced) (right : q.Reduced) (small : (Int.lcm p.coeff.denom q.coeff.denom : Int) ≤ span) :
    ∃ s, p.add q = .ok s ∧ q.add p = .ok s ∧ s.Reduced ∧ s.coeff.value ≡ p.coeff.value + q.coeff.value [PMOD 2] ∧
      s.coeff.denom ∣ Int.lcm p.coeff.denom q.coeff.denom := by
  obtain ⟨s, done, reduced, same, divides⟩ := add_exactly left right small
  obtain ⟨t, done', reduced', same', _⟩ := add_exactly right left (Int.lcm_comm .. ▸ small)
  rw [add_comm] at same'
  obtain rfl := (reduced.eq_iff reduced').mpr (same.trans same'.symm)
  exact ⟨s, done, done', reduced, same, divides⟩

theorem add_opposite (reduced : p.Reduced) (small : p.coeff.denom ≤ span) :
    ∃ s, p.neg = .ok s ∧ s.Reduced ∧ s.coeff.value ≡ -p.coeff.value [PMOD 2] ∧ s.coeff.denom ∣ p.coeff.denom ∧
      p.add s = .ok .zero ∧ s.add p = .ok .zero := by
  obtain ⟨s, done, opposite, same, divides⟩ := neg_exactly reduced small
  have common := Int.le_of_dvd reduced.positive (Int.coe_lcm_dvd dvd_rfl divides)
  obtain ⟨t, sum, sum', total, whole, _⟩ := add_both reduced opposite (common.trans small)
  have nothing : t.coeff.value ≡ zero.coeff.value [PMOD 2] := by
    have cancels : p.coeff.value + -p.coeff.value = zero.coeff.value := by simp [zero, Fraction.value]
    rw [← cancels]
    exact whole.trans (same.add_left _)
  obtain rfl := (total.eq_iff Built.zero.reduced).mpr nothing
  exact ⟨s, done, opposite, same, divides, sum, sum'⟩

theorem add_regroup (first : p.Reduced) (second : q.Reduced) (third : r.Reduced)
    (small : (Int.lcm (Int.lcm p.coeff.denom q.coeff.denom) r.coeff.denom : Int) ≤ span) :
    ∃ left right sum, p.add q = .ok left ∧ q.add r = .ok right ∧ left.add r = .ok sum ∧ p.add right = .ok sum := by
  have positive : 0 < Int.lcm (Int.lcm p.coeff.denom q.coeff.denom) r.coeff.denom :=
    Int.lcm_pos (lcm_positive first second).ne' third.positive.ne'
  -- A common denominator of some of the three is a divisor of that of all of them.
  have within : ∀ {a b : Int}, a ∣ Int.lcm (Int.lcm p.coeff.denom q.coeff.denom) r.coeff.denom →
      b ∣ Int.lcm (Int.lcm p.coeff.denom q.coeff.denom) r.coeff.denom → (Int.lcm a b : Int) ≤ span := fun one two =>
    (Int.le_of_dvd (by exact_mod_cast positive) (Int.coe_lcm_dvd one two)).trans small
  have pair : (Int.lcm p.coeff.denom q.coeff.denom : Int) ∣ Int.lcm (Int.lcm p.coeff.denom q.coeff.denom) r.coeff.denom :=
    Int.dvd_lcm_left ..
  have one : p.coeff.denom ∣ Int.lcm (Int.lcm p.coeff.denom q.coeff.denom) r.coeff.denom := (Int.dvd_lcm_left ..).trans pair
  have two : q.coeff.denom ∣ Int.lcm (Int.lcm p.coeff.denom q.coeff.denom) r.coeff.denom := (Int.dvd_lcm_right ..).trans pair
  have three : r.coeff.denom ∣ Int.lcm (Int.lcm p.coeff.denom q.coeff.denom) r.coeff.denom := Int.dvd_lcm_right ..
  obtain ⟨left, doneLeft, reducedLeft, sameLeft, dividesLeft⟩ := add_exactly first second (within one two)
  obtain ⟨right, doneRight, reducedRight, sameRight, dividesRight⟩ := add_exactly second third (within two three)
  obtain ⟨s, done, reduced, same, _⟩ := add_exactly reducedLeft third (within (dividesLeft.trans pair) three)
  obtain ⟨t, done', reduced', same', _⟩ := add_exactly first reducedRight
    (within one (dividesRight.trans (Int.coe_lcm_dvd two three)))
  have total : s.coeff.value ≡ t.coeff.value [PMOD 2] :=
    calc s.coeff.value ≡ left.coeff.value + r.coeff.value [PMOD 2] := same
      _ ≡ p.coeff.value + q.coeff.value + r.coeff.value [PMOD 2] := sameLeft.add_right _
      _ ≡ p.coeff.value + (q.coeff.value + r.coeff.value) [PMOD 2] := by rw [add_assoc]
      _ ≡ p.coeff.value + right.coeff.value [PMOD 2] := (sameRight.symm).add_left _
      _ ≡ t.coeff.value [PMOD 2] := same'.symm
  obtain rfl := (reduced.eq_iff reduced').mpr total
  exact ⟨left, right, s, doneLeft, doneRight, done, done'⟩

-- What is given by two numbers in bounds is the exact phase, and so are sums and opposites; they can be
-- given in bounds again. The laws hold for the results themselves, and a text gives its phase back.
theorem arithmetic_exact :
    (∀ n d, Measured n d → ∃ p, make n d = .ok p ∧ p.Reduced ∧ p.coeff.value ≡ n / d [PMOD 2] ∧
      ∀ q : Phase, q.Reduced → q.coeff.value ≡ n / d [PMOD 2] → q = p) ∧
    (∀ p : Phase, p.Given → p.add .zero = .ok p ∧ zero.add p = .ok p ∧ parse p.text.toList = .ok p ∧
      ∃ s, p.neg = .ok s ∧ s.Given ∧ s.Reduced ∧ s.coeff.value ≡ -p.coeff.value [PMOD 2] ∧ p.add s = .ok .zero ∧ s.add p = .ok .zero) ∧
    (∀ p q : Phase, p.Given → q.Given → (p = q ↔ p.coeff.value ≡ q.coeff.value [PMOD 2]) ∧
      ((Int.lcm p.coeff.denom q.coeff.denom : Int) ≤ span → ∃ s, p.add q = .ok s ∧ q.add p = .ok s ∧ s.Given ∧ s.Reduced ∧
        s.coeff.value ≡ p.coeff.value + q.coeff.value [PMOD 2])) ∧
    ∀ p q r : Phase, p.Given → q.Given → r.Given →
      (Int.lcm (Int.lcm p.coeff.denom q.coeff.denom) r.coeff.denom : Int) ≤ span →
      ∃ left right sum, p.add q = .ok left ∧ q.add r = .ok right ∧ left.add r = .ok sum ∧ p.add right = .ok sum := by
  refine ⟨fun n d measured => ?_, fun p given => ?_, fun p q left right => ⟨?_, fun small => ?_⟩, fun p q r first second third => ?_⟩
  · obtain ⟨p, made, exactly_⟩ := make_exactly measured
    exact ⟨p, made, exactly_.reduced, exactly_.same, fun q => exactly_.unique⟩
  · obtain ⟨reduced, small⟩ := given_iff.mp given
    have normal := reduced.normal small
    obtain ⟨s, done, opposite, same, divides, sum, sum'⟩ := add_opposite reduced small
    have read : parse p.text.toList = .ok p := by
      rw [text, String.toList_ofList]
      exact normal.parse_chars
    exact ⟨normal.plus_zero.1, normal.plus_zero.2, read, s, done,
      given_iff.mpr ⟨opposite, (Int.le_of_dvd reduced.positive divides).trans small⟩, opposite, same, sum, sum'⟩
  · exact (given_iff.mp left).1.eq_iff (given_iff.mp right).1
  · obtain ⟨s, done, done', reduced, same, divides⟩ := add_both (given_iff.mp left).1 (given_iff.mp right).1 small
    have positive := lcm_positive (given_iff.mp left).1 (given_iff.mp right).1
    exact ⟨s, done, done', given_iff.mpr ⟨reduced, (Int.le_of_dvd positive divides).trans small⟩, reduced, same⟩
  · exact add_regroup (given_iff.mp first).1 (given_iff.mp second).1 (given_iff.mp third).1

-- At the bound itself, with the numerators one short of two turns: the sum needs all of 64 bits.
theorem arithmetic_exact_widest : Measured (-1) span ∧ Measured (-3) span ∧ ∃ p q s : Phase, make (-1) span = .ok p ∧
    make (-3) span = .ok q ∧ p.coeff = ⟨4611686018427387903, span⟩ ∧ p.add q = .ok s ∧ q.add p = .ok s ∧
    s.coeff = ⟨1152921504606846975, 576460752303423488⟩ ∧ (p = q ↔ p.coeff.value ≡ q.coeff.value [PMOD 2]) ∧
    (∃ left right sum, p.add q = .ok left ∧ q.add s = .ok right ∧ left.add s = .ok sum ∧ p.add right = .ok sum) ∧
    parse p.text.toList = .ok p := by
  have one : Measured (-1) span := ⟨by decide, by decide, by decide⟩
  have three : Measured (-3) span := ⟨by decide, by decide, by decide⟩
  obtain ⟨_, single, pairs, triples⟩ := arithmetic_exact
  have first : make (-1) span = .ok ⟨⟨4611686018427387903, span⟩⟩ := by decide
  have second : make (-3) span = .ok ⟨⟨4611686018427387901, span⟩⟩ := by decide
  have left : (⟨⟨4611686018427387903, span⟩⟩ : Phase).Given := ⟨_, _, one, first⟩
  have right : (⟨⟨4611686018427387901, span⟩⟩ : Phase).Given := ⟨_, _, three, second⟩
  obtain ⟨equal, sums⟩ := pairs _ _ left right
  obtain ⟨s, done, done', given, _⟩ := sums (by decide)
  have sum : s = ⟨⟨1152921504606846975, 576460752303423488⟩⟩ := Except.ok.inj (done.symm.trans (by decide))
  subst sum
  exact ⟨one, three, _, _, _, first, second, rfl, done, done', rfl, equal, triples _ _ _ left right given (by decide),
    (single _ left).2.2.1⟩

end Phase

end ToffoliBench

import Mathlib.RingTheory.Coprime.Lemmas
import ToffoliBench.Proofs.Numbers.Normal

namespace ToffoliBench

open Outcome

namespace Fraction

variable {a b g k : Int} {op : Int → Int → Int}

theorem checked_fault {x : Int} (out : ¬Range.signed64 x = true) : checked x = .error .overflow := by
  rw [checked, within, if_neg out]

-- Over a common factor, only the sign of the denominator may still have to move.
theorem make_reduced (positive : 0 < g) (nonzero : b ≠ 0) (coprime : Int.gcd a b = 1) : make (a * g) (b * g) =
    if b < 0 then checked (0 - a) >>= fun numer => checked (0 - b) >>= fun denom => .ok ⟨numer, denom⟩ else .ok ⟨a, b⟩ := by
  have factor : ((Int.gcd (a * g) (b * g) : Nat) : Int) = g := by
    rw [Int.gcd_mul_right, coprime, Nat.one_mul]
    exact Int.natAbs_of_nonneg positive.le
  unfold make
  rw [if_neg (mul_ne_zero nonzero positive.ne')]
  split
  · rename_i zero
    obtain rfl := (mul_eq_zero.mp zero).resolve_right positive.ne'
    rw [Int.gcd_zero_left] at coprime
    obtain rfl | rfl : b = 1 ∨ b = -1 := by omega
    · rfl
    · rfl
  split
  · rename_i same
    obtain rfl := mul_right_cancel₀ positive.ne' same
    rw [Int.gcd_self] at coprime
    obtain rfl | rfl : a = 1 ∨ a = -1 := by omega
    · rfl
    · rfl
  · simp only [factor, Int.mul_tdiv_cancel _ positive.ne']
    rfl

theorem overCommon_fault (positive : 0 < b) (numer : Range.signed64 a = true) (denom : Range.signed64 b = true)
    (proper : b ≠ 1) (out : ¬Range.signed64 (k * b) = true) : overCommon op ⟨a, b⟩ (.ofInt k) = .error .overflow := by
  rw [overCommon_proper positive numer denom proper, checked_fault out]
  rfl

end Fraction

namespace Phase
open Fraction

variable {a b n d : Int} {f : Fault} {cs : List Char}

theorem ofFraction_exists (positive : 0 < b) (coprime : Int.gcd a b = 1) (numer : Range.signed64 a = true)
    (denom : Range.signed64 b = true) (ranged : b = 1 ∨ Range.signed64 (2 * b) = true) : ∃ p, ofFraction ⟨a, b⟩ = .ok p := by
  have turn : 0 < 2 * b := by omega
  have low := Int.lt_tmod_of_pos a turn
  have high := Int.tmod_lt_of_pos a turn
  have bounds : 2 * b ≤ 9223372036854775807 := by
    cases ranged with
    | inl one => omega
    | inr fits => exact (signed64_iff.mp fits).2
  generalize shape : a.tmod (2 * b) = t at low high
  have reduced : Int.gcd t b = 1 := by
    have parts : t = a + b * (-2 * a.tdiv (2 * b)) := by
      rw [← shape, Int.tmod_def]
      ring
    rw [parts, Int.gcd_add_mul_left_left]
    exact coprime
  have rest : rem ⟨a, b⟩ (.ofInt 2) = .ok ⟨t, b⟩ := by
    have fits : Range.signed64 t = true := signed64_iff.mpr (by omega)
    rw [rem, overCommon_ofInt positive numer denom ranged (by rwa [shape]), shape]
    exact make_of_coprime positive reduced
  by_cases negative : t < 0
  · have raised : Int.gcd (t + 2 * b) b = 1 := by
      rw [Int.gcd_add_mul_right_left]
      exact reduced
    have up : Fraction.add ⟨t, b⟩ (.ofInt 2) = .ok ⟨t + 2 * b, b⟩ := by
      have fits : Range.signed64 t = true := signed64_iff.mpr (by omega)
      have sum : Range.signed64 (t + 2 * b) = true := signed64_iff.mpr (by omega)
      rw [Fraction.add, overCommon_ofInt positive fits denom ranged sum]
      exact make_of_coprime positive raised
    refine ⟨⟨⟨t + 2 * b, b⟩⟩, bind_ok.mpr ⟨_, rest, ?_⟩⟩
    rw [if_pos negative]
    exact bind_ok.mpr ⟨_, up, rfl⟩
  · refine ⟨⟨⟨t, b⟩⟩, bind_ok.mpr ⟨_, rest, ?_⟩⟩
    rw [if_neg negative]
    rfl

-- A fraction in lowest terms becomes a phase unless twice its denominator is out of range.
theorem ofFraction_fault_iff (positive : 0 < b) (coprime : Int.gcd a b = 1) (numer : Range.signed64 a = true)
    (denom : Range.signed64 b = true) : ofFraction ⟨a, b⟩ = .error f ↔ f = .overflow ∧ 4611686018427387904 ≤ b := by
  by_cases large : 4611686018427387904 ≤ b
  · have out : ¬Range.signed64 (2 * b) = true := fun fits => by
      have bounds := signed64_iff.mp fits
      omega
    have rest : rem ⟨a, b⟩ (.ofInt 2) = .error .overflow := overCommon_fault positive numer denom (by omega) out
    rw [ofFraction, rest]
    change Except.error Fault.overflow = .error f ↔ _
    simp [large, eq_comm]
  · have ranged : b = 1 ∨ Range.signed64 (2 * b) = true := .inr (signed64_iff.mpr (by omega))
    obtain ⟨p, made⟩ := ofFraction_exists positive coprime numer denom ranged
    simp [made, large]

-- Below a negative denominator both signs have to move first, and the least number has no opposite.
theorem turned_fault_iff (negative : b < 0) (coprime : Int.gcd a b = 1) (numer : Range.signed64 a = true)
    (denom : Range.signed64 b = true) :
    (checked (0 - a) >>= fun up => checked (0 - b) >>= fun down => ofFraction ⟨up, down⟩) = .error f ↔
      f = .overflow ∧ (4611686018427387904 ≤ b.natAbs ∨ a = -9223372036854775808) := by
  by_cases low : a = -9223372036854775808
  · have out : ¬Range.signed64 (0 - a) = true := fun fits => by
      have bounds := signed64_iff.mp fits
      omega
    rw [checked_fault out]
    change Except.error Fault.overflow = .error f ↔ _
    simp [low, eq_comm]
  have flipped : Range.signed64 (0 - a) = true := by
    rw [signed64_iff] at numer ⊢
    omega
  rw [checked_fits flipped, or_iff_left low]
  change (checked (0 - b) >>= fun down => ofFraction ⟨0 - a, down⟩) = .error f ↔ _
  by_cases deep : b = -9223372036854775808
  · have out : ¬Range.signed64 (0 - b) = true := fun fits => by
      have bounds := signed64_iff.mp fits
      omega
    rw [checked_fault out]
    change Except.error Fault.overflow = .error f ↔ _
    simp [deep, eq_comm]
  · have turned : Range.signed64 (0 - b) = true := by
      rw [signed64_iff] at denom ⊢
      omega
    have still : Int.gcd (0 - a) (0 - b) = 1 := by simpa using coprime
    have same : 4611686018427387904 ≤ 0 - b ↔ 4611686018427387904 ≤ b.natAbs := by omega
    rw [checked_fits turned]
    change ofFraction ⟨0 - a, 0 - b⟩ = .error f ↔ _
    rw [ofFraction_fault_iff (by omega) still flipped turned, same]

theorem signed64_factor {g : Int} (positive : 0 < g) (product : Range.signed64 (a * g) = true) : Range.signed64 a = true := by
  rw [signed64_iff] at product ⊢
  have unit : 1 ≤ g := positive
  by_cases least : 0 ≤ a
  · have larger : a ≤ a * g := le_mul_of_one_le_right least unit
    omega
  · have smaller : a * g ≤ a * 1 := mul_le_mul_of_nonpos_left unit (not_le.mp least).le
    omega

theorem extreme_factor {g : Int} (positive : 0 < g) (numer : Range.signed64 (a * g) = true) (coprime : Int.gcd a b = 1) :
    a = -9223372036854775808 ↔ a * g = -9223372036854775808 ∧ b * g % 2 = 1 := by
  constructor
  · rintro rfl
    have unit : g = 1 := by
      have bounds := signed64_iff.mp numer
      omega
    have odd : ¬(2 : Int) ∣ b := fun even => by
      have common := Int.dvd_coe_gcd (by decide : (2 : Int) ∣ -9223372036854775808) even
      rw [coprime] at common
      exact absurd common (by decide)
    rw [unit, mul_one, mul_one]
    exact ⟨rfl, by omega⟩
  · rintro ⟨least, odd⟩
    -- an odd factor of a power of two
    have gOdd : ¬(2 : Int) ∣ g := fun even => by
      have divides := even.mul_left b
      omega
    have apart : IsCoprime g (2 ^ 63) := IsCoprime.pow_right ⟨1, -(g / 2), by omega⟩
    have divides : g ∣ 2 ^ 63 := ⟨-a, by rw [mul_neg, mul_comm, least]; rfl⟩
    have unit := Int.isUnit_iff.mp (apart.isUnit_of_dvd divides)
    obtain rfl : g = 1 := by omega
    exact (mul_one a).symm.trans least

-- What a fraction is that no phase can be made of.
def Overflows (n d : Int) : Prop :=
  4611686018427387904 ≤ d.natAbs / Int.gcd n d ∨ (n = -9223372036854775808 ∧ d < 0 ∧ d % 2 = 1)

theorem make_fault_iff (numer : Range.signed64 n = true) (denom : Range.signed64 d = true) (nonzero : d ≠ 0) :
    make n d = .error f ↔ f = .overflow ∧ Overflows n d := by
  have common : 0 < Int.gcd n d := Nat.pos_of_ne_zero fun zero => nonzero (Int.gcd_eq_zero_iff.mp zero).2
  obtain ⟨a, b, coprime, top, bottom⟩ := Int.exists_gcd_one common
  have positive : (0 : Int) < (Int.gcd n d : Nat) := by omega
  have size : d.natAbs / Int.gcd n d = b.natAbs := by
    have product := congrArg Int.natAbs bottom
    rw [Int.natAbs_mul, Int.natAbs_natCast] at product
    rw [product, Nat.mul_div_cancel _ common]
  rw [Overflows, size]
  generalize ((Int.gcd n d : Nat) : Int) = g at top bottom positive
  subst top bottom
  have bNonzero : b ≠ 0 := left_ne_zero_of_mul nonzero
  have aRange := signed64_factor positive numer
  have bRange := signed64_factor positive denom
  have extreme := extreme_factor positive numer coprime
  rw [make, make_reduced positive bNonzero coprime]
  by_cases sign : 0 < b
  · have upward : ¬b * g < 0 := not_lt.mpr (mul_pos sign positive).le
    have same : 4611686018427387904 ≤ b ↔ 4611686018427387904 ≤ b.natAbs := by omega
    rw [if_neg (by omega)]
    change ofFraction ⟨a, b⟩ = .error f ↔ _
    rw [ofFraction_fault_iff sign coprime aRange bRange, same]
    simp only [upward, false_and, and_false, or_false]
  · have negative : b < 0 := by omega
    have downward : b * g < 0 := mul_neg_of_neg_of_pos negative positive
    simp only [if_pos negative, bind_assoc]
    refine (turned_fault_iff negative coprime aRange bRange).trans ?_
    simp only [extreme, downward, true_and]

-- A text that spells numerator and denominator.
def Spelled (cs : List Char) (n d : Int) : Prop := ∃ left right, Text.trim cs = left ++ '/' :: right ∧ '/' ∉ left ∧
  Text.intIn? Range.signed64 (Text.trim left) = some n ∧ Text.intIn? Range.signed64 (Text.trim right) = some d ∧ d ≠ 0

theorem intIn?_ranged {range : Int → Bool} (read : Text.intIn? range cs = some n) : range n = true :=
  (Option.filter_eq_some_iff.mp read).2

-- What is spelled fits, so the making of it is decided by its value.
theorem Spelled.fault_iff (spelled : Spelled cs n d) : make n d = .error f ↔ f = .overflow ∧ Overflows n d := by
  obtain ⟨_, _, _, _, numer, denom, nonzero⟩ := spelled
  exact make_fault_iff (intIn?_ranged numer) (intIn?_ranged denom) nonzero

theorem fraction?_exact {r : Except Fault Fraction} : fraction? (Text.trim cs) = some r ↔
    (∃ n d, Spelled cs n d ∧ r = Fraction.make n d) ∨
      ('/' ∉ Text.trim cs ∧ ∃ n, Text.intIn? Range.signed64 (Text.trim cs) = some n ∧ r = .ok (.ofInt n)) := by
  unfold fraction?
  constructor
  · intro read
    split at read
    · rename_i left right cut
      obtain ⟨shape, absent⟩ := Text.splitAt?_eq_some cut
      obtain ⟨n, numer, read⟩ := Option.bind_eq_some_iff.mp read
      obtain ⟨d, denom, read⟩ := Option.bind_eq_some_iff.mp read
      split at read
      · cases read
      · rename_i nonzero
        exact .inl ⟨n, d, ⟨left, right, shape, absent, numer, denom, nonzero⟩, (Option.some.inj read).symm⟩
    · rename_i whole
      obtain ⟨n, numer, made⟩ := Option.map_eq_some_iff.mp read
      exact .inr ⟨Text.splitAt?_none_iff.mp whole, n, numer, made.symm⟩
  · intro spelled
    cases spelled with
    | inl proper =>
      obtain ⟨n, d, ⟨left, right, shape, absent, numer, denom, nonzero⟩, rfl⟩ := proper
      rw [shape, Text.splitAt?_append absent]
      simp only [numer, denom, Option.bind_eq_bind, Option.bind_some, if_neg nonzero]
    | inr whole =>
      obtain ⟨absent, n, numer, rfl⟩ := whole
      rw [Text.splitAt?_absent absent]
      simp only [numer, Option.map_some]

theorem parse_stopped : parse cs = .error (.fault f) ↔ ∃ r, fraction? (Text.trim cs) = some r ∧ r.bind ofFraction = .error f := by
  unfold parse
  cases fraction? (Text.trim cs) with
  | none => simp
  | some r =>
    rw [mapError_error]
    simp

-- Reading a phase overflows on fractions alone, and on those that reduction leaves too large.
theorem parse_fault_iff : parse cs = .error (.fault f) ↔ f = .overflow ∧ ∃ n d, Spelled cs n d ∧ Overflows n d := by
  rw [parse_stopped]
  constructor
  · rintro ⟨r, read, stopped⟩
    cases fraction?_exact.mp read with
    | inl proper =>
      obtain ⟨n, d, spelled, rfl⟩ := proper
      have large := spelled.fault_iff.mp stopped
      exact ⟨large.1, n, d, spelled, large.2⟩
    | inr whole =>
      obtain ⟨_, n, numer, rfl⟩ := whole
      obtain ⟨p, made⟩ := ofFraction_exists (by decide) (Int.gcd_one_right n) (intIn?_ranged numer) rfl (.inl rfl)
      cases made.symm.trans stopped
  · rintro ⟨rfl, n, d, spelled, large⟩
    exact ⟨_, fraction?_exact.mpr (.inl ⟨n, d, spelled, rfl⟩), spelled.fault_iff.mpr ⟨rfl, large⟩⟩

end Phase

end ToffoliBench

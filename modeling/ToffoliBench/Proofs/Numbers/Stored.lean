import Mathlib.Algebra.Order.ToIntervalMod
import ToffoliBench.Exchange.Diagram
import ToffoliBench.Proofs.Numbers.Turn

namespace ToffoliBench

namespace Exchange

variable {α : Type} {range : Int → Bool} {j : Json} {n : Int}

theorem int?_ranged (read : int? range j = some n) : range n = true := by
  unfold int? at read
  split at read
  · split at read
    · exact (Option.filter_eq_some_iff.mp read).2
    · cases read
  · cases read

theorem list?_ranged {numbers : List Int} (read : list? (int? range) j = some numbers) : ∀ n ∈ numbers, range n = true := by
  unfold list? at read
  split at read
  · rename_i items
    induction items generalizing numbers with
    | nil =>
      obtain rfl := Option.some.inj read
      exact nofun
    | cons item rest ih =>
      rw [List.mapM_cons] at read
      obtain ⟨first, one, read⟩ := Option.bind_eq_some_iff.mp read
      obtain ⟨others, more, read⟩ := Option.bind_eq_some_iff.mp read
      obtain rfl := Option.some.inj read
      exact List.forall_mem_cons.mpr ⟨int?_ranged one, ih more⟩
  · cases read

theorem field?_reads {fields : Fields} {name : String} {item? : Json → Option α} {x : α}
    (read : field? fields name item? = some x) : ∃ j, item? j = some x :=
  (Option.bind_eq_some_iff.mp read).imp fun _ found => found.2

-- A whole number as it is written.
def whole (n : Int) : Json := .number (String.ofList (Text.ofInt n))

theorem isWhole_ofInt (n : Int) : isWhole (Text.ofInt n) = true := by
  cases n with
  | ofNat n =>
    have digits := List.all_eq_true.mpr (Text.ofNat_digits (n := n))
    obtain ⟨c, rest, shape, digit⟩ := Text.ofNat_cons n
    rw [Text.ofInt, isWhole]
    · exact digits
    · intro others minus
      obtain ⟨rfl, _⟩ := List.cons.inj (shape.symm.trans minus)
      cases digit
  | negSucc n =>
    have digits := List.all_eq_true.mpr (Text.ofNat_digits (n := n + 1))
    have proper : Text.ofNat (n + 1) ≠ ['0'] := fun nothing => by
      have value := Text.digitsValue_ofNat (n + 1)
      rw [nothing] at value
      cases value
    rw [Text.ofInt, isWhole, digits, Bool.true_and, bne_iff_ne]
    exact proper

theorem int?_whole (inside : range n = true) : int? range (whole n) = some n := by
  rw [whole, int?, String.toList_ofList, if_pos (isWhole_ofInt n), Text.intIn?_ofInt inside]

end Exchange

open Exchange

namespace Phase

variable {p q : Phase} {j : Json}

structure Reduced (p : Phase) : Prop where
  positive : 0 < p.coeff.denom
  coprime : Int.gcd p.coeff.numer p.coeff.denom = 1
  least : 0 ≤ p.coeff.value
  below : p.coeff.value < 2

theorem Built.reduced (built : p.Built) : p.Reduced :=
  ⟨built.normal.positive, built.normal.coprime, built.normal.value_bounds.1, built.normal.value_bounds.2⟩

theorem eq_iff_turns {x y : ℚ} (least : 0 ≤ x) (below : x < 2) (least' : 0 ≤ y) (below' : y < 2) : x = y ↔ x ≡ y [PMOD 2] := by
  have turn : (0 : ℚ) < 2 := two_pos
  have kept : ∀ {z : ℚ}, 0 ≤ z → z < 2 → toIcoMod turn 0 z = z := fun low high =>
    (toIcoMod_eq_self turn).mpr ⟨low, high.trans_eq (zero_add 2).symm⟩
  rw [← toIcoMod_inj turn (c := 0), kept least below, kept least' below']

theorem isZero_iff (nonzero : p.coeff.denom ≠ 0) : p.isZero = true ↔ p.coeff.value = 0 := by
  simp [isZero, Fraction.value, nonzero]

theorem Reduced.isClifford_iff (reduced : p.Reduced) : p.isClifford = true ↔ ∃ k : ℤ, p.coeff.value = k / 2 := by
  obtain ⟨positive, coprime, _, _⟩ := reduced
  have nonzero : (p.coeff.denom : ℚ) ≠ 0 := by exact_mod_cast positive.ne'
  rw [isClifford, decide_eq_true_iff]
  constructor
  · intro few
    obtain one | two : p.coeff.denom = 1 ∨ p.coeff.denom = 2 := by omega
    · exact ⟨2 * p.coeff.numer, by simp [Fraction.value, one]⟩
    · exact ⟨p.coeff.numer, by simp [Fraction.value, two]⟩
  · rintro ⟨k, halves⟩
    have cross : p.coeff.numer * 2 = k * p.coeff.denom := by
      rw [Fraction.value, div_eq_div_iff nonzero two_ne_zero] at halves
      exact_mod_cast halves
    have divides : p.coeff.denom ∣ 2 := (Int.isCoprime_iff_gcd_eq_one.mpr coprime).symm.dvd_of_dvd_mul_left ⟨k, by rw [cross, mul_comm]⟩
    exact Int.le_of_dvd two_pos divides

theorem Reduced.eq_iff (left : p.Reduced) (right : q.Reduced) : p = q ↔ p.coeff.value ≡ q.coeff.value [PMOD 2] := by
  rw [← eq_iff_turns left.least left.below right.least right.below]
  exact ⟨fun same => same ▸ rfl, eq_of_value left.positive right.positive left.coprime right.coprime⟩

theorem reduced_exists (x : ℚ) : ∃ q : Phase, q.Reduced ∧ x ≡ q.coeff.value [PMOD 2] := by
  have turn : (0 : ℚ) < 2 := two_pos
  obtain ⟨least, below⟩ := toIcoMod_mem_Ico' turn x
  have same : toIcoMod turn 0 x ≡ x [PMOD 2] := (toIcoMod_inj turn (c := 0)).mp (toIcoMod_toIcoMod ..)
  generalize toIcoMod turn 0 x = y at least below same
  have value : (Fraction.mk y.num y.den).value = y := Rat.num_div_den y
  refine ⟨⟨⟨y.num, y.den⟩⟩, ⟨Int.natCast_pos.mpr y.den_pos, y.reduced, ?_, ?_⟩, ?_⟩
  · rwa [value]
  · rwa [value]
  · rw [value]
    exact same.symm

-- The phases that a reader can find stored, alone or as part of something.
inductive Stored : Phase → Prop
  | phase {j : Json} {p : Phase} (read : Phase.ofJson? j = some p) : Stored p
  | scalar {j : Json} {s : Scalar} (read : Scalar.ofJson? j = some s) : Stored s.phase
  | vertex {j : Json} {v : Vertex} (read : Vertex.ofJson? j = some v) : Stored v.phase

theorem ofJson?_pair : Phase.ofJson? j = some p ↔ ∃ numer denom, list? (int? Range.signed64) j = some [numer, denom] ∧
    denom ≠ 0 ∧ p = ⟨⟨numer, denom⟩⟩ := by
  rw [Phase.ofJson?]
  constructor
  · intro read
    obtain ⟨parts, listed, read⟩ := Option.bind_eq_some_iff.mp read
    split at read
    · rename_i numer denom
      unfold ofParts at read
      split at read
      · cases read
      · rename_i nonzero
        exact ⟨numer, denom, listed, nonzero, (Option.some.inj read).symm⟩
    · cases read
  · rintro ⟨numer, denom, listed, nonzero, rfl⟩
    rw [listed]
    exact if_neg nonzero

theorem Stored.alone (stored : p.Stored) : ∃ j, Phase.ofJson? j = some p := by
  cases stored with
  | phase read => exact ⟨_, read⟩
  | scalar read =>
    obtain ⟨fields, _, read⟩ := Option.bind_eq_some_iff.mp read
    obtain ⟨power, _, read⟩ := Option.bind_eq_some_iff.mp read
    obtain ⟨phase, kept, read⟩ := Option.bind_eq_some_iff.mp read
    obtain rfl := Option.some.inj read
    exact field?_reads kept
  | vertex read =>
    obtain ⟨fields, _, read⟩ := Option.bind_eq_some_iff.mp read
    obtain ⟨kind, _, read⟩ := Option.bind_eq_some_iff.mp read
    obtain ⟨phase, kept, read⟩ := Option.bind_eq_some_iff.mp read
    obtain ⟨qubit, _, read⟩ := Option.bind_eq_some_iff.mp read
    obtain ⟨row, _, read⟩ := Option.bind_eq_some_iff.mp read
    obtain ⟨marker, _, read⟩ := Option.bind_eq_some_iff.mp read
    obtain rfl := Option.some.inj read
    exact field?_reads kept

theorem stored_iff : p.Stored ↔ Range.signed64 p.coeff.numer = true ∧ Range.signed64 p.coeff.denom = true ∧ p.coeff.denom ≠ 0 := by
  constructor
  · intro stored
    obtain ⟨j, read⟩ := stored.alone
    obtain ⟨numer, denom, listed, nonzero, rfl⟩ := ofJson?_pair.mp read
    exact ⟨list?_ranged listed _ (.head _), list?_ranged listed _ (.tail _ (.head _)), nonzero⟩
  · intro ⟨top, bottom, nonzero⟩
    refine .phase (j := .array [whole p.coeff.numer, whole p.coeff.denom]) (ofJson?_pair.mpr ⟨_, _, ?_, nonzero, rfl⟩)
    simp [list?, int?_whole top, int?_whole bottom]

-- A phase that the operations build is reduced, whatever they are applied to. Stored phases are all the
-- pairs of numbers in range, so what is reduced of them is what was written so. Of a reduced phase
-- each question has the answer modulo whole turns; of equality this holds inside the first turn only.
theorem reduced_unless_stored (p : Phase) :
    (p.Built → p.Reduced) ∧
    (p.Stored ↔ Range.signed64 p.coeff.numer = true ∧ Range.signed64 p.coeff.denom = true ∧ p.coeff.denom ≠ 0) ∧
    (p.Reduced → (p.isZero = true ↔ p.coeff.value ≡ 0 [PMOD 2]) ∧ (p.isClifford = true ↔ ∃ k : ℤ, p.coeff.value = k / 2) ∧
      ∀ q : Phase, q.Reduced → (p = q ↔ p.coeff.value ≡ q.coeff.value [PMOD 2])) ∧
    ((∀ q : Phase, q.Reduced → (p.coeff.value = q.coeff.value ↔ p.coeff.value ≡ q.coeff.value [PMOD 2])) ↔
      0 ≤ p.coeff.value ∧ p.coeff.value < 2) := by
  refine ⟨Built.reduced, stored_iff, fun reduced => ⟨?zero, reduced.isClifford_iff, fun q => reduced.eq_iff⟩,
    fun told => ?inside, fun inside q reduced => ?equal⟩
  case zero =>
    rw [isZero_iff reduced.positive.ne']
    exact eq_iff_turns reduced.least reduced.below le_rfl two_pos
  case inside =>
    obtain ⟨q, reduced, same⟩ := reduced_exists p.coeff.value
    rw [(told q reduced).mpr same]
    exact ⟨reduced.least, reduced.below⟩
  case equal => exact eq_iff_turns inside.1 inside.2 reduced.least reduced.below

-- Half a turn and five sixths of a turn make a third of one. A stored phase may be more than a turn.
theorem reduced_unless_stored_sum : pi.add ⟨⟨5, 3⟩⟩ = .ok ⟨⟨2, 3⟩⟩ ∧ (⟨⟨2, 3⟩⟩ : Phase).Reduced ∧
    (¬∃ k : ℤ, (⟨⟨2, 3⟩⟩ : Phase).coeff.value = k / 2) ∧ ¬(2 / 3 : ℚ) ≡ 0 [PMOD 2] ∧ ¬(2 / 3 : ℚ) ≡ 1 / 3 [PMOD 2] ∧ (⟨⟨5, 2⟩⟩ : Phase).Stored := by
  have sum : pi.add ⟨⟨5, 3⟩⟩ = .ok ⟨⟨2, 3⟩⟩ := by decide
  have two : (⟨⟨2, 3⟩⟩ : Phase).coeff.value = 2 / 3 := rfl
  have one : third.coeff.value = 1 / 3 := by norm_num [third, Fraction.value]
  obtain ⟨built, _, asked, _⟩ := reduced_unless_stored ⟨⟨2, 3⟩⟩
  obtain ⟨_, stored, _⟩ := reduced_unless_stored ⟨⟨5, 2⟩⟩
  have reduced := built (.add sum)
  obtain ⟨nothing, quarters, equal⟩ := asked reduced
  have apart := equal third Built.third.reduced
  rw [two] at nothing
  rw [two, one] at apart
  exact ⟨sum, reduced, quarters.not.mp (by decide), nothing.not.mp (by decide), apart.not.mp (by decide), stored.mpr (by decide)⟩

-- A whole turn, stored as it stands, is not the zero phase.
theorem turn_stored : Phase.ofJson? (.array [.number "2", .number "1"]) = some ⟨⟨2, 1⟩⟩ ∧ ¬(⟨⟨2, 1⟩⟩ : Phase).Reduced ∧
    (⟨⟨2, 1⟩⟩ : Phase).coeff.value ≡ 0 [PMOD 2] ∧ (⟨⟨2, 1⟩⟩ : Phase).isZero = false ∧
    (⟨⟨2, 1⟩⟩ : Phase).coeff.value ≠ zero.coeff.value := by
  have two : (⟨⟨2, 1⟩⟩ : Phase).coeff.value = 2 := by norm_num [Fraction.value]
  have nothing : zero.coeff.value = 0 := by norm_num [zero, Fraction.value]
  refine ⟨by decide, fun reduced => ?_, ?_, by decide, ?_⟩
  · have below := reduced.below
    rw [two] at below
    exact lt_irrefl _ below
  · rw [two]
    exact AddCommGroup.modEq_iff_zsmul'.mpr ⟨-1, by norm_num⟩
  · rw [two, nothing]
    norm_num

end Phase

end ToffoliBench

import ToffoliBench.Proofs.Circuit.Contents
import ToffoliBench.Proofs.Circuit.Gadget
import ToffoliBench.Proofs.Meaning.Resolution

namespace ToffoliBench

open Diagram Meaning Outcome

namespace Fragment

variable {n t k : Nat} {controls : List Nat} {d : Diagram} {kind : VertexKind}

-- A resolved leg passes the bit of its spider, flipped or signed, and turns a one.
noncomputable def turnedValue (kind : VertexKind) (c m : Bool) : ℂ :=
  match kind with
  | .z => if c = m then (if c then -Phase.third.turn else 1) else 0
  | _ => if c = !m then (if m then Phase.third.turn else 1) else 0

theorem turned_value (spiderKind : kind = .x ∨ kind = .z) : LegReads Vertex.resolved kind (turnedValue kind) := by
  intro entry box helper end_ n c m legs known holds bare
  have entrySelf : entry.resolved = entry :=
    resolved_self (by rcases spiderKind with rfl | rfl <;> simp [known.entryKind]) (by simp [known.entryMark])
  have endSelf : end_.resolved = end_ := resolved_self (by simp [known.endKind]) (by simp [known.endMark])
  have boxTurned : box.resolved = { box with kind := .z, phase := .third } := if_pos known.boxKind
  have helperBare : helper.resolved = { helper with phase := .zero } := by
    rw [Vertex.resolved, if_neg (by simp [known.helperKind]), if_pos known.helperMark]
  have inner : ∀ e, ∑ h : Bool, helper.resolved.reads [h] * box.resolved.reads [h, e, m] =
      if e = m then (if m then Phase.third.turn else 1) else 0 := by
    intro e
    rw [third_sum (by rw [helperBare]; exact known.helperKind) (by rw [helperBare]) (by rw [boxTurned]) (by rw [boxTurned])
      (rfl : (spiderFor box).kind = .z) rfl]
    cases e <;> cases m <;> simp [Vertex.reads, Vertex.weight, spiderFor, Vertex.placed, Vertex.withPhase, Vertex.z]
  refine (leg_sum (by rw [endSelf]; exact known.endKind) holds bare).trans ?_
  have summed : ∀ e, ∑ h : Bool, entry.resolved.reads [e, c] * (box.resolved.reads [h, e, m] * helper.resolved.reads [h]) =
      entry.reads [e, c] * if e = m then (if m then Phase.third.turn else 1) else 0 := fun e => by
    rw [← inner, Finset.mul_sum, entrySelf]
    exact Finset.sum_congr rfl fun h _ => by rw [mul_comm (box.resolved.reads _)]
  simp only [summed]
  rcases spiderKind with rfl | rfl
  · simp only [entry_flips known.entryKind known.entryPhase]
    cases c <;> cases m <;> simp [turnedValue]
  · simp only [entry_signs known.entryKind known.entryPhase]
    cases c <;> cases m <;> simp [turnedValue]

theorem turned_values (inside : ∀ c ∈ controls, c < n) (inp : Fin n → Bool) (m : Bool) :
    (((present controls n).map (bit inp)).map (turnedValue .x · m)).prod =
      if ∀ c ∈ controls, bit inp c = !m then (if m then Phase.third.turn ^ (present controls n).length else 1) else 0 := by
  split
  · rename_i agree
    have each : ∀ value ∈ ((present controls n).map (bit inp)).map (turnedValue .x · m), value = if m then Phase.third.turn else 1 := by
      intro value listed
      simp only [List.map_map, List.mem_map, Function.comp_apply] at listed
      obtain ⟨c, held, rfl⟩ := listed
      exact if_pos (agree c (mem_present.mp held).2)
    rw [List.prod_eq_pow_card _ _ each, List.length_map, List.length_map]
    cases m <;> simp
  · rename_i differ
    push Not at differ
    obtain ⟨c, held, wrong⟩ := differ
    refine List.prod_eq_zero (List.mem_map.mpr ⟨bit inp c, List.mem_map_of_mem (mem_present.mpr ⟨inside c held, held⟩), ?_⟩)
    exact if_neg wrong

-- What is left of the gate: the target moves where all controls are one, and stays where none is.
noncomputable def leftover (controls : List Nat) (t n : Nat) : Matrix (Fin n → Bool) (Fin n → Bool) ℂ :=
  .of fun out inp =>
    (if (∀ c ∈ controls, bit inp c = true) ∧ out = (Column.not t).act inp then Phase.third.turn else 0) +
      if (∀ c ∈ controls, bit inp c = false) ∧ out = inp then Phase.third.turn ^ controls.length else 0

theorem leftover_entry (controls : List Nat) (inside : t < n) (out inp : Fin n → Bool) :
    ((if ∀ c ∈ controls, bit inp c = true then 1 else 0) *
        if ∀ q < n, q ≠ t → bit out q = bit inp q then rootTwo⁻¹ * turnedValue .z (bit out t ^^ bit inp t) true else 0) -
      (if ∀ c ∈ controls, bit inp c = false then Phase.third.turn ^ controls.length else 0) *
        (if ∀ q < n, q ≠ t → bit out q = bit inp q then rootTwo⁻¹ * turnedValue .z (bit out t ^^ bit inp t) false else 0) =
      -rootTwo⁻¹ * leftover controls t n out inp := by
  have moved : out = (Column.not t).act inp ↔ (∀ q < n, q ≠ t → bit out q = bit inp q) ∧ (bit out t ^^ bit inp t) = true := by
    rw [Column.eq_act, and_comm, eq_comm]
    exact flips_target inside out inp true
  have stayed : out = inp ↔ (∀ q < n, q ≠ t → bit out q = bit inp q) ∧ (bit out t ^^ bit inp t) = false := by
    have same : out = inp ↔ ∀ q < n, bit out q = if q = t then bit inp q ^^ false else bit inp q := by
      simp only [Bool.xor_false, ite_self]
      constructor
      · rintro rfl q _
        rfl
      · intro each
        funext q
        simpa [bit] using each q q.isLt
    rw [same, flips_target inside, and_comm, eq_comm]
  simp only [leftover, Matrix.of_apply, moved, stayed]
  by_cases agree : ∀ q < n, q ≠ t → bit out q = bit inp q
  · simp only [if_pos agree, and_iff_right agree]
    cases bit out t ^^ bit inp t <;> simp [turnedValue] <;> split <;> ring
  · simp [agree]

theorem plain_self {size count : Nat} (stocked : Stocked d size 0 count) : d.recast Vertex.resolved = d := by
  have none : ∀ v, ¬Helper d.vertices v := by
    rintro v ⟨x, held, marked⟩
    have zero := List.countP_eq_zero.mp stocked.stars _ held
    exact zero (by simp [marked])
  refine recast_self fun entry held => resolved_self (fun box => ?_) fun helper => none _ ⟨_, held, helper⟩
  obtain ⟨_, h, helper, _⟩ := stocked.starry.box entry.1 ⟨_, held, box⟩
  exact none h helper

theorem resolved_toffoli_entry (inside : t < n) (outside : t ∉ controls) (known : ∀ c ∈ controls, c < n) (once : controls.Nodup)
    (made : controlledNot n controls t = .ok d) (out inp : Fin n → Bool) :
    (d.recast Vertex.resolved).entry (List.ofFn out) (List.ofFn inp) =
      -rootTwo⁻¹ ^ (2 * controls.length + 3) * leftover controls t n out inp := by
  obtain ⟨register, after, lines, stops, stop, x, _, legged, size, _, closing, composed⟩ := controlledNot_parts inside outside made
  obtain ⟨closed, total, tidy, _, _, _, picks⟩ := closing_total n (present controls n).length
  obtain rfl := Except.ok.inj (total.symm.trans closing)
  have count := present_length known once
  have registered : register.recast Vertex.resolved = register := recast_self fun entry held =>
    have bare := (legged.laid.bare (toffoliSpider_bare controls t)).1 entry held
    resolved_self bare.2.1 bare.1
  have closedSelf : closed.recast Vertex.resolved = closed := plain_self (closing_stocked closing)
  have done := resolved_reading.compose composed
  rw [closedSelf] at done
  have outputs : ((legDiagram after lines stops stop).recast Vertex.resolved).outputs.length = (present controls n).length + 1 + n := by
    simp [recast, legDiagram, legged.laid.lines_length, size, Nat.add_right_comm, Nat.add_assoc]
  have read := legged.entry_read inside outside registered (turned_value (.inl rfl)) (turned_value (.inr rfl)) out inp
  rw [compose_entry (legged.tidy.toWellFormed.recast resolved_reading) tidy.toWellFormed done, outputs,
    picks out fun mid => ((legDiagram after lines stops stop).recast Vertex.resolved).entry mid (List.ofFn inp), ← size, read, read,
    turned_values known, turned_values known, size, count, ← mul_sub]
  have power : rootTwo ^ (hBoxPower * (controls.length + 1)) * rootTwo⁻¹ = rootTwo⁻¹ ^ (2 * controls.length + 3) := by
    rw [hBoxPower, ← zpow_natCast, inv_zpow, ← zpow_neg, ← zpow_neg_one, ← zpow_add₀ rootTwo_ne_zero]
    exact congrArg _ (by push_cast; ring)
  have total := leftover_entry controls inside out inp
  simp only [Bool.not_false, Bool.not_true, Bool.false_eq_true, if_false, if_true]
  rw [total, ← power]
  ring

theorem resolved_toffoli_matrix (inside : t < n) (outside : t ∉ controls) (known : ∀ c ∈ controls, c < n) (once : controls.Nodup)
    (made : controlledNot n controls t = .ok d) : ∃ after, d.resolveMarkers = .ok (controls.length + 1, after) ∧ after.inputs = d.inputs ∧
      after.outputs = d.outputs ∧ after.matrix n n = -rootTwo⁻¹ ^ (2 * controls.length + 3) • leftover controls t n := by
  have stocked := controlledNot_stocked inside outside made
  rw [present_length known once] at stocked
  have split : Stocked d (2 * n + 3 * (controls.length + 1) + 2 + (controls.length + 1)) (controls.length + 1)
      (n + 4 * (controls.length + 1) + 1 + (controls.length + 1)) := by
    convert stocked using 1 <;> omega
  obtain ⟨after, resolved, inputs, outputs, meaning⟩ := split.resolved_entry (controlledNot_wellFormed inside outside made)
  refine ⟨after, resolved, inputs, outputs, entry_eq_of_matrix.mpr fun out inp => ?_⟩
  rw [meaning, resolved_toffoli_entry inside outside known once made]
  rfl

-- Where one control is one and another is not, the gate keeps the bits, but what is left of it does not.
theorem leftover_ne {c e : Nat} (one : c ∈ controls) (other : e ∈ controls) (different : c ≠ e) (known : ∀ c ∈ controls, c < n)
    (w : ℂ) {z : ℂ} (factor : z ≠ 0) : w • leftover controls t n ≠ z • (Column.toffoli controls t).permutation n := by
  intro same
  let inp : Fin n → Bool := fun q => decide (q.val = c)
  have first : bit inp c = true := by simp [bit, inp, known c one]
  have second : bit inp e = false := by simp [bit, inp, different.symm]
  have blocked : controls.all (bit inp) = false := List.all_eq_false.mpr ⟨e, other, by simp [second]⟩
  have kept : inp = (Column.toffoli controls t).act inp := by
    funext q
    simp [Column.act, Column.controls, blocked]
  have left : leftover controls t n inp inp = 0 := by
    rw [leftover, Matrix.of_apply, if_neg fun met => by simpa [second] using met.1 e other,
      if_neg fun met => by simpa [first] using met.1 c one, add_zero]
  have entries := congrFun (congrFun same inp) inp
  simp only [Matrix.smul_apply, left, Column.permutation, Matrix.of_apply, if_pos kept, smul_eq_mul, mul_zero, mul_one] at entries
  exact factor entries.symm

theorem ofColumn_toffoli (valid : (Column.toffoli controls t).validate n = .ok ()) :
    ofColumn n (.toffoli controls t) = .ok d ↔ controlledNot n controls t = .ok d :=
  check_ok.trans ((and_iff_right valid).trans mapError_ok)

-- Before its gadgets are resolved the fragment of a gate stands for a multiple of the gate, and
-- afterwards for something else, however it is scaled.
theorem resolved_toffoli_meaning (valid : (Column.toffoli controls t).validate n = .ok ()) :
    (controls.length + 1 ≤ 1073741824 → ∃ d, ofColumn n (.toffoli controls t) = .ok d) ∧
    (n * endBytes ≤ Range.addressLimit → ∀ d, toffoli n controls t = .ok d ↔ ofColumn n (.toffoli controls t) = .ok d) ∧
    ∀ d, ofColumn n (.toffoli controls t) = .ok d → d.matrix n n = rootTwo⁻¹ • (Column.toffoli controls t).permutation n ∧
      ∃ after, d.resolveMarkers = .ok (controls.length + 1, after) ∧ after.inputs.length = n ∧ after.outputs.length = n ∧
        after.matrix n n = -rootTwo⁻¹ ^ (2 * controls.length + 3) • leftover controls t n ∧
        ∀ z : ℂ, z ≠ 0 → after.matrix n n ≠ z • (Column.toffoli controls t).permutation n := by
  obtain ⟨inside, two, each, once⟩ := Column.validate_ok.mp valid
  have known : ∀ c ∈ controls, c < n := fun c held => (each c held).1
  have outside : t ∉ controls := fun held => (each t held).2 rfl
  have count := present_length known once
  have realized := fun ranged => controlledNot_realizes inside outside known ranged
  refine ⟨fun few => ?_, fun held d => toffoli_held held ▸ (ofColumn_toffoli valid).symm, fun d column => ?_⟩
  · obtain ⟨d, made, _⟩ := realized (boxes_ranged.mpr (count.symm ▸ few))
    exact ⟨d, (ofColumn_toffoli valid).mpr made⟩
  have made := (ofColumn_toffoli valid).mp column
  obtain ⟨_, _, _, _, _, _, _, _, size, ranged, _⟩ := controlledNot_parts inside outside made
  obtain ⟨_, again, realizes⟩ := realized (size ▸ ranged)
  obtain rfl := Except.ok.inj (made.symm.trans again)
  obtain ⟨after, resolved, inputs, outputs, matrix⟩ := resolved_toffoli_matrix inside outside known once made
  refine ⟨by simpa using realizes.matrix, after, resolved, inputs ▸ realizes.inputs, outputs ▸ realizes.outputs, matrix,
    fun z factor => ?_⟩
  have different : controls[0] ≠ controls[1] := fun same => absurd (once.getElem_inj_iff.mp same) (by decide)
  rw [matrix]
  exact leftover_ne (List.getElem_mem _) (List.getElem_mem _) different known _ factor

theorem resolved_toffoli_meaning_two : ∃ d after, ofColumn 3 (.toffoli [0, 1] 2) = .ok d ∧ toffoli 3 [0, 1] 2 = .ok d ∧
    d.resolveMarkers = .ok (3, after) ∧ after.matrix 3 3 = -rootTwo⁻¹ ^ 7 • leftover [0, 1] 2 3 := by
  obtain ⟨exists_, same, all⟩ := @resolved_toffoli_meaning 3 2 [0, 1] rfl
  obtain ⟨d, made⟩ := exists_ (by simp)
  obtain ⟨_, after, resolved, _, _, matrix, _⟩ := all d made
  exact ⟨d, after, made, (same (by decide) d).mpr made, resolved, matrix⟩

-- Two controls that differ: the gate would keep these bits.
theorem resolved_toffoli_lost : ∃ d after, toffoli 3 [0, 1] 2 = .ok d ∧ d.resolveMarkers = .ok (3, after) ∧
    ¬∃ z : ℂ, z ≠ 0 ∧ after.matrix 3 3 = z • (Column.toffoli [0, 1] 2).permutation 3 := by
  have known : ∀ c ∈ [0, 1], c < 3 := by decide
  obtain ⟨d, made, _⟩ := @controlledNot_realizes 3 2 [0, 1] (by decide) (by decide) known (boxes_ranged.mpr (by decide))
  obtain ⟨after, resolved, _, _, matrix⟩ := resolved_toffoli_matrix (by decide) (by decide) known (by decide) made
  refine ⟨d, after, (if_neg (by decide)).trans made, resolved, ?_⟩
  rintro ⟨z, factor, same⟩
  exact leftover_ne (t := 2) List.mem_cons_self (List.mem_cons_of_mem _ List.mem_cons_self) Nat.zero_ne_one known _ factor
    (matrix.symm.trans same)

end Fragment

end ToffoliBench

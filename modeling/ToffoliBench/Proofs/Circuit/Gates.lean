import ToffoliBench.Proofs.Circuit.Action
import ToffoliBench.Proofs.Circuit.Register

namespace ToffoliBench.Fragment

open Diagram Meaning

variable {n t c : Nat}

-- A diagram over `n` qubits that stands for a linear map with so many H-boxes accounted for in its
-- scalar, up to `missing` factors of `√2`.
structure Realizes (d : Diagram) (n boxes missing : Nat) (U : Matrix (Fin n → Bool) (Fin n → Bool) ℂ) : Prop where
  tidy : d.Tidy
  inputs : d.inputs.length = n
  outputs : d.outputs.length = n
  scalar : d.scalar = ⟨hBoxPower * boxes, .zero⟩
  matrix : d.matrix n n = rootTwo⁻¹ ^ missing • U

-- A product over lines of which one, the target, costs a factor.
theorem prod_act (column : Column) (inside : column.target < n) {value : Nat → ℂ} {r : ℂ} {out inp : Fin n → Bool}
    (values : ∀ q < n, value q =
      if bit out q = (if q = column.target then bit inp q ^^ column.controls.all (bit inp) else bit inp q) then
        (if q = column.target then r else 1) else 0) :
    ((List.range n).map value).prod = r * column.permutation n out inp := by
  rw [List.map_congr_left fun q present => values q (List.mem_range.mp present), prod_lines inside]
  simp only [← Column.eq_act, Column.permutation, Matrix.of_apply, mul_ite, mul_one, mul_zero]

theorem Laid.lines_length {d : Diagram} {length : Float} {spiderOn : Nat → Option Vertex} {lines : List Line}
    (laid : Laid length spiderOn empty d (List.range n) lines) : lines.length = n := by
  rw [← List.length_map (f := (·.qubit)), laid.qubits, List.length_range]

-- A register with nothing but its lines.
theorem Laid.entry {d : Diagram} {length : Float} {spiderOn : Nat → Option Vertex} {lines : List Line}
    (laid : Laid length spiderOn empty d (List.range n) lines) (inner : ∀ q x, spiderOn q = some x → x.kind ≠ .boundary)
    (tidy : (d.within (lines.map (·.start)) (lines.map (·.stop))).Tidy) (out inp : Fin n → Bool) :
    (d.within (lines.map (·.start)) (lines.map (·.stop))).entry (List.ofFn out) (List.ofFn inp) =
      ((List.range n).map fun q => lineValue (spiderOn q) (bit inp q) (bit out q) none).prod := by
  have shown : ∀ line ∈ lines, line.Shows
      ((d.within (lines.map (·.start)) (lines.map (·.stop))).openLegs (List.ofFn out) (List.ofFn inp))
      (bit inp line.qubit) (bit out line.qubit) none := by
    intro line present
    rw [ofFn_bits, ofFn_bits]
    obtain ⟨start, stop⟩ := laid.ends tidy.toWellFormed (bit inp) (bit out) [] [] rfl rfl rfl present
    refine ⟨start, stop, fun s held b => ?_⟩
    simpa using tidy.bare (laid.spider_inner inner present held) b
  rw [Diagram.entry, within_scalar, show d.scalar = .one from laid.grown.scalar, Scalar.one_value, one_mul, within_vertices,
    within_edges, laid.meaning (bit inp) (bit out) (fun _ => none) shown]

def notSpider (t q : Nat) : Option Vertex := if q = t then some (Vertex.x.withPhase .pi) else none

theorem not_realizes (inside : t < n) : Realizes (not n t) n 0 0 ((Column.not t).permutation n) := by
  have inner : ∀ q x, notSpider t q = some x → x.kind ≠ .boundary := by
    intro q x asked
    unfold notSpider at asked
    split at asked <;> cases asked
    simp [Vertex.withPhase, Vertex.x]
  have laid := register_laid inner n 2
  have tidy := register_tidy inner n 2
  have shape : not n t = (register n 2 (notSpider t)).1.within ((register n 2 (notSpider t)).2.map (·.start))
      ((register n 2 (notSpider t)).2.map (·.stop)) := rfl
  rw [shape]
  generalize register n 2 (notSpider t) = result at laid tidy
  obtain ⟨d, lines⟩ := result
  dsimp only at laid tidy ⊢
  have sizes := laid.lines_length
  have scalar : d.scalar = .one := laid.grown.scalar
  refine ⟨tidy, by simpa using sizes, by simpa using sizes, scalar, ?_⟩
  rw [pow_zero, one_smul, entry_eq_of_matrix]
  intro out inp
  rw [laid.entry inner tidy, prod_act (.not t) inside (r := 1), one_mul]
  intro q _
  by_cases here : q = t
  · simp only [notSpider, here, if_true, Column.target, Column.controls, List.all_nil, Bool.xor_true]
    exact lineValue_flip rfl rfl
  · simp [notSpider, here, Column.target, lineValue, eq_comm]

theorem identity_realizes (n : Nat) : Realizes (Diagram.identity n) n 0 0 1 := by
  have inner : ∀ (q : Nat) (x : Vertex), (none : Option Vertex) = some x → x.kind ≠ .boundary := by nofun
  have laid := register_laid inner n 1
  have tidy := register_tidy inner n 1
  rw [identity_register]
  generalize register n 1 (fun _ => none) = result at laid tidy
  obtain ⟨d, lines⟩ := result
  dsimp only at laid tidy ⊢
  have sizes := laid.lines_length
  have scalar : d.scalar = .one := laid.grown.scalar
  refine ⟨tidy, by simpa [withEnds] using sizes, by simpa [withEnds] using sizes, scalar, ?_⟩
  rw [pow_zero, one_smul, entry_eq_of_matrix]
  intro out inp
  have straightThrough : out = inp ↔ ∀ q < n, bit inp q = bit out q := by
    constructor
    · rintro rfl q _
      rfl
    · intro each
      funext q
      simpa [bit] using (each q q.isLt).symm
  refine (laid.entry inner tidy out inp).trans ?_
  simp only [lineValue, Matrix.one_apply, straightThrough]
  exact prod_straight fun q => bit inp q = bit out q

def cnotSpider (c t q : Nat) : Option Vertex := if q = c then some .z else if q = t then some .x else none

theorem cnotSpider_inner (c t : Nat) : ∀ q x, cnotSpider c t q = some x → x.kind ≠ .boundary := by
  intro q x asked
  unfold cnotSpider at asked
  split at asked
  · cases asked; simp [Vertex.z]
  · split at asked <;> cases asked
    simp [Vertex.x]

-- The register of a CNOT and its two spiders, not yet joined.
theorem cnot_spiders {d : Diagram} {lines : List Line} (laid : Laid 2 (cnotSpider c t) empty d (List.range n) lines)
    {q : Nat} (inside : q < n) (asked : q = c ∨ q = t) :
    ∃ line ∈ lines, line.qubit = q ∧ ∃ s, line.spider = some s ∧ spiderOf lines q = some s := by
  have some_ : (cnotSpider c t q).isSome = true := by
    unfold cnotSpider
    split
    · rfl
    · rename_i notControl
      simp [asked.resolve_left notControl]
  obtain ⟨line, present, rfl, s, held⟩ := laid.spider_on (List.mem_range.mpr inside) some_
  have once : (lines.map (·.qubit)).Nodup := laid.qubits ▸ List.nodup_range
  exact ⟨line, present, rfl, s, held, (spiderOf_line once present).trans held⟩

-- The spiders of control and target share the bit of the wire between them.
def cnotBit (c t : Nat) (b : Bool) (q : Nat) : Option Bool := if q = c ∨ q = t then some b else none

theorem cnot_lines (controlInside : c < n) (targetInside : t < n) (different : c ≠ t) (out inp : Fin n → Bool) (b : Bool) :
    ((List.range n).map fun q => lineValue (cnotSpider c t q) (bit inp q) (bit out q) (cnotBit c t b q)).prod =
      if b = bit inp c then rootTwo⁻¹ * (Column.cnot c t).permutation n out inp else 0 := by
  split
  · rename_i read
    refine prod_act (.cnot c t) targetInside fun q _ => ?_
    by_cases control : q = c
    · simp only [control, cnotSpider, if_true, cnotBit, true_or, Column.target, different, if_false]
      rw [lineValue_copy rfl rfl]
      simp [read]
    · by_cases target : q = t
      · simp only [target, cnotSpider, if_true, cnotBit, or_true, Column.target, Column.controls, Ne.symm different, if_false]
        rw [lineValue_add rfl rfl]
        simp [read]
      · simp [control, target, cnotSpider, Column.target, lineValue, eq_comm]
  · rename_i wrong
    refine List.prod_eq_zero (List.mem_map.mpr ⟨c, List.mem_range.mpr controlInside, ?_⟩)
    simp only [cnotSpider, if_true, cnotBit, true_or]
    rw [lineValue_copy rfl rfl, if_neg fun met => wrong met.2]

section

variable {d : Diagram} {lines : List Line} {one two : Line} {z x : Nat} (laid : Laid 2 (cnotSpider c t) empty d (List.range n) lines)
  (onePresent : one ∈ lines) (zHeld : one.spider = some z) (twoPresent : two ∈ lines) (xHeld : two.spider = some x)
  (different : one.qubit ≠ two.qubit)
include laid onePresent zHeld twoPresent xHeld different

theorem cnot_grown : Grown d (d.link z x .simple) [] [.between z x .simple] := by
  have inner := cnotSpider_inner c t
  have apart : z ≠ x := by
    rintro rfl
    exact different (congrArg Line.qubit (laid.spider_line onePresent zHeld twoPresent xHeld))
  exact (Grown.start laid.grown.sound laid.grown.unfreed).link (laid.spider_live onePresent zHeld) (laid.spider_live twoPresent xHeld)
    apart (laid.spiders_unmet inner onePresent zHeld twoPresent xHeld) (by nofun) .simple

omit different in
theorem cnot_inward : Inward d [] [.between z x .simple] [] [] := by
  have inner := cnotSpider_inner c t
  constructor
  case inner =>
    intro v bound
    simp only [List.forall_mem_cons, Edge.touches_between]
    refine ⟨?_, nofun⟩
    rintro (rfl | rfl)
    · exact laid.spider_inner inner onePresent zHeld bound
    · exact laid.spider_inner inner twoPresent xHeld bound
  all_goals simp [boundaries]

-- The wire shows its bit to both spiders, and the lines see nothing else of it.
theorem cnot_shows (tidy : ((d.link z x .simple).within (lines.map (·.start)) (lines.map (·.stop))).Tidy) (out inp : Fin n → Bool)
    (b : Bool) {line : Line} (present : line ∈ lines) :
    line.Shows ({(z, b), (x, b)} + ((d.link z x .simple).within (lines.map (·.start)) (lines.map (·.stop))).openLegs
      (List.ofFn out) (List.ofFn inp)) (bit inp line.qubit) (bit out line.qubit) (cnotBit one.qubit two.qubit b line.qubit) := by
  have inner := cnotSpider_inner c t
  obtain ⟨start, stop⟩ := laid.ends tidy.toWellFormed (bit inp) (bit out) [] [] rfl rfl rfl present
  rw [List.nil_append, ← ofFn_bits, ← ofFn_bits] at start stop
  have bound := laid.ends_bound present
  have away : ∀ {other : Line} {s}, other ∈ lines → other.spider = some s → s ≠ line.start ∧ s ≠ line.stop := by
    intro other s listed held
    have free := laid.spider_inner inner listed held
    exact ⟨fun same => free (same ▸ bound.1), fun same => free (same ▸ bound.2)⟩
  have zAway := away onePresent zHeld
  have xAway := away twoPresent xHeld
  refine ⟨start.foreign_pair zAway.1 xAway.1, stop.foreign_pair zAway.2 xAway.2, fun s held e => ?_⟩
  have zHere := laid.spider_same List.nodup_range onePresent zHeld present held
  have xHere := laid.spider_same List.nodup_range twoPresent xHeld present held
  rw [count_pair, tidy.bare (laid.spider_inner inner present held) e]
  simp only [zHere, xHere, cnotBit]
  by_cases control : one.qubit = line.qubit
  · have target : ¬two.qubit = line.qubit := fun same => different (control.trans same.symm)
    simp [control, target]
  · by_cases target : two.qubit = line.qubit
    · simp [control, target]
    · simp [control, target, Ne.symm control, Ne.symm target]

end

theorem cnot_realizes (controlInside : c < n) (targetInside : t < n) (different : c ≠ t) :
    Realizes (cnot n c t) n 0 1 ((Column.cnot c t).permutation n) := by
  have inner := cnotSpider_inner c t
  have laid := register_laid inner n 2
  have register_ := register_tidy inner n 2
  have spiders : (fun q => if q = c then some Vertex.z else if q = t then some .x else none) = cnotSpider c t := rfl
  unfold cnot
  rw [spiders]
  generalize register n 2 (cnotSpider c t) = result at laid register_
  obtain ⟨d, lines⟩ := result
  dsimp only at laid register_ ⊢
  rw [if_neg different]
  obtain ⟨one, onePresent, rfl, z, zHeld, zFound⟩ := cnot_spiders laid controlInside (.inl rfl)
  obtain ⟨two, twoPresent, rfl, x, xHeld, xFound⟩ := cnot_spiders laid targetInside (.inr rfl)
  simp only [zFound, xFound]
  have grown := cnot_grown laid onePresent zHeld twoPresent xHeld different
  have tidy := register_.grow grown (cnot_inward laid onePresent zHeld twoPresent xHeld)
  rw [List.append_nil, List.append_nil] at tidy
  have sizes := laid.lines_length
  have scalar : (d.link z x .simple).scalar = .one := laid.grown.scalar
  refine ⟨tidy, by simpa [withEnds] using sizes, by simpa [withEnds] using sizes, scalar, ?_⟩
  rw [pow_one, entry_eq_of_matrix]
  intro out inp
  have shown := fun b line (present : line ∈ lines) =>
    cnot_shows laid onePresent zHeld twoPresent xHeld different tidy out inp b present
  generalize opened : openLegs _ (List.ofFn out) (List.ofFn inp) = legs at shown
  have summed : ((d.link z x .simple).within (lines.map (·.start)) (lines.map (·.stop))).entry (List.ofFn out) (List.ofFn inp) =
      ∑ b : Bool, contract d.vertices d.edges ({(z, b), (x, b)} + legs) := by
    rw [entry, within_scalar, scalar, Scalar.one_value, one_mul, opened, within_vertices, within_edges, grown.contract_all,
      List.append_nil, contract_edges_perm (List.perm_append_singleton _ _), contract_simple]
  refine summed.trans ?_
  simp only [laid.meaning _ _ _ (shown _), cnot_lines controlInside targetInside different, Finset.sum_ite_eq', Finset.mem_univ,
    if_true, Matrix.smul_apply, smul_eq_mul]

end ToffoliBench.Fragment

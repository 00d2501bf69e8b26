import ToffoliBench.Proofs.Circuit.Lines
import ToffoliBench.Proofs.Meaning.Growth

namespace ToffoliBench

open Diagram Meaning

-- The entry of a spider that reads these bits.
noncomputable def Vertex.reads (x : Vertex) (bits : List Bool) : ℂ := x.weight (bits.count false) (bits.count true)

-- A line between the bits `i` and `o`, with an extra bit at its spider or none.
noncomputable def lineValue (x : Option Vertex) (i o : Bool) (extra : Option Bool) : ℂ :=
  match x with
  | none => if i = o then 1 else 0
  | some x => x.reads (i :: o :: extra.toList)

theorem rootTwo_square_inv : rootTwo⁻¹ ^ 2 * 2 = 1 := by
  rw [inv_pow, rootTwo_sq]
  norm_num

theorem rootTwo_cube_inv : rootTwo⁻¹ ^ 3 * 2 = rootTwo⁻¹ := by
  rw [pow_succ, mul_right_comm, rootTwo_square_inv, one_mul]

section

variable {x : Vertex} {i o b : Bool}

theorem lineValue_flip (kind : x.kind = .x) (phase : x.phase = .pi) :
    lineValue (some x) i o none = if o = !i then 1 else 0 := by
  have unit := rootTwo_square_inv
  cases i <;> cases o <;> simp [lineValue, Vertex.reads, Vertex.weight, kind, phase, Phase.turn_pi, one_add_one_eq_two] <;>
    simpa using unit

theorem lineValue_copy (kind : x.kind = .z) (phase : x.phase = .zero) :
    lineValue (some x) i o (some b) = if o = i ∧ b = i then 1 else 0 := by
  cases i <;> cases o <;> cases b <;> simp [lineValue, Vertex.reads, Vertex.weight, kind, phase, Phase.turn_zero]

theorem lineValue_add (kind : x.kind = .x) (phase : x.phase = .zero) :
    lineValue (some x) i o (some b) = if o = (i ^^ b) then rootTwo⁻¹ else 0 := by
  have unit := rootTwo_cube_inv
  have odd : (-1 : ℂ) ^ 3 = -1 := by norm_num
  cases i <;> cases o <;> cases b <;>
    simp [lineValue, Vertex.reads, Vertex.weight, kind, phase, Phase.turn_zero, one_add_one_eq_two, odd] <;> simpa using unit

end

theorem prod_straight {n : Nat} (p : Nat → Prop) [DecidablePred p] :
    ((List.range n).map fun q => if p q then (1 : ℂ) else 0).prod = if ∀ q < n, p q then 1 else 0 := by
  have bag : ∀ f : Nat → ℂ, ((List.range n).map f).prod = ∏ q ∈ Finset.range n, f q := fun f => rfl
  rw [bag, Finset.prod_ite_zero, Finset.prod_const_one]
  simp only [Finset.mem_range]

theorem prod_lines {n t : Nat} {p : Nat → Prop} [DecidablePred p] (inside : t < n) (r : ℂ) :
    ((List.range n).map fun q => if p q then (if q = t then r else 1) else 0).prod = if ∀ q < n, p q then r else 0 := by
  have bag : ∀ f : Nat → ℂ, ((List.range n).map f).prod = ∏ q ∈ Finset.range n, f q := fun f => rfl
  rw [bag, Finset.prod_ite_zero, Finset.prod_ite_eq' (Finset.range n) t, if_pos (Finset.mem_range.mpr inside)]
  simp only [Finset.mem_range]

namespace Line

variable {length : Float} {spiderOn : Nat → Option Vertex} {line : Line} {lines : List Line} {legs : Legs} {i o : Bool}
  {extra : Option Bool}

-- The bits that a line finds on its vertices.
structure Shows (legs : Legs) (line : Line) (i o : Bool) (extra : Option Bool) : Prop where
  start : Holds legs line.start i
  stop : Holds legs line.stop o
  spider : ∀ s, line.spider = some s → ∀ b, legs.count (s, b) = if extra = some b then 1 else 0

theorem own (fits : line.Fits spiderOn) : Own (line.vertices length spiderOn) line.wires := by
  obtain ⟨q, start, stop, spider⟩ := line
  cases spider with
  | none => exact own_between (by simp [vertices]) (by simp [vertices]) own_nil
  | some s =>
    obtain ⟨x, asked⟩ := Option.isSome_iff_exists.mp (fits.symm : (spiderOn q).isSome = true)
    exact own_between (by simp [vertices]) (by simp [vertices, asked])
      (own_between (by simp [vertices, asked]) (by simp [vertices]) own_nil)

-- Each end of the line hands its bit to the spider, or to the other end.
theorem meaning (fits : line.Fits spiderOn) (once : ((line.vertices length spiderOn).map Prod.fst).Nodup)
    (shown : Shows legs line i o extra) :
    contract (line.vertices length spiderOn) line.wires legs = lineValue (spiderOn line.qubit) i o extra := by
  obtain ⟨q, start, stop, spider⟩ := line
  obtain ⟨starts, stops, reads⟩ := shown
  cases spider with
  | none =>
    have asked : spiderOn q = none := by simpa [Fits] using fits
    have apart : start ≠ stop := by simpa [vertices] using once
    simp only [vertices, wires, asked, lineValue]
    rw [contract_boundary rfl starts apart apart_nil (by simpa using apart)]
    simp only [contract, weigh, List.map_cons, List.map_nil, List.prod_singleton, count_one, stops _, true_and]
    exact boundary_weight rfl i o
  | some s =>
    obtain ⟨x, asked⟩ := Option.isSome_iff_exists.mp (fits.symm : (spiderOn q).isSome = true)
    have apart : (start ≠ stop ∧ start ≠ s) ∧ stop ≠ s := by simpa [vertices, asked] using once
    obtain ⟨⟨ends, left⟩, right⟩ := apart
    simp only [vertices, wires, asked, lineValue]
    rw [contract_boundary rfl starts left (apart_between left ends apart_nil) (by simp [ends, left]), between_comm s stop,
      contract_boundary rfl (stops.foreign right.symm) right apart_nil (by simpa using right)]
    simp only [contract, weigh, List.map_cons, List.map_nil, List.prod_singleton, count_one, reads s rfl, true_and]
    cases i <;> cases o <;> rcases extra with - | - | - <;> rfl

theorem all_meaning (fits : ∀ line ∈ lines, line.Fits spiderOn)
    (once : ((lines.flatMap (·.vertices length spiderOn)).map Prod.fst).Nodup) :
    Own (lines.flatMap (·.vertices length spiderOn)) (lines.flatMap (·.wires)) ∧
      contract (lines.flatMap (·.vertices length spiderOn)) (lines.flatMap (·.wires)) legs =
        (lines.map fun line => contract (line.vertices length spiderOn) line.wires legs).prod := by
  induction lines with
  | nil => exact ⟨own_nil, by simp [contract, weigh]⟩
  | cons line rest ih =>
    simp only [List.flatMap_cons, List.map_append] at once ⊢
    have disjoint := List.disjoint_of_nodup_append once
    obtain ⟨ownRest, product⟩ := ih (fun line later => fits line (List.mem_cons_of_mem _ later)) once.of_append_right
    have ownLine : Own (line.vertices length spiderOn) line.wires := own (fits line List.mem_cons_self)
    refine ⟨?_, ?_⟩
    · intro e present
      simp only [List.map_append, List.mem_append]
      rcases List.mem_append.mp present with here | later
      · exact ⟨.inl (ownLine e here).1, .inl (ownLine e here).2⟩
      · exact ⟨.inr (ownRest e later).1, .inr (ownRest e later).2⟩
    · rw [contract_append (ownLine.apart fun v later here => disjoint here later) (ownRest.apart fun v here later => disjoint here later),
        product, List.map_cons, List.prod_cons]

end Line

namespace Fragment

variable {d : Diagram} {length : Float} {spiderOn : Nat → Option Vertex} {qs : List Nat} {lines : List Line} {line : Line}
  {legs : Legs}

section

variable (laid : Laid length spiderOn empty d qs lines)
include laid

theorem Laid.meaning (x y : Nat → Bool) (extra : Nat → Option Bool)
    (shown : ∀ line ∈ lines, line.Shows legs (x line.qubit) (y line.qubit) (extra line.qubit)) :
    contract d.vertices d.edges legs = (qs.map fun q => lineValue (spiderOn q) (x q) (y q) (extra q)).prod := by
  have whole : contract d.vertices d.edges legs = _ := laid.grown.contract_all
  rw [whole, ← laid.qubits, List.map_map]
  refine (Line.all_meaning laid.fits laid.once).2.trans (congrArg List.prod (List.map_congr_left fun line present => ?_))
  refine Line.meaning (laid.fits line present) ?_ (shown line present)
  have once := laid.once
  rw [List.map_flatMap, List.nodup_flatMap] at once
  exact once.1 line present

-- The bits outside stand at the ends of their lines. Other outputs may come first.
theorem Laid.ends {both : Diagram} (formed : both.WellFormed) (x y : Nat → Bool) (stops : List Nat) (outs : List Bool)
    (inputs : both.inputs = lines.map (·.start)) (outputs : both.outputs = stops ++ lines.map (·.stop))
    (lengths : stops.length = outs.length) (present : line ∈ lines) :
    Holds (both.openLegs (outs ++ qs.map y) (qs.map x)) line.start (x line.qubit) ∧
      Holds (both.openLegs (outs ++ qs.map y) (qs.map x)) line.stop (y line.qubit) := by
  have paired : ∀ (f : Line → Nat) (bits : Nat → Bool), (lines.map f).zip (qs.map bits) = lines.map fun one => (f one, bits one.qubit) := by
    intro f bits
    rw [← laid.qubits, List.map_map, List.zip_map']
    rfl
  have sizes : lines.length = qs.length := by rw [← laid.qubits, List.length_map]
  have ins : (qs.map x).length = both.inputs.length := by simp [inputs, sizes]
  have outs' : (outs ++ qs.map y).length = both.outputs.length := by simp [outputs, lengths, sizes]
  refine ⟨formed.holds ins outs' (List.mem_append_left _ ?_), formed.holds ins outs' (List.mem_append_right _ ?_)⟩
  · rw [inputs, paired]
    exact List.mem_map_of_mem present
  · rw [outputs, List.zip_append lengths, paired]
    exact List.mem_append_right _ (List.mem_map_of_mem present)

end

end Fragment

end ToffoliBench

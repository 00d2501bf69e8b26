import ToffoliBench.Proofs.Diagram.Composition

namespace ToffoliBench.Diagram

variable {d other both after : Diagram} {names : Renaming} {qubits rows : Float} {o i a b u v : Nat} {k l : EdgeKind}

theorem degree_eq (d : Diagram) (v : Nat) : d.degree v = d.edges.countP (·.touches v) := by
  rw [degree, neighbors, List.length_filterMap_eq_countP]
  refine List.countP_congr fun e _ => ?_
  rw [Option.isSome_iff_ne_none, ne_eq, Edge.other_none, not_not]

theorem incident_length (d : Diagram) (v : Nat) : (d.incident v).length = d.degree v := by
  simp only [incident, degree, neighbors, List.length_filterMap_eq_countP, Option.isSome_map]

theorem degree_perm {es : List Edge} (same : d.edges.Perm es) (v : Nat) : d.degree v = es.countP (·.touches v) := by
  rw [degree_eq, same.countP_eq]

-- The far end of a lone wire.
theorem incident_single (single : d.degree v = 1) : ∃ w k, d.incident v = [(w, k)] := by
  obtain ⟨⟨w, k⟩, only⟩ := List.length_eq_one_iff.mp (d.incident_length v ▸ single)
  exact ⟨w, k, only⟩

theorem Fusable.degree (fusable : Fusable d o i a b k l) (sound : d.Sound) (outer : v ≠ o) (inner : v ≠ i) :
    (d.fused o i a b (k.merge l)).degree v = d.degree v := by
  rw [degree_perm fused_edges, degree_perm (fusable.edges sound)]
  simp only [List.countP_cons, Edge.touches_between, outer.symm, inner.symm, false_or]
  have different := fusable.different
  by_cases left : a = v
  · have right : b ≠ v := fun same => different (left.trans same.symm)
    simp [left, right]
  · simp [left]

theorem Fusions.boundary {pairs : List (Nat × Nat)} (steps : Fusions d pairs after) (sound : d.Sound) (v : Nat) :
    after.IsBoundary v ↔ d.IsBoundary v ∧ v ∉ pairs.map Prod.fst ++ pairs.map Prod.snd := by
  induction steps with
  | nil => simp
  | @cons d middle after o i rest step _ ih =>
    obtain ⟨a, b, k, l, fusable, rfl⟩ := sound.fusePair_ok.mp step
    have one : (d.fused o i a b (k.merge l)).IsBoundary v ↔ d.IsBoundary v ∧ v ≠ o ∧ v ≠ i := by
      constructor
      · rintro ⟨x, present, bound⟩
        obtain ⟨held, inner⟩ := mem_drop_vertices.mp present
        obtain ⟨old, outer⟩ := mem_drop_vertices.mp held
        exact ⟨⟨x, old, bound⟩, outer, inner⟩
      · rintro ⟨held, outer, inner⟩
        exact held.fused outer inner
    rw [ih (fusable.fused_sound sound), one, and_assoc, Wiring.ends_outside]

theorem Fusions.degree {pairs : List (Nat × Nat)} (steps : Fusions d pairs after) (sound : d.Sound)
    (outside : v ∉ pairs.map Prod.fst ++ pairs.map Prod.snd) : after.degree v = d.degree v := by
  induction steps with
  | nil => rfl
  | @cons d middle after o i rest step _ ih =>
    obtain ⟨a, b, k, l, fusable, rfl⟩ := sound.fusePair_ok.mp step
    obtain ⟨⟨outer, inner⟩, later⟩ := Wiring.ends_outside.mp outside
    rw [ih (fusable.fused_sound sound) later, fusable.degree sound outer inner]

namespace Appended

variable (all : Appended d other both names qubits rows) (otherSound : other.Sound)
include all otherSound

theorem moved_touches {e : Edge} (present : e ∈ other.edges) (held : u ∈ other.ids) :
    (e.moved (rename names)).touches (rename names u) = e.touches u := by
  obtain ⟨low, high⟩ := otherSound.live e present
  rw [Bool.eq_iff_iff, Edge.moved, Edge.touches_between, Edge.touches_iff]
  constructor
  · rintro (same | same)
    · exact .inl (all.injective low held same)
    · exact .inr (all.injective high held same)
  · rintro (rfl | rfl)
    · exact .inl rfl
    · exact .inr rfl

theorem moved_misses {e : Edge} (present : e ∈ other.edges) (old : v ∈ d.ids) :
    (e.moved (rename names)).touches v = false := by
  obtain ⟨low, high⟩ := otherSound.live e present
  rw [Bool.eq_false_iff, ne_eq, Edge.moved, Edge.touches_between]
  rintro (rfl | rfl)
  · exact all.new low old
  · exact all.new high old

theorem degree_left (old : v ∈ d.ids) : both.degree v = d.degree v := by
  have none : (other.edges.map (·.moved (rename names))).countP (·.touches v) = 0 := by
    rw [List.countP_eq_zero]
    intro f moved
    obtain ⟨e, present, rfl⟩ := List.mem_map.mp moved
    simp [all.moved_misses otherSound present old]
  rw [degree_perm all.edges, List.countP_append, none, degree_eq, Nat.add_zero]

theorem degree_right (sound : d.Sound) (held : u ∈ other.ids) : both.degree (rename names u) = other.degree u := by
  have none : d.edges.countP (·.touches (rename names u)) = 0 := by
    rw [List.countP_eq_zero]
    intro e present
    obtain ⟨low, high⟩ := sound.live e present
    rw [Edge.touches_iff]
    rintro (same | same)
    · exact all.new held (same ▸ low)
    · exact all.new held (same ▸ high)
  rw [degree_perm all.edges, List.countP_append, none, Nat.zero_add, List.countP_map, degree_eq]
  refine List.countP_congr fun e present => ?_
  simp [all.moved_touches otherSound present held]

end Appended

section

variable {fusedAll : Diagram} (left : d.WellFormed) (right : other.WellFormed) (lengths : d.outputs.length = other.inputs.length)
include left right

-- What is left of the ends of both diagrams once the seam is closed.
theorem composed_distinct : (d.inputs ++ other.outputs.map (rename (d.joinNames other))).Nodup := by
  have all := append_appended left.toSound right.toSound 0 d.depth
  refine List.nodup_append'.mpr ⟨left.distinct.of_append_left, ?_, ?_⟩
  · exact right.distinct.of_append_right.map_on fun u one v two => all.injective (right.output_live one) (right.output_live two)
  · intro v input moved
    obtain ⟨u, output, rfl⟩ := List.mem_map.mp moved
    exact all.new (right.output_live output) (left.input_live input)

include lengths

theorem composed_unsewn (present : v ∈ d.inputs ++ other.outputs.map (rename (d.joinNames other))) :
    v ∉ (d.seam other).map Prod.fst ++ (d.seam other).map Prod.snd := by
  intro sewn
  obtain ⟨notInput, notOutput⟩ := (left.seam right lengths).apart v sewn
  rcases List.mem_append.mp present with input | output
  · exact notInput input
  · exact notOutput output

variable (steps : Fusions (d.joined other) (d.seam other) fusedAll)
include steps

theorem composed_covered : v ∈ d.inputs ++ other.outputs.map (rename (d.joinNames other)) ↔ fusedAll.IsBoundary v := by
  have all := append_appended left.toSound right.toSound 0 d.depth
  have beside : (d.joined other).IsBoundary v ↔ d.IsBoundary v ∨ ∃ u, other.IsBoundary u ∧ v = rename (d.joinNames other) u :=
    all.boundary v
  rw [steps.boundary (left.toSound.joined right.toSound), beside]
  constructor
  · intro present
    refine ⟨?_, composed_unsewn left right lengths present⟩
    rcases List.mem_append.mp present with input | output
    · exact .inl ((left.covered v).mp (List.mem_append_left _ input))
    · obtain ⟨u, held, rfl⟩ := List.mem_map.mp output
      exact .inr ⟨u, (right.covered u).mp (List.mem_append_right _ held), rfl⟩
  · rw [seam_fst lengths, seam_snd lengths, List.mem_append, not_or]
    rintro ⟨bound | ⟨u, bound, rfl⟩, notOutput, notInput⟩
    · exact List.mem_append_left _ ((List.mem_append.mp ((left.covered v).mpr bound)).resolve_right notOutput)
    · rcases List.mem_append.mp ((right.covered u).mpr bound) with input | output
      · exact absurd (List.mem_map_of_mem input) notInput
      · exact List.mem_append_right _ (List.mem_map_of_mem output)

theorem composed_single (present : v ∈ d.inputs ++ other.outputs.map (rename (d.joinNames other))) : fusedAll.degree v = 1 := by
  have all := append_appended left.toSound right.toSound 0 d.depth
  refine (steps.degree (left.toSound.joined right.toSound) (composed_unsewn left right lengths present)).trans ?_
  rcases List.mem_append.mp present with input | output
  · exact (all.degree_left right.toSound (left.input_live input)).trans (left.single v (List.mem_append_left _ input))
  · obtain ⟨u, held, rfl⟩ := List.mem_map.mp output
    exact (all.degree_right right.toSound left.toSound (right.output_live held)).trans
      (right.single u (List.mem_append_right _ held))

end

theorem compose_wellFormed (left : d.WellFormed) (right : other.WellFormed) (done : d.compose other = .ok after) :
    after.WellFormed := by
  obtain ⟨lengths, fusedAll, scalar, steps, product, rfl⟩ := (left.compose_iff right).mp done
  have all := append_appended left.toSound right.toSound 0 d.depth
  obtain ⟨sound, inputs, _, _⟩ := steps.kept (left.toSound.joined right.toSound)
  have ends : fusedAll.inputs ++ other.outputs.map (rename (d.joinNames other)) =
      d.inputs ++ other.outputs.map (rename (d.joinNames other)) := congrArg (· ++ _) (inputs.trans all.inputs)
  refine ⟨sound.congr rfl rfl rfl rfl, ?_, fun v => ?_, fun v present => ?_⟩
  · exact ends ▸ composed_distinct left right
  · have covered : _ ↔ fusedAll.IsBoundary v := composed_covered left right lengths steps
    exact ends ▸ covered
  · have single : fusedAll.degree v = 1 := composed_single left right lengths steps (ends ▸ present)
    exact single

theorem tensor_wellFormed (left : d.WellFormed) (right : other.WellFormed) (done : d.tensor other = .ok after) :
    after.WellFormed := by
  obtain ⟨scalar, product, rfl⟩ := (left.tensor_iff right).mp done
  have all := append_appended left.toSound right.toSound d.qubitCount 0
  generalize d.append other d.qubitCount 0 = result at all
  obtain ⟨both, names⟩ := result
  dsimp only at all ⊢
  have sound := all.sound
  have rearranged : (d.inputs ++ other.inputs.map (rename names) ++ (d.outputs ++ other.outputs.map (rename names))).Perm
      (d.inputs ++ d.outputs ++ (other.inputs ++ other.outputs).map (rename names)) := by
    rw [List.map_append]
    refine List.perm_iff_count.mpr fun v => ?_
    simp only [List.count_append]
    omega
  have live : ∀ u ∈ other.inputs ++ other.outputs, u ∈ other.ids := fun u present => ((right.covered u).mp present).live
  refine ⟨sound.congr rfl rfl rfl rfl, ?_, ?_, ?_⟩
  · refine rearranged.nodup_iff.mpr (List.nodup_append'.mpr ⟨left.distinct, ?_, ?_⟩)
    · exact right.distinct.map_on fun u one v two => all.injective (live u one) (live v two)
    · intro v present moved
      obtain ⟨u, held, rfl⟩ := List.mem_map.mp moved
      exact all.new (live u held) ((left.covered _).mp present).live
  · intro v
    rw [rearranged.mem_iff, List.mem_append, left.covered, List.mem_map]
    refine Iff.trans ?_ (all.boundary v).symm
    constructor
    · rintro (bound | ⟨u, held, rfl⟩)
      · exact .inl bound
      · exact .inr ⟨u, (right.covered u).mp held, rfl⟩
    · rintro (bound | ⟨u, held, rfl⟩)
      · exact .inl bound
      · exact .inr ⟨u, (right.covered u).mpr held, rfl⟩
  · intro v present
    rcases List.mem_append.mp (rearranged.mem_iff.mp present) with old | moved
    · exact (all.degree_left right.toSound ((left.covered v).mp old).live).trans (left.single v old)
    · obtain ⟨u, held, rfl⟩ := List.mem_map.mp moved
      exact (all.degree_right right.toSound left.toSound (live u held)).trans (right.single u held)

end ToffoliBench.Diagram

import ToffoliBench.Proofs.Diagram.Append
import ToffoliBench.Proofs.Diagram.Fusion

namespace ToffoliBench.Diagram
open Outcome

variable {d other after : Diagram} {names : Renaming} {o i a b : Nat}

structure WellFormed (d : Diagram) : Prop extends Sound d where
  distinct : (d.inputs ++ d.outputs).Nodup
  covered : ∀ v, v ∈ d.inputs ++ d.outputs ↔ d.IsBoundary v
  single : ∀ v ∈ d.inputs ++ d.outputs, d.degree v = 1

instance (d : Diagram) : Decidable d.WellFormed :=
  decidable_of_iff
    (d.Sound ∧ (d.inputs ++ d.outputs).Nodup ∧
      ((∀ v ∈ d.inputs ++ d.outputs, d.IsBoundary v) ∧
        ∀ entry ∈ d.vertices, entry.2.kind = .boundary → entry.1 ∈ d.inputs ++ d.outputs) ∧
      ∀ v ∈ d.inputs ++ d.outputs, d.degree v = 1)
    ⟨fun ⟨sound, distinct, ⟨bound, listed⟩, single⟩ =>
        ⟨sound, distinct, fun v => ⟨bound v, fun ⟨_, present, kind⟩ => listed _ present kind⟩, single⟩,
      fun ⟨sound, distinct, covered, single⟩ =>
        ⟨sound, distinct, ⟨fun v => (covered v).mp, fun _ present kind => (covered _).mpr ⟨_, present, kind⟩⟩, single⟩⟩

theorem IsBoundary.live {v : Nat} (bound : d.IsBoundary v) : v ∈ d.ids := by
  obtain ⟨x, present, _⟩ := bound
  exact List.mem_map.mpr ⟨_, present, rfl⟩

namespace WellFormed

variable (formed : d.WellFormed)
include formed

theorem input_live {v : Nat} (present : v ∈ d.inputs) : v ∈ d.ids :=
  ((formed.covered v).mp (List.mem_append_left _ present)).live

theorem output_live {v : Nat} (present : v ∈ d.outputs) : v ∈ d.ids :=
  ((formed.covered v).mp (List.mem_append_right _ present)).live

end WellFormed

theorem Appended.boundary {both : Diagram} {qubits rows : Float} (all : Appended d other both names qubits rows) (v : Nat) :
    both.IsBoundary v ↔ d.IsBoundary v ∨ ∃ u, other.IsBoundary u ∧ v = rename names u := by
  constructor
  · rintro ⟨x, present, bound⟩
    rcases List.mem_append.mp (all.vertices.mem_iff.mp present) with old | moved
    · exact .inl ⟨x, old, bound⟩
    · obtain ⟨⟨u, y⟩, source, same⟩ := List.mem_map.mp moved
      obtain ⟨rfl, rfl⟩ := Prod.mk.inj same
      exact .inr ⟨u, ⟨y, source, bound⟩, rfl⟩
  · rintro (⟨x, old, bound⟩ | ⟨u, ⟨y, source, bound⟩, rfl⟩)
    · exact ⟨x, all.vertices.mem_iff.mpr (List.mem_append_left _ old), bound⟩
    · exact ⟨_, all.vertices.mem_iff.mpr (List.mem_append_right _ (List.mem_map_of_mem source)), bound⟩

-- The names under which the vertices of the later diagram stand after the earlier one.
def joinNames (d other : Diagram) : Renaming := (d.append other 0 d.depth).2

-- Both diagrams side by side, with the outputs of the earlier one taken out of its list.
def joined (d other : Diagram) : Diagram := { (d.append other 0 d.depth).1 with outputs := [] }

-- Each output with the input it is to be fused with.
def seam (d other : Diagram) : List (Nat × Nat) :=
  (d.outputs.zip other.inputs).map fun pair => (pair.1, rename (d.joinNames other) pair.2)

-- What is left when the whole seam could be fused.
def Composed (d other after : Diagram) : Prop := d.outputs.length = other.inputs.length ∧ ∃ fusedAll scalar,
  Fusions (d.joined other) (d.seam other) fusedAll ∧ fusedAll.scalar.mul other.scalar = .ok scalar ∧
    after = { fusedAll with outputs := other.outputs.map (rename (d.joinNames other)), scalar }

theorem compose_exact (left : d.Sound) (right : other.Sound) (inputs : ∀ v ∈ other.inputs, v ∈ other.ids)
    (outputs : ∀ v ∈ other.outputs, v ∈ other.ids) : d.compose other = .ok after ↔ Composed d other after := by
  have appended := append_appended left right 0 d.depth
  have known : ∀ pair ∈ d.outputs.zip other.inputs,
      renamed (d.joinNames other) pair.2 = .ok (rename (d.joinNames other) pair.2) :=
    fun pair present => appended.renamed_ok (inputs _ (List.of_mem_zip present).2)
  have named : other.outputs.mapM (renamed (d.joinNames other)) = .ok (other.outputs.map (rename (d.joinNames other))) :=
    appended.mapM_renamed outputs
  unfold compose
  by_cases lengths : d.outputs.length = other.inputs.length
  · rw [if_neg (by simpa using lengths)]
    constructor
    · intro done
      obtain ⟨fusedAll, fusing, done⟩ := bind_ok.mp done
      obtain ⟨outs, mapped, done⟩ := bind_ok.mp (mapError_ok.mp done)
      obtain ⟨scalar, product, done⟩ := bind_ok.mp done
      obtain rfl := Except.ok.inj (named.symm.trans mapped)
      exact ⟨lengths, fusedAll, scalar, (fusePairs_exact known).mp fusing, product, (pure_ok.mp done).symm⟩
    · rintro ⟨_, fusedAll, scalar, steps, product, rfl⟩
      refine bind_ok.mpr ⟨fusedAll, (fusePairs_exact known).mpr steps, mapError_ok.mpr (bind_ok.mpr ⟨_, named, ?_⟩)⟩
      exact bind_ok.mpr ⟨scalar, product, rfl⟩
  · rw [if_pos (by simpa using lengths)]
    simp [Composed, lengths]

-- Both diagrams with the ends of both.
def Stacked (d other after : Diagram) : Prop := ∃ scalar, d.scalar.mul other.scalar = .ok scalar ∧
  after = { (d.append other d.qubitCount 0).1 with
    inputs := d.inputs ++ other.inputs.map (rename (d.append other d.qubitCount 0).2)
    outputs := d.outputs ++ other.outputs.map (rename (d.append other d.qubitCount 0).2)
    scalar }

theorem tensor_exact (left : d.Sound) (right : other.Sound) (inputs : ∀ v ∈ other.inputs, v ∈ other.ids)
    (outputs : ∀ v ∈ other.outputs, v ∈ other.ids) : d.tensor other = .ok after ↔ Stacked d other after := by
  have appended := append_appended left right d.qubitCount 0
  have namedInputs := appended.mapM_renamed inputs
  have namedOutputs := appended.mapM_renamed outputs
  have scalars := appended.scalar
  unfold tensor Stacked
  generalize d.append other d.qubitCount 0 = result at *
  obtain ⟨both, names⟩ := result
  dsimp only at *
  constructor
  · intro done
    obtain ⟨ins, mappedInputs, done⟩ := bind_ok.mp done
    obtain ⟨outs, mappedOutputs, done⟩ := bind_ok.mp done
    obtain ⟨scalar, product, done⟩ := bind_ok.mp done
    obtain rfl := Except.ok.inj (namedInputs.symm.trans mappedInputs)
    obtain rfl := Except.ok.inj (namedOutputs.symm.trans mappedOutputs)
    exact ⟨scalar, scalars ▸ product, (pure_ok.mp done).symm⟩
  · rintro ⟨scalar, product, rfl⟩
    refine bind_ok.mpr ⟨_, namedInputs, bind_ok.mpr ⟨_, namedOutputs, ?_⟩⟩
    exact bind_ok.mpr ⟨scalar, scalars.symm ▸ product, rfl⟩

theorem WellFormed.compose_iff (left : d.WellFormed) (right : other.WellFormed) :
    d.compose other = .ok after ↔ Composed d other after :=
  compose_exact left.toSound right.toSound (fun _ => right.input_live) (fun _ => right.output_live)

theorem WellFormed.tensor_iff (left : d.WellFormed) (right : other.WellFormed) :
    d.tensor other = .ok after ↔ Stacked d other after :=
  tensor_exact left.toSound right.toSound (fun _ => right.input_live) (fun _ => right.output_live)

theorem fusePair_keeps (sound : d.Sound) (step : d.fusePair o i = .ok after) :
    after.inputs = d.inputs ∧ after.outputs = d.outputs ∧ after.scalar = d.scalar := by
  obtain ⟨a, b, k, l, _, rfl⟩ := sound.fusePair_ok.mp step
  have kept : ∀ (e : Diagram) v, (e.drop v).inputs = e.inputs ∧ (e.drop v).outputs = e.outputs ∧
      (e.drop v).scalar = e.scalar := by
    intro e v
    unfold drop
    split <;> exact ⟨rfl, rfl, rfl⟩
  obtain ⟨inputs, outputs, scalar⟩ := kept (d.drop o) i
  obtain ⟨inputs', outputs', scalar'⟩ := kept d o
  exact ⟨inputs.trans inputs', outputs.trans outputs', scalar.trans scalar'⟩

theorem Fusions.kept {pairs : List (Nat × Nat)} (steps : Fusions d pairs after) (sound : d.Sound) :
    after.Sound ∧ after.inputs = d.inputs ∧ after.outputs = d.outputs ∧ after.scalar = d.scalar := by
  induction steps with
  | nil => exact ⟨sound, rfl, rfl, rfl⟩
  | cons step _ ih =>
    obtain ⟨a, b, k, l, fusable, rfl⟩ := sound.fusePair_ok.mp step
    obtain ⟨inputs, outputs, scalar⟩ := fusePair_keeps sound step
    obtain ⟨afterSound, afterInputs, afterOutputs, afterScalar⟩ := ih (fusable.fused_sound sound)
    exact ⟨afterSound, afterInputs.trans inputs, afterOutputs.trans outputs, afterScalar.trans scalar⟩

theorem Sound.joined (left : d.Sound) (right : other.Sound) : (d.joined other).Sound :=
  (append_appended left right 0 d.depth).sound.congr rfl rfl rfl rfl

theorem compose_arity (left : d.WellFormed) (right : other.WellFormed) (done : d.compose other = .ok after) :
    d.outputs.length = other.inputs.length ∧ after.inputs.length = d.inputs.length ∧
      after.outputs.length = other.outputs.length := by
  obtain ⟨lengths, fusedAll, scalar, steps, _, rfl⟩ := (left.compose_iff right).mp done
  have all := append_appended left.toSound right.toSound 0 d.depth
  obtain ⟨_, inputs, _, _⟩ := steps.kept (left.toSound.joined right.toSound)
  exact ⟨lengths, congrArg List.length (inputs.trans all.inputs), List.length_map _⟩

theorem tensor_total (left : d.WellFormed) (right : other.WellFormed) {scalar : Scalar}
    (product : d.scalar.mul other.scalar = .ok scalar) : ∃ after, d.tensor other = .ok after ∧
      after.inputs.length = d.inputs.length + other.inputs.length ∧
      after.outputs.length = d.outputs.length + other.outputs.length := by
  refine ⟨_, (left.tensor_iff right).mpr ⟨scalar, product, rfl⟩, ?_, ?_⟩ <;> simp

theorem seam_fst (lengths : d.outputs.length = other.inputs.length) : (d.seam other).map Prod.fst = d.outputs := by
  rw [seam, List.map_map]
  exact List.map_fst_zip (Nat.le_of_eq lengths)

theorem seam_snd (lengths : d.outputs.length = other.inputs.length) :
    (d.seam other).map Prod.snd = other.inputs.map (rename (d.joinNames other)) := by
  have seconds : (d.outputs.zip other.inputs).map Prod.snd = other.inputs :=
    List.map_snd_zip (Nat.le_of_eq lengths.symm)
  conv_rhs => rw [← seconds, List.map_map]
  rw [seam, List.map_map]
  rfl

theorem seam_length (lengths : d.outputs.length = other.inputs.length) : (d.seam other).length = d.outputs.length := by
  rw [← seam_fst lengths, List.length_map]

-- What two well-formed diagrams bring to their seam.
structure Seam (d other : Diagram) : Prop where
  lengths : d.outputs.length = other.inputs.length
  once : ((d.seam other).map Prod.fst ++ (d.seam other).map Prod.snd).Nodup
  bound : ∀ v ∈ (d.seam other).map Prod.fst ++ (d.seam other).map Prod.snd, (d.joined other).IsBoundary v
  apart : ∀ v ∈ (d.seam other).map Prod.fst ++ (d.seam other).map Prod.snd,
    v ∉ d.inputs ∧ v ∉ other.outputs.map (rename (d.joinNames other))

theorem WellFormed.seam (left : d.WellFormed) (right : other.WellFormed) (lengths : d.outputs.length = other.inputs.length) :
    Seam d other := by
  have all := append_appended left.toSound right.toSound 0 d.depth
  have leftOnce := left.distinct
  have rightOnce := right.distinct
  have moves : ∀ u ∈ other.ids, rename (d.joinNames other) u ∉ d.ids := fun u present => all.new present
  have same : ∀ u ∈ other.ids, ∀ v ∈ other.ids, rename (d.joinNames other) u = rename (d.joinNames other) v → u = v :=
    fun u one v two => all.injective one two
  refine ⟨lengths, ?_, ?_, ?_⟩
  · rw [seam_fst lengths, seam_snd lengths]
    refine List.nodup_append'.mpr ⟨leftOnce.of_append_right, ?_, ?_⟩
    · exact rightOnce.of_append_left.map_on fun u one v two => same u (right.input_live one) v (right.input_live two)
    · intro v output moved
      obtain ⟨u, input, rfl⟩ := List.mem_map.mp moved
      exact moves u (right.input_live input) (left.output_live output)
  · intro v present
    rw [seam_fst lengths, seam_snd lengths] at present
    refine (all.boundary v).mpr ?_
    rcases List.mem_append.mp present with output | moved
    · exact .inl ((left.covered v).mp (List.mem_append_right _ output))
    · obtain ⟨u, input, rfl⟩ := List.mem_map.mp moved
      exact .inr ⟨u, (right.covered u).mp (List.mem_append_left _ input), rfl⟩
  · intro v present
    rw [seam_fst lengths, seam_snd lengths] at present
    rcases List.mem_append.mp present with output | moved
    · refine ⟨fun input => List.disjoint_of_nodup_append leftOnce input output, fun moved => ?_⟩
      obtain ⟨u, held, rfl⟩ := List.mem_map.mp moved
      exact moves u (right.output_live held) (left.output_live output)
    · obtain ⟨u, input, rfl⟩ := List.mem_map.mp moved
      refine ⟨fun held => moves u (right.input_live input) (left.input_live held), fun other => ?_⟩
      obtain ⟨w, output, equal⟩ := List.mem_map.mp other
      obtain rfl := same w (right.output_live output) u (right.input_live input) equal
      exact List.disjoint_of_nodup_append rightOnce input output

end ToffoliBench.Diagram

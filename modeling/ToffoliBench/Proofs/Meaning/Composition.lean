import ToffoliBench.Proofs.Diagram.Composition
import ToffoliBench.Proofs.Meaning.Diagram

namespace ToffoliBench

namespace Meaning

variable {vs : List (Nat × Vertex)} {es : List Edge} {legs : Legs}

theorem count_rename {f : Nat → Nat} {S : Set Nat} (injective : Set.InjOn f S) {v : Nat} (held : v ∈ S)
    (inside : ∀ leg ∈ legs, leg.1 ∈ S) (b : Bool) : (legs.map (Prod.map f id)).count (f v, b) = legs.count (v, b) := by
  rw [Multiset.count_map, Multiset.count_eq_card_filter_eq]
  refine congrArg _ (Multiset.filter_congr fun leg present => ?_)
  constructor
  · intro same
    obtain ⟨sameVertex, sameBit⟩ := Prod.mk.inj same
    exact Prod.ext (injective held (inside leg present) sameVertex) sameBit
  · rintro rfl
    rfl

-- Names and positions of vertices do not matter.
theorem contract_moved {f : Nat → Nat} {S : Set Nat} (injective : Set.InjOn f S) {g : Nat × Vertex → Nat × Vertex}
    (moves : ∀ entry, (g entry).1 = f entry.1 ∧ (g entry).2.weight = entry.2.weight)
    (vertices : ∀ entry ∈ vs, entry.1 ∈ S) (edges : ∀ e ∈ es, e.low ∈ S ∧ e.high ∈ S) (inside : ∀ leg ∈ legs, leg.1 ∈ S) :
    contract (vs.map g) (es.map (·.moved f)) (legs.map (Prod.map f id)) = contract vs es legs := by
  induction es generalizing legs with
  | nil =>
    simp only [List.map_nil, contract, weigh, List.map_map]
    refine congrArg List.prod (List.map_congr_left fun entry present => ?_)
    obtain ⟨name, weight⟩ := moves entry
    simp only [Function.comp_apply, name, weight, count_rename injective (vertices entry present) inside]
  | cons e rest ih =>
    obtain ⟨low, high⟩ := edges e List.mem_cons_self
    rw [List.map_cons, Edge.moved, contract_between, contract]
    refine Finset.sum_congr rfl fun bits _ => ?_
    have later : ∀ leg ∈ e.ends bits + legs, leg.1 ∈ S := by
      intro leg present
      simp only [Edge.ends, Multiset.mem_add, Multiset.insert_eq_cons, Multiset.mem_cons, Multiset.mem_singleton] at present
      rcases present with (rfl | rfl) | old
      · exact low
      · exact high
      · exact inside leg old
    rw [← ih (fun f present => edges f (List.mem_cons_of_mem _ present)) later]
    simp [Edge.ends]

end Meaning

namespace Diagram
open Meaning

variable {d other both after : Diagram} {names : Renaming} {qubits rows : Float}

-- Side by side, each diagram is weighed with its own legs.
theorem Appended.meaning (all : Appended d other both names qubits rows) (sound : d.Sound) (otherSound : other.Sound)
    {own far : Legs} (ownLive : ∀ leg ∈ own, leg.1 ∈ d.ids) (farLive : ∀ leg ∈ far, leg.1 ∈ other.ids) :
    contract both.vertices both.edges (own + far.map (Prod.map (rename names) id)) =
      contract d.vertices d.edges own * contract other.vertices other.edges far := by
  have away : ∀ v ∈ d.ids, ∀ u ∈ other.ids, v ≠ rename names u := fun v old u moved same => all.new moved (same ▸ old)
  rw [contract_perm all.vertices all.edges, contract_append]
  · congr 1
    · refine contract_same fun entry present b => ?_
      have old : entry.1 ∈ d.ids := List.mem_map.mpr ⟨entry, present, rfl⟩
      rw [Multiset.count_add, Nat.add_eq_left, Multiset.count_eq_zero]
      intro moved
      obtain ⟨leg, legPresent, same⟩ := Multiset.mem_map.mp moved
      exact away _ old _ (farLive leg legPresent) (congrArg Prod.fst same).symm
    · rw [← contract_moved (f := rename names) (S := {v | v ∈ other.ids}) (g := moveVertex names qubits rows)
        (fun u left v right same => all.injective left right same) (fun entry => ⟨rfl, rfl⟩)
        (fun entry present => List.mem_map.mpr ⟨entry, present, rfl⟩) otherSound.live farLive]
      refine contract_same fun entry present b => ?_
      obtain ⟨source, sourcePresent, rfl⟩ := List.mem_map.mp present
      rw [Multiset.count_add, Nat.add_eq_right, Multiset.count_eq_zero]
      intro old
      exact away _ (ownLive _ old) _ (List.mem_map.mpr ⟨source, sourcePresent, rfl⟩) rfl
  · intro e present entry moved
    obtain ⟨source, sourcePresent, rfl⟩ := List.mem_map.mp moved
    have held : source.1 ∈ other.ids := List.mem_map.mpr ⟨source, sourcePresent, rfl⟩
    obtain ⟨low, high⟩ := sound.live e present
    exact ⟨(away _ low _ held).symm, (away _ high _ held).symm⟩
  · intro e moved entry present
    obtain ⟨source, sourcePresent, rfl⟩ := List.mem_map.mp moved
    have old : entry.1 ∈ d.ids := List.mem_map.mpr ⟨entry, present, rfl⟩
    obtain ⟨low, high⟩ := otherSound.live source sourcePresent
    have ends : ∀ v, (source.moved (rename names)).low = v ∨ (source.moved (rename names)).high = v →
        v = rename names source.low ∨ v = rename names source.high := by
      intro v
      simp only [Edge.moved, Edge.between]
      omega
    constructor
    · intro same
      rcases ends _ (.inl same.symm) with equal | equal
      · exact away _ old _ low equal
      · exact away _ old _ high equal
    · intro same
      rcases ends _ (.inr same.symm) with equal | equal
      · exact away _ old _ low equal
      · exact away _ old _ high equal

theorem WellFormed.openLegs_live (formed : d.WellFormed) (out inp : List Bool) : ∀ leg ∈ d.openLegs out inp, leg.1 ∈ d.ids := by
  intro leg present
  rcases List.mem_append.mp (Multiset.mem_coe.mp present) with input | output
  · exact formed.input_live (List.of_mem_zip input).1
  · exact formed.output_live (List.of_mem_zip output).1

theorem zip_renamed (names : Renaming) (vs : List Nat) (bits : List Bool) :
    (vs.map (rename names)).zip bits = (vs.zip bits).map (Prod.map (rename names) id) := by
  rw [List.zip_map_left]

theorem compose_entry (left : d.WellFormed) (right : other.WellFormed) (done : d.compose other = .ok after)
    (out inp : List Bool) :
    after.entry out inp = sumBits d.outputs.length fun mid => other.entry out mid * d.entry mid inp := by
  obtain ⟨lengths, fusedAll, scalar, steps, product, rfl⟩ := (left.compose_iff right).mp done
  have all := append_appended left.toSound right.toSound 0 d.depth
  have both := left.toSound.joined right.toSound
  have seam := left.seam right lengths
  obtain ⟨_, inputs, _, scalars⟩ := steps.kept both
  have scalarKept : (d.joined other).scalar = d.scalar := all.scalar
  have inputsKept : (d.joined other).inputs = d.inputs := all.inputs
  let rest : Legs := ↑(d.inputs.zip inp ++ (other.outputs.map (rename (d.joinNames other))).zip out)
  have bare : ∀ v ∈ (d.seam other).map Prod.fst ++ (d.seam other).map Prod.snd, Bare rest v := fun v present =>
    bare_add (bare_zip (seam.apart v present).1) (bare_zip (seam.apart v present).2)
  have shared : ∀ mid, pairLegs (d.seam other) mid + rest =
      d.openLegs mid inp + (other.openLegs out mid).map (Prod.map (rename (d.joinNames other)) id) := by
    intro mid
    simp only [pairLegs, rest, openLegs, seam_fst lengths, seam_snd lengths, zip_renamed, ← Multiset.coe_add,
      Multiset.map_add, Multiset.map_coe]
    abel
  have fusion := fusions_meaning steps both seam.once seam.bound bare
  have summed : (sumBits d.outputs.length fun mid => contract (d.joined other).vertices (d.joined other).edges
      (pairLegs (d.seam other) mid + rest)) = contract fusedAll.vertices fusedAll.edges rest := by
    rw [← seam_length lengths, fusion]
  rw [entry, openLegs]
  dsimp only
  rw [inputs, inputsKept, Scalar.mul_value product, scalars, scalarKept, ← summed, ← sumBits_mul]
  refine sumBits_congr fun mid _ => ?_
  have split : contract (d.joined other).vertices (d.joined other).edges
      (d.openLegs mid inp + (other.openLegs out mid).map (Prod.map (rename (d.joinNames other)) id)) =
      contract d.vertices d.edges (d.openLegs mid inp) * contract other.vertices other.edges (other.openLegs out mid) :=
    all.meaning left.toSound right.toSound (left.openLegs_live mid inp) (right.openLegs_live out mid)
  rw [shared mid, split, entry, entry]
  ring

theorem tensor_entry (left : d.WellFormed) (right : other.WellFormed) (done : d.tensor other = .ok after)
    (out out' inp inp' : List Bool) (outs : out.length = d.outputs.length) (inps : inp.length = d.inputs.length) :
    after.entry (out ++ out') (inp ++ inp') = d.entry out inp * other.entry out' inp' := by
  obtain ⟨scalar, product, rfl⟩ := (left.tensor_iff right).mp done
  have all := append_appended left.toSound right.toSound d.qubitCount 0
  have shared : (d.inputs ++ other.inputs.map (rename (d.append other d.qubitCount 0).2)).zip (inp ++ inp') ++
      (d.outputs ++ other.outputs.map (rename (d.append other d.qubitCount 0).2)).zip (out ++ out') =
      (d.inputs.zip inp ++ (other.inputs.zip inp').map (Prod.map (rename (d.append other d.qubitCount 0).2) id)) ++
        (d.outputs.zip out ++ (other.outputs.zip out').map (Prod.map (rename (d.append other d.qubitCount 0).2) id)) := by
    rw [List.zip_append inps.symm, List.zip_append outs.symm, zip_renamed, zip_renamed]
  have legs : (↑((d.inputs.zip inp ++ (other.inputs.zip inp').map (Prod.map (rename (d.append other d.qubitCount 0).2) id)) ++
        (d.outputs.zip out ++ (other.outputs.zip out').map (Prod.map (rename (d.append other d.qubitCount 0).2) id))) : Legs) =
      d.openLegs out inp + (other.openLegs out' inp').map (Prod.map (rename (d.append other d.qubitCount 0).2) id) := by
    simp only [openLegs, ← Multiset.coe_add, Multiset.map_add, Multiset.map_coe]
    abel
  rw [entry, openLegs]
  dsimp only
  rw [shared, legs, all.meaning left.toSound right.toSound (left.openLegs_live out inp) (right.openLegs_live out' inp'),
    Scalar.mul_value product, entry, entry]
  ring

theorem compose_matrix (left : d.WellFormed) (right : other.WellFormed) (done : d.compose other = .ok after) (m n : Nat) :
    after.matrix m n = other.matrix m d.outputs.length * d.matrix d.outputs.length n := by
  rw [entry_eq_of_matrix]
  intro out inp
  rw [compose_entry left right done, Matrix.mul_apply, ← sum_ofFn]
  rfl

theorem tensor_matrix (left : d.WellFormed) (right : other.WellFormed) (done : d.tensor other = .ok after) (m n : Nat) :
    after.matrix (d.outputs.length + m) (d.inputs.length + n) =
      (Matrix.kronecker (d.matrix d.outputs.length d.inputs.length) (other.matrix m n)).reindex
        (Fin.appendEquiv d.outputs.length m) (Fin.appendEquiv d.inputs.length n) := by
  rw [entry_eq_of_matrix]
  intro out inp
  obtain ⟨⟨out, out'⟩, rfl⟩ := (Fin.appendEquiv d.outputs.length m).surjective out
  obtain ⟨⟨inp, inp'⟩, rfl⟩ := (Fin.appendEquiv d.inputs.length n).surjective inp
  have rows : List.ofFn (Fin.appendEquiv d.outputs.length m (out, out')) = List.ofFn out ++ List.ofFn out' :=
    List.ofFn_fin_append out out'
  have columns : List.ofFn (Fin.appendEquiv d.inputs.length n (inp, inp')) = List.ofFn inp ++ List.ofFn inp' :=
    List.ofFn_fin_append inp inp'
  rw [rows, columns, tensor_entry left right done _ _ _ _ (by simp) (by simp)]
  simp [Matrix.kronecker, Matrix.kroneckerMap_apply, matrix]

end Diagram

end ToffoliBench

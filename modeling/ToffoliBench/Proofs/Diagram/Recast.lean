import ToffoliBench.Proofs.Diagram.Growth
import ToffoliBench.Proofs.Diagram.WellFormed

namespace ToffoliBench.Diagram
open Outcome

-- Every vertex read as another one, in its place.
def recast (f : Vertex → Vertex) (d : Diagram) : Diagram := { d with vertices := d.vertices.map (Prod.map id f) }

-- Boundaries are read as boundaries and nothing else is, and the place on the drawing stays.
structure Reading (f : Vertex → Vertex) : Prop where
  bound : ∀ x, (f x).kind = .boundary ↔ x.kind = .boundary
  shifted : ∀ x qubits rows, f (x.shifted qubits rows) = (f x).shifted qubits rows
  row : ∀ x, (f x).row = x.row

variable {f : Vertex → Vertex} {d other after : Diagram} {v a b o i : Nat}

theorem recast_self (same : ∀ entry ∈ d.vertices, f entry.2 = entry.2) : d.recast f = d := by
  have all : d.vertices.map (Prod.map id f) = d.vertices.map id :=
    List.map_congr_left fun entry held => congrArg (Prod.mk entry.1) (same entry held)
  rw [recast, all, List.map_id]

theorem recast_id : d.recast id = d := recast_self fun _ _ => rfl

theorem recast_ids : (d.recast f).ids = d.ids := by simp [ids, recast, Function.comp_def]

theorem Reading.boundary (reading : Reading f) : (d.recast f).IsBoundary v ↔ d.IsBoundary v :=
  exists_vertex_map fun entry _ => reading.bound entry.2

theorem Sound.recast (sound : d.Sound) (f : Vertex → Vertex) : (d.recast f).Sound :=
  sound.congr recast_ids rfl rfl rfl

theorem WellFormed.recast (formed : d.WellFormed) (reading : Reading f) : (d.recast f).WellFormed :=
  ⟨formed.toSound.recast f, formed.distinct, fun v => (formed.covered v).trans reading.boundary.symm, formed.single⟩

theorem Grown.recast {new : List (Nat × Vertex)} {es : List Edge} (grown : Grown d after new es) (f : Vertex → Vertex) :
    Grown (d.recast f) (after.recast f) (new.map (Prod.map id f)) es := by
  have vertices : (after.recast f).vertices.Perm ((d.recast f).vertices ++ new.map (Prod.map id f)) :=
    (grown.vertices.map _).trans (.of_eq (List.map_append ..))
  exact ⟨grown.sound.recast f, grown.unfreed, grown.next.trans (by rw [List.length_map]; rfl), vertices, grown.edges, grown.inputs,
    grown.outputs, grown.scalar⟩

theorem insertVertex_map (v : Nat) (x : Vertex) (vs : List (Nat × Vertex)) :
    insertVertex v (f x) (vs.map (Prod.map id f)) = (insertVertex v x vs).map (Prod.map id f) := by
  induction vs with
  | nil => rfl
  | cons entry rest ih =>
    simp only [List.map_cons, insertVertex, Prod.map_fst, id_eq, ih]
    split <;> rfl

theorem recast_add (x : Vertex) : (d.recast f).add (f x) = (d.add x).recast f := by
  simp only [add, recast, fresh, insertVertex_map]
  rfl

theorem recast_contains : (d.recast f).contains v = d.contains v := by
  have same : (d.recast f).contains v = true ↔ d.contains v = true := by rw [contains_iff, contains_iff, recast_ids]
  exact Bool.eq_iff_iff.mpr same

theorem recast_drop : (d.recast f).drop v = (d.drop v).recast f := by
  have kept : (d.vertices.map (Prod.map id f)).filter (fun entry => entry.1 != v) =
      (d.vertices.filter fun entry => entry.1 != v).map (Prod.map id f) := List.filter_map
  unfold drop
  rw [recast_contains]
  split
  · simp only [recast, kept]
  · rfl

theorem recast_addEdge {kind : EdgeKind} (done : d.addEdge a b kind = .ok after) :
    (d.recast f).addEdge a b kind = .ok (after.recast f) := by
  unfold addEdge at done ⊢
  rw [recast_contains, recast_contains]
  split at done
  · cases done
  split at done
  · cases done
  split at done
  · cases done
  rename_i left right different
  rw [if_neg left, if_neg right, if_neg different]
  split at done
  · cases done
  · rename_i apart
    obtain rfl := Except.ok.inj done
    exact if_neg apart

theorem recast_fusePair (done : d.fusePair o i = .ok after) : (d.recast f).fusePair o i = .ok (after.recast f) := by
  obtain ⟨⟨a, k⟩, outer, done⟩ := bind_ok.mp done
  obtain ⟨⟨b, l⟩, inner, done⟩ := bind_ok.mp done
  refine bind_ok.mpr ⟨(a, k), mapError_ok.mpr (mapError_ok.mp outer :), bind_ok.mpr ⟨(b, l), mapError_ok.mpr (mapError_ok.mp inner :), ?_⟩⟩
  rw [recast_drop, recast_drop]
  exact mapError_ok.mpr (recast_addEdge (mapError_ok.mp done))

theorem recast_fusePairs {names : Renaming} {pairs : List (Nat × Nat)} (done : fusePairs names d pairs = .ok after) :
    fusePairs names (d.recast f) pairs = .ok (after.recast f) := by
  induction pairs generalizing d with
  | nil =>
    obtain rfl := Except.ok.inj done
    rfl
  | cons pair rest ih =>
    obtain ⟨j, found, fusing⟩ := bind_ok.mp done
    obtain ⟨middle, step, more⟩ := bind_ok.mp fusing
    exact bind_ok.mpr ⟨j, mapError_ok.mpr (mapError_ok.mp found), bind_ok.mpr ⟨_, recast_fusePair step, ih more⟩⟩

theorem recast_copyEdges {names : Renaming} (es : List Edge) : (d.recast f).copyEdges names es = (d.copyEdges names es).recast f := by
  induction es generalizing d with
  | nil => rfl
  | cons e rest ih =>
    exact ih (d := d.link (rename names e.low) (rename names e.high) e.kind)

namespace Reading

variable (reading : Reading f)
include reading

theorem depth : (d.recast f).depth = d.depth := by
  simp only [Diagram.depth, recast, List.foldl_map, Prod.map_snd, reading.row]

theorem copyVertices {qubits rows : Float} (vs : List (Nat × Vertex)) :
    (d.recast f).copyVertices qubits rows (vs.map (Prod.map id f)) =
      ((d.copyVertices qubits rows vs).1.recast f, (d.copyVertices qubits rows vs).2) := by
  induction vs generalizing d with
  | nil => rfl
  | cons entry rest ih =>
    simp only [List.map_cons, Diagram.copyVertices, Prod.map_fst, Prod.map_snd, id_eq, ← reading.shifted, recast_add, ih]
    rfl

theorem append {qubits rows : Float} : (d.recast f).append (other.recast f) qubits rows =
    ((d.append other qubits rows).1.recast f, (d.append other qubits rows).2) := by
  have copied : (d.recast f).copyVertices qubits rows (other.recast f).vertices = _ := reading.copyVertices other.vertices
  simp only [Diagram.append, copied]
  rw [← recast_copyEdges]
  rfl

theorem compose (done : d.compose other = .ok after) : (d.recast f).compose (other.recast f) = .ok (after.recast f) := by
  have both : (d.recast f).append (other.recast f) 0 d.depth = _ := reading.append
  unfold Diagram.compose at done ⊢
  rw [reading.depth, both]
  split at done
  · cases done
  · rename_i lengths
    obtain ⟨fused, fusing, done⟩ := bind_ok.mp done
    obtain ⟨outs, named, done⟩ := bind_ok.mp (mapError_ok.mp done)
    obtain ⟨scalar, product, done⟩ := bind_ok.mp done
    obtain rfl := pure_ok.mp done
    refine (if_neg lengths).trans ?_
    exact bind_ok.mpr ⟨_, recast_fusePairs (f := f) fusing, mapError_ok.mpr (bind_ok.mpr ⟨outs, named, bind_ok.mpr ⟨scalar, product, rfl⟩⟩)⟩

end Reading

end ToffoliBench.Diagram

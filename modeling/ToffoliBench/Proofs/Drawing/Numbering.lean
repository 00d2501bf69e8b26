import ToffoliBench.Proofs.Diagram.Sound

namespace ToffoliBench.Diagram

variable {d : Diagram} {u v w : Nat}

def number (d : Diagram) (v : Nat) : Nat := d.ids.idxOf v

def renumbered (d : Diagram) (e : Edge) : Edge := ⟨d.number e.low, d.number e.high, e.kind⟩

-- The numbers of some ids tell the ids apart.
theorem number_inj (left : v ∈ d.ids) : d.number v = d.number w ↔ v = w := by
  rw [number, number, List.idxOf_inj left]

theorem Sound.number_lt (sound : d.Sound) (left : v ∈ d.ids) (right : w ∈ d.ids) : d.number v < d.number w ↔ v < w := by
  have forward : ∀ {v w}, v ∈ d.ids → w ∈ d.ids → d.number v < d.number w → v < w := by
    intro v w left right earlier
    have later := List.pairwise_iff_getElem.mp sound.ascending _ _ (List.idxOf_lt_length_of_mem left)
      (List.idxOf_lt_length_of_mem right) earlier
    rwa [List.getElem_idxOf, List.getElem_idxOf] at later
  refine ⟨forward left right, fun less => ?_⟩
  rcases Nat.lt_trichotomy (d.number v) (d.number w) with earlier | same | later
  · exact earlier
  · exact absurd ((number_inj left).mp same) (Nat.ne_of_lt less)
  · exact absurd (forward right left later) (Nat.not_lt_of_gt less)

theorem map_idxOf {l : List Nat} (once : l.Nodup) : l.map l.idxOf = List.range l.length := by
  refine List.ext_getElem (by simp) fun i bound _ => ?_
  have inside : i < l.length := by simpa using bound
  rw [List.getElem_map, List.getElem_range, once.idxOf_getElem _ inside]

theorem Sound.numbers (sound : d.Sound) : d.ids.map d.number = List.range d.vertices.length := by
  have size : d.ids.length = d.vertices.length := List.length_map _
  rw [← size]
  exact map_idxOf sound.nodup

theorem Sound.number_le (sound : d.Sound) (present : v ∈ d.ids) : d.number v ≤ v := by
  have each : ∀ i (inside : i < d.ids.length), i ≤ d.ids[i] := by
    intro i
    induction i with
    | zero => exact fun _ => Nat.zero_le _
    | succ i ih =>
      intro inside
      have before := ih (Nat.lt_of_succ_lt inside)
      have less := List.pairwise_iff_getElem.mp sound.ascending i (i + 1) (Nat.lt_of_succ_lt inside) inside (Nat.lt_succ_self i)
      omega
  have bound := each _ (List.idxOf_lt_length_of_mem present)
  rwa [List.getElem_idxOf] at bound

theorem Sound.renumbered_before (sound : d.Sound) {e f : Edge} (first : e ∈ d.edges) (second : f ∈ d.edges)
    (before : e.before f = true) : (d.renumbered e).before (d.renumbered f) = true := by
  obtain ⟨eLow, eHigh⟩ := sound.live e first
  obtain ⟨fLow, fHigh⟩ := sound.live f second
  rw [Edge.before_iff] at before ⊢
  simp only [renumbered]
  rw [sound.number_lt eLow fLow, number_inj eLow, sound.number_lt eHigh fHigh]
  exact before

-- Edges and vertices that come after all others are put at the end.
theorem insertEdge_last {e : Edge} {es : List Edge} (last : ∀ f ∈ es, f.before e = true) : insertEdge e es = es ++ [e] := by
  induction es with
  | nil => rfl
  | cons f rest ih =>
    obtain ⟨first, others⟩ := List.forall_mem_cons.mp last
    have later : ¬e.before f = true := by
      rw [Edge.before_iff] at first ⊢
      omega
    rw [insertEdge, if_neg later, ih others]
    rfl

theorem insertVertex_last {x : Vertex} {vs : List (Nat × Vertex)} (last : ∀ u ∈ vs.map Prod.fst, u < v) :
    insertVertex v x vs = vs ++ [(v, x)] := by
  induction vs with
  | nil => rfl
  | cons entry rest ih =>
    obtain ⟨first, others⟩ := List.forall_mem_cons.mp last
    rw [insertVertex, if_neg (Nat.not_lt_of_gt first), ih others]
    rfl

-- What is left of a diagram in a drawing: some of its vertices without their markers, and some edges.
def rendered (d : Diagram) (entries : List (Nat × Vertex)) (es : List Edge) : Diagram where
  vertices := entries.map fun entry => (d.number entry.1, { entry.2 with marker := none })
  edges := es.map d.renumbered
  next := entries.length

theorem rendered_ids (d : Diagram) (es : List Edge) : (d.rendered d.vertices es).ids = d.ids.map d.number := by
  simp [rendered, ids]

theorem mem_rendered {es : List Edge} (present : v ∈ d.ids) : d.number v ∈ (d.rendered d.vertices es).ids := by
  rw [rendered_ids]
  exact List.mem_map_of_mem present

theorem Sound.rendered (sound : d.Sound) {es : List Edge} (edges : es.Sublist d.edges) : (d.rendered d.vertices es).Sound := by
  have range : (d.rendered d.vertices es).ids = List.range d.vertices.length := (rendered_ids d es).trans sound.numbers
  constructor
  · rw [range]
    exact List.pairwise_lt_range
  · rw [Diagram.rendered, List.pairwise_map]
    have sorted := sound.sorted.sublist edges
    refine List.Pairwise.imp_of_mem (fun first second before => ?_) sorted
    exact sound.renumbered_before (edges.subset first) (edges.subset second) before
  · intro f listed
    obtain ⟨e, present, rfl⟩ := List.mem_map.mp listed
    obtain ⟨low, high⟩ := sound.live e (edges.subset present)
    exact (sound.number_lt low high).mpr (sound.ordered e (edges.subset present))
  · intro f listed
    obtain ⟨e, present, rfl⟩ := List.mem_map.mp listed
    obtain ⟨low, high⟩ := sound.live e (edges.subset present)
    exact ⟨mem_rendered low, mem_rendered high⟩
  · intro v present
    rw [range] at present
    exact List.mem_range.mp present
  · nofun
  · exact List.nodup_nil

end ToffoliBench.Diagram

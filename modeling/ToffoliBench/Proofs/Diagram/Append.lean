import Mathlib.Data.List.Nodup
import ToffoliBench.Diagram.Compose
import ToffoliBench.Proofs.Diagram.Sound
import ToffoliBench.Proofs.Outcome

namespace ToffoliBench

def Edge.moved (f : Nat → Nat) (e : Edge) : Edge := .between (f e.low) (f e.high) e.kind

namespace Diagram

variable {d other : Diagram} {names : Renaming} {qubits rows : Float}

def moveVertex (names : Renaming) (qubits rows : Float) (entry : Nat × Vertex) : Nat × Vertex :=
  (rename names entry.1, entry.2.shifted qubits rows)

theorem rename_cons_self (v w : Nat) : rename ((v, w) :: names) v = w := by
  simp [rename]

theorem rename_cons_ne {u v w : Nat} (different : u ≠ v) : rename ((v, w) :: names) u = rename names u := by
  have unequal : (u == v) = false := by simpa using different
  simp [rename, List.lookup_cons, unequal]

-- Only these parts change while vertices are copied.
structure VerticesCopied (d copied : Diagram) (names : Renaming) (qubits rows : Float) (entries : List (Nat × Vertex)) : Prop where
  sound : copied.Sound
  named : names.map (·.1) = entries.map (·.1)
  vertices : copied.vertices.Perm (d.vertices ++ entries.map (moveVertex names qubits rows))
  edges : copied.edges = d.edges
  inputs : copied.inputs = d.inputs
  outputs : copied.outputs = d.outputs
  scalar : copied.scalar = d.scalar

theorem copyVertices_copied (sound : d.Sound) (qubits rows : Float) {entries : List (Nat × Vertex)}
    (once : (entries.map (·.1)).Nodup) :
    VerticesCopied d (d.copyVertices qubits rows entries).1 (d.copyVertices qubits rows entries).2 qubits rows entries := by
  induction entries generalizing d with
  | nil => exact ⟨sound, rfl, by simp [copyVertices], rfl, rfl, rfl, rfl⟩
  | cons entry rest ih =>
    obtain ⟨v, x⟩ := entry
    obtain ⟨new, others⟩ := List.nodup_cons.mp once
    have copied := ih (sound.add (x.shifted qubits rows)) others
    simp only [copyVertices]
    generalize (d.add (x.shifted qubits rows)).copyVertices qubits rows rest = result at copied
    obtain ⟨after, names⟩ := result
    refine ⟨copied.sound, by simp [copied.named], ?_, copied.edges, copied.inputs, copied.outputs, copied.scalar⟩
    have moved : rest.map (moveVertex ((v, d.fresh) :: names) qubits rows) = rest.map (moveVertex names qubits rows) := by
      refine List.map_congr_left fun entry present => ?_
      have different : entry.1 ≠ v := by
        rintro rfl
        exact new (List.mem_map.mpr ⟨entry, present, rfl⟩)
      simp only [moveVertex, rename_cons_ne different]
    rw [List.map_cons, moved, moveVertex, rename_cons_self]
    calc after.vertices.Perm _ := copied.vertices
      List.Perm _ ((d.fresh, x.shifted qubits rows) :: d.vertices ++ rest.map (moveVertex names qubits rows)) :=
        (add_vertices d _).append_right _
      List.Perm _ (d.vertices ++ (d.fresh, x.shifted qubits rows) :: rest.map (moveVertex names qubits rows)) :=
        List.perm_middle.symm

-- Wires may be copied one after the other when their new ends are live and no two of them, and no
-- old wire, have the same ends.
theorem copyEdges_copied (sound : d.Sound) (names : Renaming) (es : List Edge)
    (live : ∀ e ∈ es, rename names e.low ∈ d.ids ∧ rename names e.high ∈ d.ids ∧ rename names e.low ≠ rename names e.high)
    (new : ∀ e ∈ es, ¬d.Adjacent (rename names e.low) (rename names e.high))
    (apart : es.Pairwise fun e f => ¬(e.moved (rename names)).Ends (rename names f.low) (rename names f.high)) :
    (d.copyEdges names es).Sound ∧ (d.copyEdges names es).edges.Perm (d.edges ++ es.map (·.moved (rename names))) ∧
      (d.copyEdges names es).vertices = d.vertices ∧ (d.copyEdges names es).inputs = d.inputs ∧
      (d.copyEdges names es).outputs = d.outputs ∧ (d.copyEdges names es).scalar = d.scalar := by
  induction es generalizing d with
  | nil => exact ⟨sound, by simp [copyEdges], rfl, rfl, rfl, rfl⟩
  | cons e rest ih =>
    obtain ⟨first, others⟩ := List.pairwise_cons.mp apart
    obtain ⟨left, right, different⟩ := live e List.mem_cons_self
    have linked := sound.link left right different (new e List.mem_cons_self) e.kind
    have stillNew : ∀ f ∈ rest, ¬(d.link (rename names e.low) (rename names e.high) e.kind).Adjacent
        (rename names f.low) (rename names f.high) := by
      rintro f present ⟨g, held, ends⟩
      rcases List.mem_cons.mp ((link_edges ..).mem_iff.mp held) with rfl | old
      · exact first f present ends
      · exact new f (List.mem_cons_of_mem _ present) ⟨g, old, ends⟩
    obtain ⟨after, edges, kept⟩ := ih linked (fun f present => live f (List.mem_cons_of_mem _ present)) stillNew others
    refine ⟨after, ?_, kept⟩
    calc (d.copyEdges names (e :: rest)).edges.Perm _ := edges
      List.Perm _ (e.moved (rename names) :: d.edges ++ rest.map (·.moved (rename names))) :=
        (link_edges ..).append_right _
      List.Perm _ (d.edges ++ (e :: rest).map (·.moved (rename names))) := List.perm_middle.symm

structure Appended (d other both : Diagram) (names : Renaming) (qubits rows : Float) : Prop where
  sound : both.Sound
  named : names.map (·.1) = other.ids
  vertices : both.vertices.Perm (d.vertices ++ other.vertices.map (moveVertex names qubits rows))
  edges : both.edges.Perm (d.edges ++ other.edges.map (·.moved (rename names)))
  inputs : both.inputs = d.inputs
  outputs : both.outputs = d.outputs
  scalar : both.scalar = d.scalar

theorem moved_ids (names : Renaming) (qubits rows : Float) (entries : List (Nat × Vertex)) :
    (entries.map (moveVertex names qubits rows)).map (·.1) = (entries.map (·.1)).map (rename names) := by
  simp [moveVertex, Function.comp_def]

theorem VerticesCopied.ids {copied : Diagram} {entries : List (Nat × Vertex)}
    (all : VerticesCopied d copied names qubits rows entries) :
    copied.ids.Perm (d.ids ++ (entries.map (·.1)).map (rename names)) := by
  have same := all.vertices.map Prod.fst
  rwa [List.map_append, moved_ids] at same

theorem append_appended (sound : d.Sound) (otherSound : other.Sound) (qubits rows : Float) :
    Appended d other (d.append other qubits rows).1 (d.append other qubits rows).2 qubits rows := by
  have copied := copyVertices_copied sound qubits rows otherSound.nodup
  simp only [append]
  generalize d.copyVertices qubits rows other.vertices = result at copied
  obtain ⟨after, names⟩ := result
  dsimp only at copied ⊢
  have ids := copied.ids
  have once : (d.ids ++ other.ids.map (rename names)).Nodup := ids.nodup_iff.mp copied.sound.nodup
  have injective : ∀ u ∈ other.ids, ∀ v ∈ other.ids, rename names u = rename names v → u = v :=
    fun u left v right same => List.inj_on_of_nodup_map once.of_append_right left right same
  have live : ∀ u ∈ other.ids, rename names u ∈ after.ids ∧ rename names u ∉ d.ids := fun u present =>
    have moved := List.mem_map_of_mem (f := rename names) present
    ⟨ids.mem_iff.mpr (List.mem_append_right _ moved), fun old => (List.disjoint_of_nodup_append once) old moved⟩
  have old : ∀ u v, after.Adjacent u v → u ∈ d.ids := by
    rintro u v ⟨e, present, ends⟩
    rw [copied.edges] at present
    exact (sound.adjacent_live ⟨e, present, ends⟩).1
  obtain ⟨linked, edges, vertices, inputs, outputs, scalar⟩ := copyEdges_copied copied.sound names other.edges
    (fun e present => ⟨(live _ (otherSound.live e present).1).1, (live _ (otherSound.live e present).2).1, fun same =>
      Nat.ne_of_lt (otherSound.ordered e present) (injective _ (otherSound.live e present).1 _ (otherSound.live e present).2 same)⟩)
    (fun e present adjacent => (live _ (otherSound.live e present).1).2 (old _ _ adjacent))
    (otherSound.sorted.imp_of_mem fun {e f} left right earlier ends => by
      have orderLeft := otherSound.ordered e left
      have orderRight := otherSound.ordered f right
      obtain ⟨lowLeft, highLeft⟩ := otherSound.live e left
      obtain ⟨lowRight, highRight⟩ := otherSound.live f right
      rw [Edge.before_iff] at earlier
      rcases Edge.between_ends_iff.mp ends with ⟨low, high⟩ | ⟨low, high⟩
      · have sameLow := injective _ lowLeft _ lowRight low
        have sameHigh := injective _ highLeft _ highRight high
        omega
      · have crossLow := injective _ lowLeft _ highRight low
        have crossHigh := injective _ highLeft _ lowRight high
        omega)
  refine ⟨linked, copied.named, ?_, ?_, inputs.trans copied.inputs, outputs.trans copied.outputs, scalar.trans copied.scalar⟩
  · rw [vertices]; exact copied.vertices
  · rw [← copied.edges]; exact edges

namespace Appended

variable {both : Diagram}

theorem ids (all : Appended d other both names qubits rows) : both.ids.Perm (d.ids ++ other.ids.map (rename names)) := by
  have same := all.vertices.map Prod.fst
  rwa [List.map_append, moved_ids] at same

theorem once (all : Appended d other both names qubits rows) : (d.ids ++ other.ids.map (rename names)).Nodup :=
  all.ids.nodup_iff.mp all.sound.nodup

theorem injective (all : Appended d other both names qubits rows) {u v : Nat} (left : u ∈ other.ids) (right : v ∈ other.ids)
    (same : rename names u = rename names v) : u = v :=
  List.inj_on_of_nodup_map all.once.of_append_right left right same

theorem new (all : Appended d other both names qubits rows) {v : Nat} (present : v ∈ other.ids) : rename names v ∉ d.ids :=
  fun old => (List.disjoint_of_nodup_append all.once) old (List.mem_map_of_mem present)

theorem renamed_ok (all : Appended d other both names qubits rows) {v : Nat} (present : v ∈ other.ids) :
    renamed names v = .ok (rename names v) := by
  have held : v ∈ names.map (·.1) := all.named ▸ present
  obtain ⟨entry, member, rfl⟩ := List.mem_map.mp held
  have found : (names.lookup entry.1).isSome := by
    rw [List.lookup_isSome_iff]
    exact ⟨entry, member, by simp⟩
  obtain ⟨w, at_⟩ := Option.isSome_iff_exists.mp found
  simp [renamed, rename, at_]

theorem mapM_renamed (all : Appended d other both names qubits rows) {vs : List Nat} (present : ∀ v ∈ vs, v ∈ other.ids) :
    vs.mapM (renamed names) = .ok (vs.map (rename names)) := by
  induction vs with
  | nil => rfl
  | cons v rest ih =>
    have tail := ih fun w member => present w (List.mem_cons_of_mem _ member)
    rw [List.mapM_cons, all.renamed_ok (present v List.mem_cons_self), tail]
    rfl

end Appended

end Diagram

end ToffoliBench

import ToffoliBench.Proofs.Diagram.Reached

namespace ToffoliBench.Diagram

structure DisjointUnion (d other both : Diagram) (names : Renaming) (qubits rows : Float) : Prop where
  keys : names.map Prod.fst = other.ids
  defined : ∀ v, (∃ w, names.lookup v = some w) ↔ v ∈ other.ids
  injective : ∀ u v w, names.lookup u = some w → names.lookup v = some w → u = v
  new : ∀ v w, names.lookup v = some w → w ∉ d.ids
  simple : both.Simple
  ids : ∀ w, w ∈ both.ids ↔ w ∈ d.ids ∨ ∃ v, names.lookup v = some w
  kept : ∀ v ∈ d.ids, both.vertex? v = d.vertex? v
  -- kind, phase and marker are those of the original
  moved : ∀ v w, names.lookup v = some w → ∃ x, other.vertex? v = some x ∧
    both.vertex? w = some { x with qubit := x.qubit + qubits, row := x.row + rows }
  keptWires : ∀ a ∈ d.ids, ∀ b ∈ d.ids, both.edgeKind? a b = d.edgeKind? a b
  movedWires : ∀ a b v w, names.lookup a = some v → names.lookup b = some w → both.edgeKind? v w = other.edgeKind? a b
  apart : ∀ a ∈ d.ids, ∀ b w, names.lookup b = some w → both.edgeKind? a w = none
  inputs : both.inputs = d.inputs
  outputs : both.outputs = d.outputs
  scalar : both.scalar = d.scalar

variable {d other both : Diagram} {names : Renaming} {qubits rows : Float} {a b v w : Nat}

theorem lookup_rename (found : names.lookup v = some w) : rename names v = w := by
  rw [rename, found, Option.getD_some]

theorem edgeKind_none (sound : d.Sound) (unmet : ¬d.Adjacent a b) : d.edgeKind? a b = none := by
  refine Option.eq_none_iff_forall_ne_some.mpr fun kind found => ?_
  obtain ⟨e, held, ends, -⟩ := sound.edgeKind_iff.mp found
  exact unmet ⟨e, held, ends⟩

namespace Appended

section

variable (all : Appended d other both names qubits rows)
include all

theorem lookup_iff : names.lookup v = some w ↔ v ∈ other.ids ∧ rename names v = w := by
  constructor
  · intro found
    obtain ⟨before, behind, shape, -⟩ := List.lookup_eq_some_iff.mp found
    refine ⟨?_, lookup_rename found⟩
    rw [← all.named, shape]
    simp
  · rintro ⟨held, rfl⟩
    have done := all.renamed_ok held
    unfold renamed at done
    split at done
    · rename_i found
      rw [found, Except.ok.inj done]
    · cases done

theorem vertex_kept (sound : d.Sound) (held : v ∈ d.ids) : both.vertex? v = d.vertex? v := by
  obtain ⟨x, found, -⟩ := vertex_found sound held
  rw [found]
  refine (vertex_iff all.sound.nodup).mpr (all.vertices.mem_iff.mpr (List.mem_append_left _ ?_))
  exact (vertex_iff sound.nodup).mp found

theorem vertex_moved (otherSound : other.Sound) (held : v ∈ other.ids) :
    ∃ x, other.vertex? v = some x ∧ both.vertex? (rename names v) = some (x.shifted qubits rows) := by
  obtain ⟨x, found, -⟩ := vertex_found otherSound held
  refine ⟨x, found, (vertex_iff all.sound.nodup).mpr (all.vertices.mem_iff.mpr (List.mem_append_right _ ?_))⟩
  exact List.mem_map.mpr ⟨(v, x), (vertex_iff otherSound.nodup).mp found, rfl⟩

-- A wire from an old vertex is an old wire.
theorem edge_kept (otherSound : other.Sound) {e : Edge} (held : e ∈ both.edges) (old : a ∈ d.ids) (ends : e.Ends a b) : e ∈ d.edges := by
  rcases List.mem_append.mp (all.edges.mem_iff.mp held) with kept | moved
  · exact kept
  · obtain ⟨f, origin, rfl⟩ := List.mem_map.mp moved
    obtain ⟨low, high⟩ := otherSound.live f origin
    rcases Edge.between_ends_iff.mp ends with ⟨rfl, -⟩ | ⟨-, rfl⟩
    · exact absurd old (all.new low)
    · exact absurd old (all.new high)

theorem edgeKind_kept (sound : d.Sound) (otherSound : other.Sound) (old : a ∈ d.ids) : both.edgeKind? a b = d.edgeKind? a b := by
  refine Option.ext fun kind => ?_
  rw [all.sound.edgeKind_iff, sound.edgeKind_iff]
  constructor
  · rintro ⟨e, held, ends, same⟩
    exact ⟨e, all.edge_kept otherSound held old ends, ends, same⟩
  · rintro ⟨e, held, ends, same⟩
    exact ⟨e, all.edges.mem_iff.mpr (List.mem_append_left _ held), ends, same⟩

theorem edgeKind_moved (sound : d.Sound) (otherSound : other.Sound) (left : a ∈ other.ids) (right : b ∈ other.ids) :
    both.edgeKind? (rename names a) (rename names b) = other.edgeKind? a b := by
  refine Option.ext fun kind => ?_
  rw [all.sound.edgeKind_iff, otherSound.edgeKind_iff]
  constructor
  · rintro ⟨e, held, ends, same⟩
    rcases List.mem_append.mp (all.edges.mem_iff.mp held) with kept | moved
    · exact absurd (sound.adjacent_live ⟨e, kept, ends⟩).1 (all.new left)
    · obtain ⟨f, origin, rfl⟩ := List.mem_map.mp moved
      obtain ⟨low, high⟩ := otherSound.live f origin
      refine ⟨f, origin, (Edge.between_ends_iff.mp ends).imp ?_ ?_, same⟩
      · rintro ⟨first, second⟩
        exact ⟨all.injective low left first, all.injective high right second⟩
      · rintro ⟨first, second⟩
        exact ⟨all.injective low right first, all.injective high left second⟩
  · rintro ⟨f, origin, ends, same⟩
    refine ⟨f.moved (rename names), all.edges.mem_iff.mpr (List.mem_append_right _ (List.mem_map_of_mem origin)), ?_, same⟩
    refine Edge.between_ends_iff.mpr (ends.imp ?_ ?_)
    · rintro ⟨rfl, rfl⟩
      exact ⟨rfl, rfl⟩
    · rintro ⟨rfl, rfl⟩
      exact ⟨rfl, rfl⟩

end

end Appended

-- Ids that a removal has freed are used again, and still nothing of the two diagrams meets.
theorem append_disjoint (sound : d.Sound) (otherSound : other.Sound) (qubits rows : Float) :
    DisjointUnion d other (d.append other qubits rows).1 (d.append other qubits rows).2 qubits rows := by
  have all := append_appended sound otherSound qubits rows
  generalize (d.append other qubits rows).1 = both at all ⊢
  generalize (d.append other qubits rows).2 = names at all ⊢
  have image : ∀ {v w}, names.lookup v = some w → v ∈ other.ids ∧ rename names v = w := all.lookup_iff.mp
  constructor
  case keys => exact all.named
  case defined =>
    intro v
    constructor
    · rintro ⟨w, found⟩
      exact (image found).1
    · intro held
      exact ⟨_, all.lookup_iff.mpr ⟨held, rfl⟩⟩
  case injective =>
    intro u v w left right
    exact all.injective (image left).1 (image right).1 ((image left).2.trans (image right).2.symm)
  case new =>
    intro v w found
    obtain ⟨held, rfl⟩ := image found
    exact all.new held
  case simple => exact all.sound.simple
  case ids =>
    intro w
    rw [all.ids.mem_iff, List.mem_append, List.mem_map]
    simp only [all.lookup_iff]
  case kept => exact fun v held => all.vertex_kept sound held
  case moved =>
    intro v w found
    obtain ⟨held, rfl⟩ := image found
    exact all.vertex_moved otherSound held
  case keptWires => exact fun a old b _ => all.edgeKind_kept sound otherSound old
  case movedWires =>
    intro a b v w left right
    obtain ⟨first, rfl⟩ := image left
    obtain ⟨second, rfl⟩ := image right
    exact all.edgeKind_moved sound otherSound first second
  case apart =>
    intro a old b w found
    obtain ⟨held, rfl⟩ := image found
    rw [all.edgeKind_kept sound otherSound old]
    exact edgeKind_none sound fun near => all.new held (sound.adjacent_live near).2
  case inputs => exact all.inputs
  case outputs => exact all.outputs
  case scalar => exact all.scalar

-- Three wires without the second one, and two without the first end of the first.
def pierced : Diagram := ((identity 3).drop 2).drop 3

def frayed : Diagram := (identity 2).drop 0

theorem append_disjoint_pierced : pierced.Sound ∧ frayed.Sound ∧ pierced.ids = [0, 1, 4, 5] ∧ frayed.ids = [1, 2, 3] ∧
    (pierced.append frayed 2 0.5).2 = [(1, 3), (2, 2), (3, 6)] ∧
    DisjointUnion pierced frayed (pierced.append frayed 2 0.5).1 (pierced.append frayed 2 0.5).2 2 0.5 := by
  have left : pierced.Sound := ((identity_sound 3).drop 2).drop 3
  have right : frayed.Sound := (identity_sound 2).drop 0
  exact ⟨left, right, rfl, rfl, rfl, append_disjoint left right 2 0.5⟩

end ToffoliBench.Diagram

import Mathlib.Data.List.Nodup
import ToffoliBench.Diagram.Compose
import ToffoliBench.Proofs.Diagram.Sound
import ToffoliBench.Proofs.Diagram.Wiring
import ToffoliBench.Proofs.Outcome

namespace ToffoliBench.Diagram
open Outcome

variable {d after : Diagram} {es : List Edge} {o i a b v w : Nat} {k l : EdgeKind}

theorem neighbors_eq (d : Diagram) (v : Nat) : d.neighbors v = (d.incident v).map Prod.fst := by
  rw [neighbors, incident, List.map_filterMap]
  simp [Function.comp_def]

theorem Sound.mem_neighbors (sound : d.Sound) : w ∈ d.neighbors v ↔ d.Adjacent v w := by
  simp only [neighbors, List.mem_filterMap, Adjacent]
  constructor
  · rintro ⟨e, present, far⟩
    exact ⟨e, present, (Edge.other_iff (sound.ordered e present)).mp far⟩
  · rintro ⟨e, present, ends⟩
    exact ⟨e, present, (Edge.other_iff (sound.ordered e present)).mpr ends⟩

theorem Sound.neighbors_nodup (sound : d.Sound) (v : Nat) : (d.neighbors v).Nodup := by
  refine List.pairwise_filterMap.mpr (sound.sorted.imp_of_mem fun {e f} left right earlier w one u two same => ?_)
  have ends := (Edge.other_iff (sound.ordered e left)).mp one
  have ends' := (Edge.other_iff (sound.ordered f right)).mp two
  have order := sound.ordered e left
  have order' := sound.ordered f right
  rw [Edge.before_iff] at earlier
  simp only [Edge.Ends] at ends ends'
  omega

-- All the wires at a vertex, and those that are not.
theorem wires_at (ordered : ∀ e ∈ es, e.low < e.high) (v : Nat) :
    es.Perm ((es.filterMap fun e => (e.other? v).map fun w => (w, e.kind)).map (fun near => .between v near.1 near.2) ++
      es.filter fun e => !e.touches v) := by
  induction es with
  | nil => exact .refl _
  | cons e rest ih =>
    have tail := ih fun f present => ordered f (List.mem_cons_of_mem _ present)
    cases far : e.other? v with
    | none =>
      have away : (!e.touches v) = true := by simpa using Edge.other_none.mp far
      rw [List.filterMap_cons_none (by rw [far]; rfl), List.filter_cons, if_pos away]
      exact (tail.cons e).trans List.perm_middle.symm
    | some w =>
      have ends := (Edge.other_iff (ordered e List.mem_cons_self)).mp far
      have near : ¬(!e.touches v) = true := by simp [ends.touches]
      rw [List.filterMap_cons_some (by rw [far]; rfl), List.filter_cons, if_neg near, List.map_cons, List.cons_append,
        ← Edge.eq_between (ordered e List.mem_cons_self) ends]
      exact tail.cons e

theorem lone_wire (ordered : ∀ e ∈ es, e.low < e.high)
    (only : (es.filterMap fun e => (e.other? v).map fun u => (u, e.kind)) = [(w, k)]) :
    es.Perm (.between v w k :: es.filter fun e => !e.touches v) := by
  have all := wires_at ordered v
  rwa [only] at all

-- Dropping a vertex takes it out of the other neighbourhoods and does nothing else to them.
theorem Sound.drop_incident (sound : d.Sound) (different : v ≠ o) :
    (d.drop o).incident v = (d.incident v).filter fun near => near.1 != o := by
  have ordered := sound.ordered
  rw [incident, incident, sound.drop_edges o]
  generalize d.edges = es at ordered
  induction es with
  | nil => rfl
  | cons e rest ih =>
    have tail := ih fun f present => ordered f (List.mem_cons_of_mem _ present)
    have order := ordered e List.mem_cons_self
    cases far : e.other? v with
    | none =>
      rw [List.filterMap_cons_none (by rw [far]; rfl), ← tail, List.filter_cons]
      split
      · rw [List.filterMap_cons_none (by rw [far]; rfl)]
      · rfl
    | some u =>
      have ends := (Edge.other_iff order).mp far
      have same : (!e.touches o) = (u != o) := by
        have hit : e.touches o = true ↔ u = o := by
          rw [Edge.touches_iff]
          simp only [Edge.Ends] at ends
          omega
        by_cases equal : u = o
        · simp [hit.mpr equal, equal]
        · have miss : e.touches o = false := by simpa using fun touched => equal (hit.mp touched)
          simp [miss, equal]
      rw [List.filterMap_cons_some (by rw [far]; rfl), List.filter_cons, List.filter_cons]
      dsimp only
      rw [same, ← tail]
      split
      · rw [List.filterMap_cons_some (by rw [far]; rfl)]
      · rfl

theorem addEdge_ok {kind : EdgeKind} (sound : d.Sound) : d.addEdge a b kind = .ok after ↔
    a ∈ d.ids ∧ b ∈ d.ids ∧ a ≠ b ∧ ¬d.Adjacent a b ∧ after = d.link a b kind := by
  have joined := sound.connected_iff (a := a) (b := b)
  have left := contains_iff (d := d) (v := a)
  have right := contains_iff (d := d) (v := b)
  unfold addEdge
  by_cases one : a ∈ d.ids
  · by_cases two : b ∈ d.ids
    · by_cases same : a = b
      · simp [two, same, right.mpr two]
      · by_cases near : d.Adjacent a b
        · simp [left.mpr one, right.mpr two, same, near, joined.mpr near]
        · have apart : d.connected a b = false := by simpa using fun met => near (joined.mp met)
          simp [one, two, left.mpr one, right.mpr two, same, near, apart, eq_comm]
    · have absent : d.contains b = false := by simpa using fun met => two (right.mp met)
      simp [two, left.mpr one, absent]
  · have absent : d.contains a = false := by simpa using fun met => one (left.mp met)
    simp [one, absent]

theorem soleNeighbor_ok : d.soleNeighbor v = .ok (w, k) ↔ d.incident v = [(w, k)] := by
  unfold soleNeighbor
  split
  · rename_i single found
    simp [found]
  · rename_i other
    simp only [reduceCtorEq, false_iff]
    exact fun found => other _ found

-- The far ends are neither fused vertex, are not the same and have no wire between them yet.
structure Fusable (d : Diagram) (o i a b : Nat) (k l : EdgeKind) : Prop where
  outer : d.incident o = [(a, k)]
  inner : d.incident i = [(b, l)]
  left : a ≠ o ∧ a ≠ i
  right : b ≠ o ∧ b ≠ i
  different : a ≠ b
  new : ¬d.Adjacent a b

def fused (d : Diagram) (o i a b : Nat) (kind : EdgeKind) : Diagram := ((d.drop o).drop i).link a b kind

theorem Sound.incident_adjacent (sound : d.Sound) (only : d.incident v = [(w, k)]) : d.Adjacent v w := by
  obtain ⟨e, present, ends, _⟩ := sound.mem_incident.mp (only ▸ List.mem_singleton_self (w, k))
  exact ⟨e, present, ends⟩

theorem Sound.drop_adjacent (sound : d.Sound) (v : Nat) :
    (d.drop v).Adjacent a b ↔ d.Adjacent a b ∧ a ≠ v ∧ b ≠ v := by
  simp only [Adjacent, sound.drop_edges, List.mem_filter]
  constructor
  · rintro ⟨e, ⟨present, kept⟩, ends⟩
    have apart : ¬e.touches v = true := by simpa using kept
    rw [Edge.touches_iff] at apart
    refine ⟨⟨e, present, ends⟩, ?_⟩
    simp only [Edge.Ends] at ends
    omega
  · rintro ⟨⟨e, present, ends⟩, left, right⟩
    have apart : ¬e.touches v = true := by
      rw [Edge.touches_iff]
      simp only [Edge.Ends] at ends
      omega
    exact ⟨e, ⟨present, by simpa using apart⟩, ends⟩

theorem link_adjacent {kind : EdgeKind} : (d.link a b kind).Adjacent v w ↔
    d.Adjacent v w ∨ (a = v ∧ b = w) ∨ (a = w ∧ b = v) := by
  constructor
  · rintro ⟨e, present, ends⟩
    rcases List.mem_cons.mp ((link_edges ..).mem_iff.mp present) with rfl | old
    · exact .inr (Edge.between_ends_iff.mp ends)
    · exact .inl ⟨e, old, ends⟩
  · rintro (⟨e, old, ends⟩ | ends)
    · exact ⟨e, (link_edges ..).mem_iff.mpr (List.mem_cons_of_mem _ old), ends⟩
    · exact ⟨_, (link_edges ..).mem_iff.mpr List.mem_cons_self, Edge.between_ends_iff.mpr ends⟩

theorem Sound.fusePair_ok (sound : d.Sound) :
    d.fusePair o i = .ok after ↔ ∃ a b k l, Fusable d o i a b k l ∧ after = d.fused o i a b (k.merge l) := by
  have opened := (sound.drop o).drop i
  have meets : ∀ a b, ((d.drop o).drop i).Adjacent a b ↔ (d.Adjacent a b ∧ a ≠ o ∧ b ≠ o) ∧ a ≠ i ∧ b ≠ i := fun a b => by
    rw [(sound.drop o).drop_adjacent, sound.drop_adjacent]
  have stays : ∀ u, u ∈ ((d.drop o).drop i).ids ↔ (u ∈ d.ids ∧ u ≠ o) ∧ u ≠ i := fun u => by
    simp only [drop_ids, List.mem_filter, bne_iff_ne]
  constructor
  · intro done
    obtain ⟨⟨a, k⟩, outer, done⟩ := bind_ok.mp done
    obtain ⟨⟨b, l⟩, inner, done⟩ := bind_ok.mp done
    obtain ⟨left, right, different, new, rfl⟩ := (addEdge_ok opened).mp (mapError_ok.mp done)
    have outer := soleNeighbor_ok.mp (mapError_ok.mp outer)
    have inner := soleNeighbor_ok.mp (mapError_ok.mp inner)
    obtain ⟨⟨_, leftOuter⟩, leftInner⟩ := (stays a).mp left
    obtain ⟨⟨_, rightOuter⟩, rightInner⟩ := (stays b).mp right
    refine ⟨a, b, k, l, ⟨outer, inner, ⟨leftOuter, leftInner⟩, ⟨rightOuter, rightInner⟩, different, ?_⟩, rfl⟩
    exact fun near => new ((meets a b).mpr ⟨⟨near, leftOuter, rightOuter⟩, leftInner, rightInner⟩)
  · rintro ⟨a, b, k, l, fusable, rfl⟩
    have leftLive := (sound.adjacent_live (sound.incident_adjacent fusable.outer)).2
    have rightLive := (sound.adjacent_live (sound.incident_adjacent fusable.inner)).2
    refine bind_ok.mpr ⟨(a, k), mapError_ok.mpr (soleNeighbor_ok.mpr fusable.outer), ?_⟩
    refine bind_ok.mpr ⟨(b, l), mapError_ok.mpr (soleNeighbor_ok.mpr fusable.inner), ?_⟩
    refine mapError_ok.mpr ((addEdge_ok opened).mpr ⟨?_, ?_, fusable.different, ?_, rfl⟩)
    · exact (stays a).mpr ⟨⟨leftLive, fusable.left.1⟩, fusable.left.2⟩
    · exact (stays b).mpr ⟨⟨rightLive, fusable.right.1⟩, fusable.right.2⟩
    · exact fun near => fusable.new ((meets a b).mp near).1.1

theorem fused_edges {kind : EdgeKind} : (d.fused o i a b kind).edges.Perm (.between a b kind :: ((d.drop o).drop i).edges) :=
  link_edges ..

theorem IsBoundary.fused {v : Nat} {kind : EdgeKind} (held : d.IsBoundary v) (outer : v ≠ o) (inner : v ≠ i) :
    (d.fused o i a b kind).IsBoundary v := by
  obtain ⟨x, present, bound⟩ := held
  exact ⟨x, mem_drop_vertices.mpr ⟨mem_drop_vertices.mpr ⟨present, outer⟩, inner⟩, bound⟩

theorem Sound.fused_adjacent (sound : d.Sound) {kind : EdgeKind} : (d.fused o i a b kind).Adjacent v w ↔
    (d.Adjacent v w ∧ v ≠ o ∧ w ≠ o ∧ v ≠ i ∧ w ≠ i) ∨ (a = v ∧ b = w) ∨ (a = w ∧ b = v) := by
  rw [fused, link_adjacent, (sound.drop o).drop_adjacent, sound.drop_adjacent]
  simp only [and_assoc]

namespace Fusable

variable (fusable : Fusable d o i a b k l)
include fusable

theorem apart : o ≠ i := by
  rintro rfl
  have same := fusable.outer.symm.trans fusable.inner
  simp only [List.cons.injEq, Prod.mk.injEq, and_true] at same
  exact fusable.different same.1

theorem innerLeft (sound : d.Sound) : (d.drop o).incident i = [(b, l)] := by
  rw [sound.drop_incident fusable.apart.symm, fusable.inner]
  simp [fusable.right.1]

-- The two wires that go, and all that stay.
theorem edges (sound : d.Sound) :
    d.edges.Perm (.between o a k :: .between i b l :: ((d.drop o).drop i).edges) := by
  have first := lone_wire sound.ordered fusable.outer
  rw [← sound.drop_edges o] at first
  have dropped := sound.drop o
  have second := lone_wire dropped.ordered (fusable.innerLeft sound)
  rw [← dropped.drop_edges i] at second
  exact first.trans (second.cons _)

theorem fused_sound (sound : d.Sound) : (d.fused o i a b (k.merge l)).Sound := by
  have done := sound.fusePair_ok.mpr ⟨a, b, k, l, fusable, rfl⟩
  obtain ⟨⟨a', k'⟩, _, done⟩ := bind_ok.mp done
  obtain ⟨⟨b', l'⟩, _, done⟩ := bind_ok.mp done
  have opened := (sound.drop o).drop i
  obtain ⟨left, right, different, new, same⟩ := (addEdge_ok opened).mp (mapError_ok.mp done)
  rw [same]
  exact opened.link left right different new _

end Fusable

-- Pair after pair, each in the diagram that the pairs before it left.
inductive Fusions : Diagram → List (Nat × Nat) → Diagram → Prop where
  | nil {d : Diagram} : Fusions d [] d
  | cons {d middle after : Diagram} {o i : Nat} {rest : List (Nat × Nat)} :
      d.fusePair o i = .ok middle → Fusions middle rest after → Fusions d ((o, i) :: rest) after

theorem fusePairs_exact {names : Renaming} {pairs : List (Nat × Nat)}
    (known : ∀ pair ∈ pairs, renamed names pair.2 = .ok (rename names pair.2)) :
    fusePairs names d pairs = .ok after ↔ Fusions d (pairs.map fun pair => (pair.1, rename names pair.2)) after := by
  induction pairs generalizing d with
  | nil =>
    constructor
    · intro done
      cases done
      exact .nil
    · intro steps
      cases steps
      rfl
  | cons pair rest ih =>
    obtain ⟨o, i⟩ := pair
    have first := known (o, i) List.mem_cons_self
    have others := fun pair present => known pair (List.mem_cons_of_mem _ present)
    constructor
    · intro done
      obtain ⟨j, found, fusing⟩ := bind_ok.mp done
      obtain ⟨middle, step, more⟩ := bind_ok.mp fusing
      have place := Except.ok.inj (first.symm.trans (mapError_ok.mp found))
      exact .cons (place ▸ step) ((ih others).mp more)
    · intro steps
      cases steps with
      | cons step more =>
        exact bind_ok.mpr ⟨_, mapError_ok.mpr first, bind_ok.mpr ⟨_, step, (ih others).mpr more⟩⟩

end ToffoliBench.Diagram

import Mathlib.Data.List.Nodup
import Mathlib.Data.List.Pairwise
import Mathlib.Data.List.Perm.Basic
import ToffoliBench.Diagram.Basic

namespace ToffoliBench

namespace Edge

def Ends (e : Edge) (a b : Nat) : Prop := (e.low = a ∧ e.high = b) ∨ (e.low = b ∧ e.high = a)

theorem Ends.symm {e : Edge} {a b : Nat} (ends : e.Ends a b) : e.Ends b a := Or.symm ends

theorem joins_iff {e : Edge} {a b : Nat} (ordered : e.low < e.high) : e.joins a b = true ↔ e.Ends a b := by
  simp only [joins, Ends, Bool.and_eq_true, beq_iff_eq]
  omega

theorem between_ends_iff {a b v w : Nat} {kind : EdgeKind} :
    (between a b kind).Ends v w ↔ (a = v ∧ b = w) ∨ (a = w ∧ b = v) := by
  simp only [Ends, between]
  omega

-- What both ends have, the lower and the higher one have.
theorem between_both {p : Nat → Prop} {a b : Nat} (left : p a) (right : p b) (kind : EdgeKind) :
    p (between a b kind).low ∧ p (between a b kind).high := by
  simp only [between]
  rcases Nat.le_total a b with order | order
  · rw [Nat.min_eq_left order, Nat.max_eq_right order]; exact ⟨left, right⟩
  · rw [Nat.min_eq_right order, Nat.max_eq_left order]; exact ⟨right, left⟩

theorem touches_between {a b v : Nat} {kind : EdgeKind} :
    (between a b kind).touches v = true ↔ a = v ∨ b = v := by
  simp only [touches, between, Bool.or_eq_true, beq_iff_eq]
  omega

theorem touches_iff {e : Edge} {v : Nat} : e.touches v = true ↔ e.low = v ∨ e.high = v := by
  simp [touches]

theorem Ends.touches {e : Edge} {a b : Nat} (ends : e.Ends a b) : e.touches a = true := by
  rw [touches_iff]
  rcases ends with ⟨low, _⟩ | ⟨_, high⟩
  · exact .inl low
  · exact .inr high

theorem other_iff {e : Edge} {v w : Nat} (ordered : e.low < e.high) : e.other? v = some w ↔ e.Ends v w := by
  unfold other? Ends
  split
  · simp only [Option.some.injEq]; omega
  · split
    · simp only [Option.some.injEq]; omega
    · simp only [reduceCtorEq, false_iff]; omega

theorem other_none {e : Edge} {v : Nat} : e.other? v = none ↔ ¬e.touches v = true := by
  unfold other?
  split
  · simp_all [touches]
  · split <;> simp_all [touches]

theorem eq_between {e : Edge} {a b : Nat} (ordered : e.low < e.high) (ends : e.Ends a b) : e = between a b e.kind := by
  obtain ⟨low, high, kind⟩ := e
  simp only [Ends, between, Edge.mk.injEq, and_true] at *
  omega

theorem before_iff {e f : Edge} : e.before f = true ↔ e.low < f.low ∨ (e.low = f.low ∧ e.high < f.high) := by
  simp [before]

theorem before_trans {e f g : Edge} (first : e.before f = true) (second : f.before g = true) : e.before g = true := by
  rw [before_iff] at *
  omega

theorem before_total {e f : Edge} (different : ¬(e.low = f.low ∧ e.high = f.high)) (later : ¬e.before f = true) :
    f.before e = true := by
  rw [before_iff] at *
  omega

end Edge

namespace Diagram

theorem insertVertex_perm (v : Nat) (x : Vertex) (vs : List (Nat × Vertex)) : (insertVertex v x vs).Perm ((v, x) :: vs) := by
  induction vs with
  | nil => exact .refl _
  | cons entry rest ih =>
    unfold insertVertex
    split
    · exact .refl _
    · exact (ih.cons entry).trans (.swap _ _ _)

theorem insertEdge_perm (e : Edge) (es : List Edge) : (insertEdge e es).Perm (e :: es) := by
  induction es with
  | nil => exact .refl _
  | cons f rest ih =>
    unfold insertEdge
    split
    · exact .refl _
    · exact (ih.cons f).trans (.swap _ _ _)

theorem insertVertex_ascending {v : Nat} {x : Vertex} {vs : List (Nat × Vertex)}
    (ascending : (vs.map (·.1)).Pairwise (· < ·)) (new : v ∉ vs.map (·.1)) :
    ((insertVertex v x vs).map (·.1)).Pairwise (· < ·) := by
  induction vs with
  | nil => simp [insertVertex]
  | cons entry rest ih =>
    obtain ⟨first, others⟩ := List.pairwise_cons.mp ascending
    simp only [List.map_cons, List.mem_cons, not_or] at new
    unfold insertVertex
    split
    · rename_i earlier
      refine List.pairwise_cons.mpr ⟨?_, ascending⟩
      intro w present
      rcases List.mem_cons.mp present with rfl | later
      · exact earlier
      · exact Nat.lt_trans earlier (first w later)
    · refine List.pairwise_cons.mpr ⟨?_, ih others new.2⟩
      intro w present
      have moved := ((insertVertex_perm v x rest).map (·.1)).mem_iff.mp present
      rcases List.mem_cons.mp moved with rfl | later
      · dsimp only at *; omega
      · exact first w later

theorem insertEdge_sorted {e : Edge} {es : List Edge} (sorted : es.Pairwise fun f g => f.before g = true)
    (new : ∀ f ∈ es, ¬(e.low = f.low ∧ e.high = f.high)) :
    (insertEdge e es).Pairwise fun f g => f.before g = true := by
  induction es with
  | nil => simp [insertEdge]
  | cons f rest ih =>
    obtain ⟨first, others⟩ := List.pairwise_cons.mp sorted
    unfold insertEdge
    split
    · rename_i earlier
      refine List.pairwise_cons.mpr ⟨?_, sorted⟩
      intro g present
      rcases List.mem_cons.mp present with rfl | later
      · exact earlier
      · exact Edge.before_trans earlier (first g later)
    · rename_i later
      refine List.pairwise_cons.mpr ⟨?_, ih others fun g present => new g (List.mem_cons_of_mem _ present)⟩
      intro g present
      rcases List.mem_cons.mp ((insertEdge_perm e rest).mem_iff.mp present) with rfl | old
      · exact Edge.before_total (new f List.mem_cons_self) later
      · exact first g old

structure Sound (d : Diagram) : Prop where
  ascending : d.ids.Pairwise (· < ·)
  sorted : d.edges.Pairwise fun e f => e.before f = true
  ordered : ∀ e ∈ d.edges, e.low < e.high
  live : ∀ e ∈ d.edges, e.low ∈ d.ids ∧ e.high ∈ d.ids
  used : ∀ v ∈ d.ids, v < d.next
  free : ∀ v ∈ d.freed, v < d.next ∧ v ∉ d.ids
  freedOnce : d.freed.Nodup

instance (d : Diagram) : Decidable d.Sound :=
  decidable_of_iff
    (d.ids.Pairwise (· < ·) ∧ d.edges.Pairwise (fun e f => e.before f = true) ∧ (∀ e ∈ d.edges, e.low < e.high) ∧
      (∀ e ∈ d.edges, e.low ∈ d.ids ∧ e.high ∈ d.ids) ∧ (∀ v ∈ d.ids, v < d.next) ∧
      (∀ v ∈ d.freed, v < d.next ∧ v ∉ d.ids) ∧ d.freed.Nodup)
    ⟨fun ⟨ascending, sorted, ordered, live, used, free, once⟩ => ⟨ascending, sorted, ordered, live, used, free, once⟩,
      fun ⟨ascending, sorted, ordered, live, used, free, once⟩ => ⟨ascending, sorted, ordered, live, used, free, once⟩⟩

-- The bookkeeping speaks of ids and wires alone: not of what a vertex is, nor of the ends or the scalar.
theorem Sound.congr {d after : Diagram} (sound : d.Sound) (ids : after.ids = d.ids) (edges : after.edges = d.edges)
    (freed : after.freed = d.freed) (next : after.next = d.next) : after.Sound := by
  obtain ⟨ascending, sorted, ordered, live, used, free, once⟩ := sound
  constructor <;> simpa only [ids, edges, freed, next]

def IsBoundary (d : Diagram) (v : Nat) : Prop := ∃ x, (v, x) ∈ d.vertices ∧ x.kind = .boundary

instance (d : Diagram) (v : Nat) : Decidable (d.IsBoundary v) :=
  decidable_of_iff (∃ entry ∈ d.vertices, entry.1 = v ∧ entry.2.kind = .boundary)
    ⟨fun ⟨⟨_, x⟩, present, same, bound⟩ => ⟨x, same ▸ present, bound⟩, fun ⟨x, present, bound⟩ => ⟨(v, x), present, rfl, bound⟩⟩

-- Vertices changed in their places have what they had, as far as the change keeps it.
theorem exists_vertex_map {vs : List (Nat × Vertex)} {f : Nat × Vertex → Vertex} {p : Vertex → Prop} {v : Nat}
    (same : ∀ entry ∈ vs, p (f entry) ↔ p entry.2) :
    (∃ y, (v, y) ∈ vs.map (fun entry => (entry.1, f entry)) ∧ p y) ↔ ∃ x, (v, x) ∈ vs ∧ p x := by
  constructor
  · rintro ⟨y, listed, has⟩
    obtain ⟨⟨u, x⟩, held, moved⟩ := List.mem_map.mp listed
    obtain ⟨rfl, rfl⟩ := Prod.mk.inj moved
    exact ⟨x, held, (same _ held).mp has⟩
  · rintro ⟨x, held, has⟩
    exact ⟨_, List.mem_map_of_mem held, (same _ held).mpr has⟩

def Adjacent (d : Diagram) (a b : Nat) : Prop := ∃ e ∈ d.edges, e.Ends a b

variable {d : Diagram} {a b v w : Nat}

theorem Adjacent.symm (adjacent : d.Adjacent a b) : d.Adjacent b a := by
  obtain ⟨e, present, ends⟩ := adjacent
  exact ⟨e, present, ends.symm⟩

theorem Sound.adjacent_live (sound : d.Sound) (adjacent : d.Adjacent a b) : a ∈ d.ids ∧ b ∈ d.ids := by
  obtain ⟨e, present, ends⟩ := adjacent
  obtain ⟨low, high⟩ := sound.live e present
  rcases ends with ⟨rfl, rfl⟩ | ⟨rfl, rfl⟩
  · exact ⟨low, high⟩
  · exact ⟨high, low⟩

theorem Sound.adjacent_ne (sound : d.Sound) (adjacent : d.Adjacent a b) : a ≠ b := by
  obtain ⟨e, present, ends⟩ := adjacent
  have order := sound.ordered e present
  rcases ends with ⟨rfl, rfl⟩ | ⟨rfl, rfl⟩ <;> omega

-- No two wires have the same ends.
theorem Sound.edges_apart (sound : d.Sound) : d.edges.Pairwise fun e f => ∀ a b, e.Ends a b → ¬f.Ends a b := by
  refine sound.sorted.imp_of_mem fun {e f} left right earlier a b ends ends' => ?_
  have order := sound.ordered e left
  have order' := sound.ordered f right
  rw [Edge.before_iff] at earlier
  simp only [Edge.Ends] at ends ends'
  omega

theorem Sound.edge_unique (sound : d.Sound) {e f : Edge} (left : e ∈ d.edges) (right : f ∈ d.edges) (ends : e.Ends a b)
    (ends' : f.Ends a b) : e = f := by
  have symm : Std.Symm fun e f : Edge => ∀ a b, e.Ends a b → ¬f.Ends a b := ⟨fun _ _ apart a b ends ends' => apart a b ends' ends⟩
  by_contra different
  exact sound.edges_apart.forall left right different a b ends ends'

theorem Sound.nodup (sound : d.Sound) : d.ids.Nodup := sound.ascending.imp Nat.ne_of_lt

theorem contains_iff : d.contains v = true ↔ v ∈ d.ids := by
  simp only [contains, vertex?, ids, List.lookup_isSome_iff, List.mem_map, beq_iff_eq]
  constructor
  · rintro ⟨entry, present, same⟩
    exact ⟨entry, present, same.symm⟩
  · rintro ⟨entry, present, same⟩
    exact ⟨entry, present, same.symm⟩

-- An id names one vertex.
theorem vertex_unique {vs : List (Nat × Vertex)} {x y : Vertex} (once : (vs.map Prod.fst).Nodup) (held : (v, x) ∈ vs)
    (again : (v, y) ∈ vs) : x = y :=
  congrArg Prod.snd (List.inj_on_of_nodup_map once held again rfl)

theorem vertex_iff {x : Vertex} (once : d.ids.Nodup) : d.vertex? v = some x ↔ (v, x) ∈ d.vertices := by
  constructor
  · intro found
    obtain ⟨before, behind, shape, _⟩ := List.lookup_eq_some_iff.mp found
    simp [shape]
  · intro present
    have held : (d.vertices.lookup v).isSome := by
      rw [List.lookup_isSome_iff]
      exact ⟨(v, x), present, by simp⟩
    obtain ⟨y, found⟩ := Option.isSome_iff_exists.mp held
    obtain ⟨before, behind, shape, _⟩ := List.lookup_eq_some_iff.mp found
    have again : (v, y) ∈ d.vertices := by simp [shape]
    exact found.trans (congrArg some (vertex_unique once again present))

theorem Sound.connected_iff (sound : d.Sound) : d.connected a b = true ↔ d.Adjacent a b := by
  simp only [connected, edgeKind?, Option.isSome_map, List.find?_isSome, Adjacent]
  constructor
  · rintro ⟨e, present, joined⟩
    exact ⟨e, present, (Edge.joins_iff (sound.ordered e present)).mp joined⟩
  · rintro ⟨e, present, ends⟩
    exact ⟨e, present, (Edge.joins_iff (sound.ordered e present)).mpr ends⟩

theorem Sound.mem_incident (sound : d.Sound) {kind : EdgeKind} :
    (w, kind) ∈ d.incident v ↔ ∃ e ∈ d.edges, e.Ends v w ∧ e.kind = kind := by
  simp only [incident, List.mem_filterMap, Option.map_eq_some_iff, Prod.mk.injEq]
  constructor
  · rintro ⟨e, present, u, far, rfl, rfl⟩
    exact ⟨e, present, (Edge.other_iff (sound.ordered e present)).mp far, rfl⟩
  · rintro ⟨e, present, ends, rfl⟩
    exact ⟨e, present, w, (Edge.other_iff (sound.ordered e present)).mpr ends, rfl, rfl⟩

theorem Sound.fresh_new (sound : d.Sound) : d.fresh ∉ d.ids := by
  unfold fresh
  cases freed : d.freed with
  | nil =>
    intro present
    exact Nat.lt_irrefl _ (sound.used _ present)
  | cons v rest => exact (sound.free v (by simp [freed])).2

theorem add_vertices (d : Diagram) (x : Vertex) : (d.add x).vertices.Perm ((d.fresh, x) :: d.vertices) :=
  insertVertex_perm ..

theorem add_ids (d : Diagram) (x : Vertex) : (d.add x).ids.Perm (d.fresh :: d.ids) :=
  (add_vertices d x).map Prod.fst

theorem Sound.add (sound : d.Sound) (x : Vertex) : (d.add x).Sound := by
  have members : ∀ u, u ∈ (d.add x).ids ↔ u = d.fresh ∨ u ∈ d.ids := fun u => by
    rw [(add_ids d x).mem_iff, List.mem_cons]
  refine ⟨insertVertex_ascending sound.ascending sound.fresh_new, sound.sorted, sound.ordered, ?_, ?_, ?_, ?_⟩
  · intro e present
    obtain ⟨low, high⟩ := sound.live e present
    exact ⟨(members _).mpr (.inr low), (members _).mpr (.inr high)⟩
  · intro u present
    have bound : u < d.next + 1 ∧ (d.freed ≠ [] → u < d.next) := by
      rcases (members u).mp present with rfl | old
      · cases freed : d.freed with
        | nil => simp [fresh, freed]
        | cons v rest =>
          have known := (sound.free v (by simp [freed])).1
          have front : d.fresh = v := by simp only [fresh, freed, List.headD_cons]
          rw [front]
          exact ⟨Nat.lt_succ_of_lt known, fun _ => known⟩
      · have known := sound.used u old
        exact ⟨Nat.lt_succ_of_lt known, fun _ => known⟩
    simp only [Diagram.add]
    split
    · exact bound.1
    · rename_i kept
      exact bound.2 (by simpa using kept)
  · intro u present
    have old : u ∈ d.freed := List.mem_of_mem_tail present
    obtain ⟨known, out⟩ := sound.free u old
    refine ⟨?_, ?_⟩
    · simp only [Diagram.add]
      split <;> omega
    · intro back
      rcases (members u).mp back with rfl | live
      · have once := sound.freedOnce
        cases freed : d.freed with
        | nil => rw [freed] at old; cases old
        | cons v rest =>
          simp only [Diagram.add, fresh, freed, List.tail_cons, List.headD_cons] at present
          rw [freed] at once
          exact (List.nodup_cons.mp once).1 present
      · exact out live
  · exact sound.freedOnce.tail

theorem link_edges (d : Diagram) (a b : Nat) (kind : EdgeKind) : (d.link a b kind).edges.Perm (.between a b kind :: d.edges) :=
  insertEdge_perm ..

theorem Sound.link (sound : d.Sound) (left : a ∈ d.ids) (right : b ∈ d.ids) (different : a ≠ b)
    (new : ¬d.Adjacent a b) (kind : EdgeKind) : (d.link a b kind).Sound := by
  have members := fun e => (link_edges d a b kind).mem_iff (a := e)
  refine ⟨sound.ascending, insertEdge_sorted sound.sorted ?_, ?_, ?_, sound.used, sound.free, sound.freedOnce⟩
  · intro f present same
    refine new ⟨f, present, ?_⟩
    simp only [Edge.between, Edge.Ends] at same ⊢
    omega
  · intro e present
    rcases List.mem_cons.mp ((members e).mp present) with rfl | old
    · simp only [Edge.between]; omega
    · exact sound.ordered e old
  · intro e present
    rcases List.mem_cons.mp ((members e).mp present) with rfl | old
    · exact Edge.between_both left right kind
    · exact sound.live e old

theorem drop_ids (d : Diagram) (v : Nat) : (d.drop v).ids = d.ids.filter (· != v) := by
  unfold drop ids
  split
  · rw [List.filter_map]; rfl
  · rename_i absent
    symm
    rw [List.filter_eq_self]
    intro u present
    have other : u ≠ v := by
      rintro rfl
      exact absent (contains_iff.mpr present)
    simpa using other

theorem drop_vertices {v : Nat} {x : Vertex} (once : d.ids.Nodup) (present : (v, x) ∈ d.vertices) :
    d.vertices.Perm ((v, x) :: (d.drop v).vertices) := by
  have held : d.contains v = true := contains_iff.mpr (List.mem_map.mpr ⟨_, present, rfl⟩)
  simp only [Diagram.drop, held, if_true]
  rw [ids] at once
  generalize d.vertices = vs at once present
  induction vs with
  | nil => cases present
  | cons entry rest ih =>
    obtain ⟨new, others⟩ := List.nodup_cons.mp once
    rcases List.mem_cons.mp present with rfl | later
    · have kept : rest.filter (fun entry => entry.1 != v) = rest := by
        refine List.filter_eq_self.mpr fun entry member => ?_
        have different : entry.1 ≠ v := by
          rintro rfl
          exact new (List.mem_map.mpr ⟨entry, member, rfl⟩)
        simpa using different
      simp [kept]
    · have different : entry.1 ≠ v := by
        rintro rfl
        exact new (List.mem_map.mpr ⟨_, later, rfl⟩)
      rw [List.filter_cons_of_pos (by simpa using different)]
      exact ((ih others later).cons entry).trans (.swap _ _ _)

theorem mem_drop_vertices {v : Nat} {entry : Nat × Vertex} :
    entry ∈ (d.drop v).vertices ↔ entry ∈ d.vertices ∧ entry.1 ≠ v := by
  unfold drop
  split
  · simp
  · rename_i absent
    refine ⟨fun present => ⟨present, ?_⟩, And.left⟩
    rintro rfl
    exact absent (contains_iff.mpr (List.mem_map.mpr ⟨entry, present, rfl⟩))

theorem Sound.drop_edges (sound : d.Sound) (v : Nat) : (d.drop v).edges = d.edges.filter fun e => !e.touches v := by
  unfold drop
  split
  · rfl
  · rename_i absent
    symm
    rw [List.filter_eq_self]
    intro e present
    obtain ⟨low, high⟩ := sound.live e present
    have apart : ¬e.touches v = true := by
      rw [Edge.touches_iff]
      rintro (rfl | rfl)
      · exact absent (contains_iff.mpr low)
      · exact absent (contains_iff.mpr high)
    simpa using apart

theorem Sound.drop (sound : d.Sound) (v : Nat) : (d.drop v).Sound := by
  have edges := sound.drop_edges v
  have ids := drop_ids d v
  have next : (d.drop v).next = d.next := by unfold Diagram.drop; split <;> rfl
  have remains : ∀ u, u ∈ (d.drop v).ids ↔ u ∈ d.ids ∧ u ≠ v := fun u => by simp [ids]
  refine ⟨by rw [ids]; exact sound.ascending.filter _, by rw [edges]; exact sound.sorted.filter _, ?_, ?_, ?_, ?_, ?_⟩
  · intro e present
    rw [edges] at present
    exact sound.ordered e (List.mem_of_mem_filter present)
  · intro e present
    rw [edges, List.mem_filter] at present
    obtain ⟨low, high⟩ := sound.live e present.1
    have apart : ¬e.touches v = true := by simpa using present.2
    rw [Edge.touches_iff, not_or] at apart
    exact ⟨(remains _).mpr ⟨low, apart.1⟩, (remains _).mpr ⟨high, apart.2⟩⟩
  · intro u present
    rw [next]
    exact sound.used u ((remains u).mp present).1
  · intro u present
    rw [next, remains]
    unfold Diagram.drop at present
    split at present
    · rename_i held
      rcases List.mem_cons.mp present with rfl | old
      · exact ⟨sound.used _ (contains_iff.mp held), fun live => live.2 rfl⟩
      · exact ⟨(sound.free u old).1, fun live => (sound.free u old).2 live.1⟩
    · exact ⟨(sound.free u present).1, fun live => (sound.free u present).2 live.1⟩
  · unfold Diagram.drop
    split
    · rename_i held
      exact List.nodup_cons.mpr ⟨fun old => (sound.free v old).2 (contains_iff.mp held), sound.freedOnce⟩
    · exact sound.freedOnce

end Diagram

end ToffoliBench

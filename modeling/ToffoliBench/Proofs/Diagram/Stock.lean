import ToffoliBench.Proofs.Diagram.Growth
import ToffoliBench.Proofs.Diagram.Plugging

namespace ToffoliBench.Diagram

variable {vs ws all : List (Nat × Vertex)} {es fs wires : List Edge} {b h k v w : Nat}

def Meets (es : List Edge) (v w : Nat) : Prop := ∃ e ∈ es, e.Ends v w

def Stands (p : Vertex → Prop) (vs : List (Nat × Vertex)) (v : Nat) : Prop := ∃ x, (v, x) ∈ vs ∧ p x

def Helper : List (Nat × Vertex) → Nat → Prop := Stands (·.marker = some .starHelper)

def Box : List (Nat × Vertex) → Nat → Prop := Stands (·.kind = .hBox)

-- A helper has one wire, to a box. A box has three, one of them to a helper, which is its own.
structure Starry (vs : List (Nat × Vertex)) (es : List Edge) : Prop where
  helper : ∀ h, Helper vs h → ∃ b, Box vs b ∧ ∀ w, Meets es h w ↔ w = b
  box : ∀ b, Box vs b → es.countP (·.touches b) = 3 ∧ ∃ h, Helper vs h ∧ Meets es b h ∧ ∀ k, Helper vs k → Meets es b k → k = h
  spider : ∀ entry ∈ vs, entry.2.marker = some .starHelper → entry.2.kind = .z
  unturned : ∀ entry ∈ vs, entry.2.marker = some .starHelper ∨ entry.2.kind = .hBox → entry.2.phase ≠ .third

-- So many vertices, gadgets and wires; no wire is a Hadamard wire and nothing has been resolved.
structure Stock (vs : List (Nat × Vertex)) (es : List Edge) (size stars count : Nat) : Prop where
  starry : Starry vs es
  size : vs.length = size
  stars : vs.countP (fun entry => entry.2.marker == some .starHelper) = stars
  count : es.length = count
  simple : ∀ e ∈ es, e.kind = .simple
  fresh : ∀ entry ∈ vs, entry.2.phase ≠ .third

-- No wire ends at a helper or a box.
def Avoids (es : List Edge) (vs : List (Nat × Vertex)) : Prop := ∀ e ∈ es, ∀ v, Helper vs v ∨ Box vs v → ¬e.touches v = true

theorem stands_cons {p : Vertex → Prop} {x : Vertex} : Stands p ((w, x) :: vs) v ↔ (v = w ∧ p x) ∨ Stands p vs v := by
  simp only [Stands, List.mem_cons, Prod.mk.injEq, or_and_right, exists_or, and_assoc, exists_and_left, exists_eq_left]

theorem stands_nil {p : Vertex → Prop} : ¬Stands p [] v := by
  rintro ⟨x, held, _⟩
  cases held

theorem Meets.symm (meets : Meets es v w) : Meets es w v := by
  obtain ⟨e, held, ends⟩ := meets
  exact ⟨e, held, ends.symm⟩

theorem Avoids.unmet (avoids : Avoids es vs) (star : Helper vs v ∨ Box vs v) : ¬Meets es v w := by
  rintro ⟨e, held, ends⟩
  exact avoids e held v star ends.touches

section

variable (vertices : all.Perm (vs ++ ws)) (edges : wires.Perm (es ++ fs))
include vertices

theorem stands_joined {p : Vertex → Prop} : Stands p all v ↔ Stands p vs v ∨ Stands p ws v := by
  simp only [Stands, vertices.mem_iff, List.mem_append, or_and_right, exists_or]

theorem helper_joined : Helper all h ↔ Helper vs h ∨ Helper ws h := stands_joined vertices

theorem box_joined : Box all b ↔ Box vs b ∨ Box ws b := stands_joined vertices

omit vertices in
include edges in
theorem meets_joined : Meets wires v w ↔ Meets es v w ∨ Meets fs v w := by
  simp only [Meets, edges.mem_iff, List.mem_append, or_and_right, exists_or]

include edges

-- The gadgets of one part, seen in the whole.
theorem Starry.part (starry : Starry vs es) (others : Avoids fs vs) (own : Avoids es ws) :
    (∀ h, Helper vs h → ∃ b, Box all b ∧ ∀ w, Meets wires h w ↔ w = b) ∧
      ∀ b, Box vs b → wires.countP (·.touches b) = 3 ∧
        ∃ h, Helper all h ∧ Meets wires b h ∧ ∀ k, Helper all k → Meets wires b k → k = h := by
  constructor
  · intro h held
    obtain ⟨b, box, only⟩ := starry.helper h held
    refine ⟨b, (box_joined vertices).mpr (.inl box), fun w => ?_⟩
    rw [meets_joined edges, ← only]
    exact or_iff_left (others.unmet (.inl held))
  · intro b held
    obtain ⟨three, h, helper, near, only⟩ := starry.box b held
    have none : fs.countP (·.touches b) = 0 := List.countP_eq_zero.mpr fun e listed => others e listed b (.inr held)
    refine ⟨by rw [edges.countP_eq, List.countP_append, three, none], h, (helper_joined vertices).mpr (.inl helper),
      (meets_joined edges).mpr (.inl near), fun k some_ met => ?_⟩
    have here := ((meets_joined edges).mp met).resolve_right (others.unmet (.inr held))
    rcases (helper_joined vertices).mp some_ with mine | theirs
    · exact only k mine here
    · exact absurd here.symm (own.unmet (.inl theirs))

theorem Starry.join (left : Starry vs es) (right : Starry ws fs) (leftAway : Avoids fs vs) (rightAway : Avoids es ws) :
    Starry all wires := by
  obtain ⟨leftHelpers, leftBoxes⟩ := left.part vertices edges leftAway rightAway
  obtain ⟨rightHelpers, rightBoxes⟩ := right.part (vertices.trans List.perm_append_comm) (edges.trans List.perm_append_comm)
    rightAway leftAway
  refine ⟨fun h held => ?_, fun b held => ?_, fun entry held => ?_, fun entry held => ?_⟩
  · exact ((helper_joined vertices).mp held).elim (leftHelpers h) (rightHelpers h)
  · exact ((box_joined vertices).mp held).elim (leftBoxes b) (rightBoxes b)
  · exact (List.mem_append.mp (vertices.mem_iff.mp held)).elim (left.spider entry) (right.spider entry)
  · exact (List.mem_append.mp (vertices.mem_iff.mp held)).elim (left.unturned entry) (right.unturned entry)

theorem Stock.join {size stars count size' stars' count' : Nat} (left : Stock vs es size stars count)
    (right : Stock ws fs size' stars' count') (leftAway : Avoids fs vs) (rightAway : Avoids es ws) :
    Stock all wires (size + size') (stars + stars') (count + count') := by
  refine ⟨left.starry.join vertices edges right.starry leftAway rightAway, ?_, ?_, ?_, fun e held => ?_, fun entry held => ?_⟩
  · rw [vertices.length_eq, List.length_append, left.size, right.size]
  · rw [vertices.countP_eq, List.countP_append, left.stars, right.stars]
  · rw [edges.length_eq, List.length_append, left.count, right.count]
  · exact (List.mem_append.mp (edges.mem_iff.mp held)).elim (left.simple e) (right.simple e)
  · exact (List.mem_append.mp (vertices.mem_iff.mp held)).elim (left.fresh entry) (right.fresh entry)

end

-- Where there are no gadgets there is only counting.
theorem Stock.bare (plain : ∀ entry ∈ vs, entry.2.marker ≠ some .starHelper ∧ entry.2.kind ≠ .hBox ∧ entry.2.phase ≠ .third)
    (simple : ∀ e ∈ es, e.kind = .simple) : Stock vs es vs.length 0 es.length := by
  refine ⟨⟨?_, ?_, fun entry held marked => ?_, fun entry held _ => (plain entry held).2.2⟩, rfl, ?_, rfl, simple,
    fun entry held => (plain entry held).2.2⟩
  · rintro h ⟨x, held, marked⟩
    exact absurd marked (plain _ held).1
  · rintro b ⟨x, held, box⟩
    exact absurd box (plain _ held).2.1
  · exact absurd marked (plain entry held).1
  · exact List.countP_eq_zero.mpr fun entry held => by simpa using (plain entry held).1

def Stocked (d : Diagram) (size stars count : Nat) : Prop := Stock d.vertices d.edges size stars count

section

variable {d other both after : Diagram} {names : Renaming} {qubits rows : Float} {o i a : Nat} {x y : EdgeKind}
  {size stars count size' stars' count' : Nat}

theorem Stands.listed {p : Vertex → Prop} (stands : Stands p vs v) : v ∈ vs.map Prod.fst := by
  obtain ⟨_, held, _⟩ := stands
  exact List.mem_map_of_mem held

theorem star_listed (star : Helper vs v ∨ Box vs v) : v ∈ vs.map Prod.fst := star.elim Stands.listed Stands.listed

theorem Starry.helper_unboxed (starry : Starry vs es) (once : (vs.map Prod.fst).Nodup) (helper : Helper vs v) : ¬Box vs v := by
  obtain ⟨x, held, marked⟩ := helper
  rintro ⟨y, listed, box⟩
  obtain rfl := vertex_unique once held listed
  rw [starry.spider _ held marked] at box
  cases box

theorem Starry.star_inner (starry : Starry d.vertices d.edges) (sound : d.Sound) (star : Helper d.vertices v ∨ Box d.vertices v) :
    ¬d.IsBoundary v := by
  rintro ⟨y, held, bound⟩
  rcases star with ⟨x, listed, marked⟩ | ⟨x, listed, box⟩
  · obtain rfl := vertex_unique sound.nodup held listed
    rw [starry.spider _ listed marked] at bound
    cases bound
  · obtain rfl := vertex_unique sound.nodup held listed
    rw [box] at bound
    cases bound

-- What was there before stands as it did.
theorem Grown.stands {new : List (Nat × Vertex)} {p : Vertex → Prop} (grown : Grown d after new es) (old : v ∈ d.ids) :
    Stands p after.vertices v ↔ Stands p d.vertices v := by
  rw [stands_joined grown.vertices, or_iff_left fun fresh => grown.apart old fresh.listed]

-- What is new and what was there before do not touch each other's gadgets.
theorem Stocked.grow {new : List (Nat × Vertex)} (stocked : Stocked d size stars count) (sound : d.Sound) (grown : Grown d after new es)
    (piece : Stock new es size' stars' count') (away : Avoids es d.vertices) :
    Stocked after (size + size') (stars + stars') (count + count') := by
  refine Stock.join grown.vertices grown.edges stocked piece away fun e held v star touched => ?_
  have listed := star_listed star
  obtain ⟨low, high⟩ := sound.live e held
  rcases Edge.touches_iff.mp touched with rfl | rfl
  · exact grown.apart low listed
  · exact grown.apart high listed

theorem Fusable.vertices (fusable : Fusable d o i a b x y) (sound : d.Sound) (outer : d.IsBoundary o) (inner : d.IsBoundary i) :
    ∃ s t : Vertex, (s.kind = .boundary ∧ t.kind = .boundary) ∧
      d.vertices.Perm ([(o, s), (i, t)] ++ (d.fused o i a b (x.merge y)).vertices) := by
  obtain ⟨s, first, one⟩ := outer
  obtain ⟨t, second, two⟩ := inner
  have left : (i, t) ∈ (d.drop o).vertices := mem_drop_vertices.mpr ⟨second, fusable.apart.symm⟩
  exact ⟨s, t, ⟨one, two⟩, (drop_vertices sound.nodup first).trans ((drop_vertices (sound.drop o).nodup left).cons _)⟩

theorem Starry.fused_meets (starry : Starry d.vertices d.edges) (sound : d.Sound) (fusable : Fusable d o i a b x y)
    (outer : d.IsBoundary o) (inner : d.IsBoundary i) (helper : Helper d.vertices h) :
    Meets (d.fused o i a b (x.merge y)).edges h w ↔ Meets d.edges h w := by
  obtain ⟨box, isBox, only⟩ := starry.helper h helper
  have away : ∀ v, Helper d.vertices v ∨ Box d.vertices v → v ≠ o ∧ v ≠ i := fun v star =>
    ⟨fun same => starry.star_inner sound star (same ▸ outer), fun same => starry.star_inner sound star (same ▸ inner)⟩
  -- A neighbour of a boundary is no helper.
  have left : a ≠ h := by
    rintro rfl
    exact (away box (.inr isBox)).1 ((only o).mp (sound.incident_adjacent fusable.outer).symm).symm
  have right : b ≠ h := by
    rintro rfl
    exact (away box (.inr isBox)).2 ((only i).mp (sound.incident_adjacent fusable.inner).symm).symm
  refine sound.fused_adjacent.trans ⟨?_, fun near => .inl ?_⟩
  · rintro (⟨near, _⟩ | ⟨same, _⟩ | ⟨_, same⟩)
    · exact near
    · exact absurd same left
    · exact absurd same right
  · obtain rfl := (only w).mp near
    exact ⟨near, (away h (.inl helper)).1, (away w (.inr isBox)).1, (away h (.inl helper)).2, (away w (.inr isBox)).2⟩

-- Boundaries are neither helpers nor boxes, so without some of them all gadgets are still there.
theorem Starry.without_bounds {cut : List (Nat × Vertex)} (starry : Starry all es) (vertices : all.Perm (cut ++ ws))
    (bounds : ∀ entry ∈ cut, entry.2.kind = .boundary) : (∀ v, Helper ws v ↔ Helper all v) ∧ (∀ v, Box ws v ↔ Box all v) ∧
      ws.countP (fun entry => entry.2.marker == some .starHelper) = all.countP fun entry => entry.2.marker == some .starHelper := by
  have unmarked : ∀ entry ∈ cut, entry.2.marker ≠ some .starHelper := by
    intro entry held marked
    have spider := starry.spider entry (vertices.mem_iff.mpr (List.mem_append_left _ held)) marked
    rw [bounds entry held] at spider
    cases spider
  refine ⟨fun v => ?_, fun v => ?_, ?_⟩
  · rw [helper_joined vertices, or_iff_right]
    rintro ⟨x, held, marked⟩
    exact unmarked _ held marked
  · rw [box_joined vertices, or_iff_right]
    rintro ⟨x, held, box⟩
    have bound := bounds _ held
    rw [box] at bound
    cases bound
  · have none : cut.countP (fun entry => entry.2.marker == some .starHelper) = 0 :=
      List.countP_eq_zero.mpr fun entry held => by simpa using unmarked entry held
    rw [vertices.countP_eq, List.countP_append, none, Nat.zero_add]

theorem Starry.fused (starry : Starry d.vertices d.edges) (sound : d.Sound) (fusable : Fusable d o i a b x y)
    (outer : d.IsBoundary o) (inner : d.IsBoundary i) :
    Starry (d.fused o i a b (x.merge y)).vertices (d.fused o i a b (x.merge y)).edges := by
  obtain ⟨s, t, bounds, vertices⟩ := fusable.vertices sound outer inner
  obtain ⟨helpers, boxes, _⟩ := starry.without_bounds vertices (by simpa using bounds)
  have kept : ∀ entry ∈ (d.fused o i a b (x.merge y)).vertices, entry ∈ d.vertices := fun entry held =>
    vertices.mem_iff.mpr (List.mem_append_right _ held)
  refine ⟨fun h helper => ?_, fun v box => ?_, fun entry held => starry.spider entry (kept entry held),
    fun entry held => starry.unturned entry (kept entry held)⟩
  · have old := (helpers h).mp helper
    obtain ⟨box, isBox, only⟩ := starry.helper h old
    exact ⟨box, (boxes box).mpr isBox, fun w => (starry.fused_meets sound fusable outer inner old).trans (only w)⟩
  · have old := (boxes v).mp box
    obtain ⟨three, h, helper, near, only⟩ := starry.box v old
    have away := starry.star_inner sound (.inr old)
    have notOuter : v ≠ o := fun same => away (same ▸ outer)
    have notInner : v ≠ i := fun same => away (same ▸ inner)
    refine ⟨?_, h, (helpers h).mpr helper, ?_, fun k helper' met => ?_⟩
    · rw [← degree_eq, fusable.degree sound notOuter notInner, degree_eq]
      exact three
    · exact ((starry.fused_meets sound fusable outer inner helper).mpr near.symm).symm
    · have known := (helpers k).mp helper'
      exact only k known ((starry.fused_meets sound fusable outer inner known).mp met.symm).symm

theorem Stocked.fused (stocked : Stocked d (size + 2) stars (count + 1)) (sound : d.Sound) (fusable : Fusable d o i a b x y)
    (outer : d.IsBoundary o) (inner : d.IsBoundary i) : Stocked (d.fused o i a b (x.merge y)) size stars count := by
  obtain ⟨s, t, bounds, vertices⟩ := fusable.vertices sound outer inner
  obtain ⟨_, _, marked⟩ := stocked.starry.without_bounds vertices (by simpa using bounds)
  have edges := fusable.edges sound
  refine ⟨stocked.starry.fused sound fusable outer inner, ?_, marked.trans stocked.stars, ?_, ?_, fun entry held =>
    stocked.fresh entry (vertices.mem_iff.mpr (List.mem_append_right _ held))⟩
  · have length := vertices.length_eq
    rw [stocked.size] at length
    simp only [List.length_append, List.length_cons, List.length_nil] at length
    omega
  · have before := edges.length_eq
    rw [stocked.count] at before
    rw [fused_edges.length_eq]
    simp only [List.length_cons] at before ⊢
    omega
  · -- The one new wire merges two simple ones.
    have simple : ∀ e ∈ d.edges, e.kind = .simple := stocked.simple
    obtain ⟨left, others⟩ := List.forall_mem_cons.mp fun e held => simple e (edges.mem_iff.mpr held)
    obtain ⟨right, rest⟩ := List.forall_mem_cons.mp others
    intro e held
    rcases List.mem_cons.mp (fused_edges.mem_iff.mp held) with rfl | old
    · rw [show x = .simple from left, show y = .simple from right]
      rfl
    · exact rest e old

theorem Stocked.fusions {pairs : List (Nat × Nat)} (steps : Fusions d pairs after) (sound : d.Sound)
    (stocked : Stocked d (size + 2 * pairs.length) stars (count + pairs.length))
    (once : (pairs.map Prod.fst ++ pairs.map Prod.snd).Nodup)
    (bound : ∀ v ∈ pairs.map Prod.fst ++ pairs.map Prod.snd, d.IsBoundary v) : Stocked after size stars count := by
  induction steps with
  | nil => exact stocked
  | @cons d middle after o i rest step _ ih =>
    obtain ⟨a, b, k, l, fusable, rfl⟩ := sound.fusePair_ok.mp step
    obtain ⟨outer, inner, bounds⟩ := Wiring.ends_all bound
    obtain ⟨_, others, once⟩ := Wiring.ends_once once
    exact ih (fusable.fused_sound sound) (Stocked.fused stocked sound fusable outer inner) once fun v held =>
      (bounds v held).fused (others v held).1 (others v held).2

-- A copy under other names has copies of the gadgets.
theorem stands_moved {p : Vertex → Prop} (kept : ∀ x : Vertex, p (x.shifted qubits rows) ↔ p x) :
    Stands p (vs.map (moveVertex names qubits rows)) v ↔ ∃ u, Stands p vs u ∧ rename names u = v := by
  constructor
  · rintro ⟨x, held, is⟩
    obtain ⟨⟨u, y⟩, listed, same⟩ := List.mem_map.mp held
    obtain ⟨rfl, rfl⟩ := Prod.mk.inj same
    exact ⟨u, ⟨y, listed, (kept y).mp is⟩, rfl⟩
  · rintro ⟨u, ⟨y, listed, is⟩, rfl⟩
    exact ⟨_, List.mem_map_of_mem listed, (kept y).mpr is⟩

theorem Starry.appended (left : Starry d.vertices d.edges) (right : Starry other.vertices other.edges)
    (all : Appended d other both names qubits rows) (sound : d.Sound) (otherSound : other.Sound) : Starry both.vertices both.edges := by
  have helpers : ∀ v, Helper both.vertices v ↔ Helper d.vertices v ∨ ∃ u, Helper other.vertices u ∧ rename names u = v := fun v =>
    (helper_joined all.vertices).trans (or_congr Iff.rfl (stands_moved fun _ => Iff.rfl))
  have boxes : ∀ v, Box both.vertices v ↔ Box d.vertices v ∨ ∃ u, Box other.vertices u ∧ rename names u = v := fun v =>
    (box_joined all.vertices).trans (or_congr Iff.rfl (stands_moved fun _ => Iff.rfl))
  have near : ∀ {v w}, v ∈ d.ids → (Meets both.edges v w ↔ Meets d.edges v w) := fun old => all.adjacent_left otherSound old
  have far : ∀ {u w}, u ∈ other.ids → (Meets both.edges (rename names u) w ↔ ∃ t, Meets other.edges u t ∧ rename names t = w) :=
    fun held => all.adjacent_right otherSound sound held
  refine ⟨fun h helper => ?_, fun c box => ?_, fun entry held => ?_, fun entry held => ?_⟩
  · rcases (helpers h).mp helper with held | ⟨u, held, rfl⟩
    · obtain ⟨b, box, only⟩ := left.helper h held
      exact ⟨b, (boxes b).mpr (.inl box), fun w => (near held.listed).trans (only w)⟩
    · obtain ⟨b, box, only⟩ := right.helper u held
      refine ⟨rename names b, (boxes _).mpr (.inr ⟨b, box, rfl⟩), fun w => (far held.listed).trans ?_⟩
      simp only [only, exists_eq_left]
      exact eq_comm
  · rcases (boxes c).mp box with held | ⟨u, held, rfl⟩
    · obtain ⟨three, h, helper, met, only⟩ := left.box c held
      refine ⟨?_, h, (helpers h).mpr (.inl helper), (near held.listed).mpr met, fun k known met => ?_⟩
      · rw [← degree_eq, all.degree_left otherSound held.listed, degree_eq]
        exact three
      · have old := (near held.listed).mp met
        rcases (helpers k).mp known with mine | ⟨t, theirs, rfl⟩
        · exact only k mine old
        · exact absurd (sound.adjacent_live old).2 (all.new theirs.listed)
    · obtain ⟨three, h, helper, met, only⟩ := right.box u held
      refine ⟨?_, rename names h, (helpers _).mpr (.inr ⟨h, helper, rfl⟩), (far held.listed).mpr ⟨h, met, rfl⟩, fun k known met => ?_⟩
      · rw [← degree_eq, all.degree_right otherSound sound held.listed, degree_eq]
        exact three
      · obtain ⟨t, old, rfl⟩ := (far held.listed).mp met
        have live := (otherSound.adjacent_live old).2
        rcases (helpers _).mp known with mine | ⟨s, theirs, same⟩
        · exact absurd mine.listed (all.new live)
        · rw [only t (all.injective theirs.listed live same ▸ theirs) old]
  · rcases List.mem_append.mp (all.vertices.mem_iff.mp held) with old | moved
    · exact left.spider entry old
    · obtain ⟨source, listed, rfl⟩ := List.mem_map.mp moved
      exact right.spider source listed
  · rcases List.mem_append.mp (all.vertices.mem_iff.mp held) with old | moved
    · exact left.unturned entry old
    · obtain ⟨source, listed, rfl⟩ := List.mem_map.mp moved
      exact right.unturned source listed

theorem Stocked.appended (left : Stocked d size stars count) (right : Stocked other size' stars' count')
    (all : Appended d other both names qubits rows) (sound : d.Sound) (otherSound : other.Sound) :
    Stocked both (size + size') (stars + stars') (count + count') := by
  refine ⟨left.starry.appended right.starry all sound otherSound, ?_, ?_, ?_, fun e held => ?_, fun entry held => ?_⟩
  · rw [all.vertices.length_eq, List.length_append, List.length_map, left.size, right.size]
  · rw [all.vertices.countP_eq, List.countP_append, left.stars, List.countP_map]
    exact congrArg _ right.stars
  · rw [all.edges.length_eq, List.length_append, List.length_map, left.count, right.count]
  · rcases List.mem_append.mp (all.edges.mem_iff.mp held) with old | moved
    · exact left.simple e old
    · obtain ⟨source, listed, rfl⟩ := List.mem_map.mp moved
      exact right.simple source listed
  · rcases List.mem_append.mp (all.vertices.mem_iff.mp held) with old | moved
    · exact left.fresh entry old
    · obtain ⟨source, listed, rfl⟩ := List.mem_map.mp moved
      exact right.fresh source listed

-- Composed diagrams lose both ends of every wire of the seam, and one of its two wires.
theorem Stocked.compose (left : d.WellFormed) (right : other.WellFormed) (first : Stocked d size stars count)
    (second : Stocked other size' stars' count') (done : d.compose other = .ok after) {total wires : Nat}
    (vertices : size + size' = total + 2 * d.outputs.length) (edges : count + count' = wires + d.outputs.length) :
    Stocked after total (stars + stars') wires := by
  obtain ⟨lengths, fusedAll, scalar, steps, _, rfl⟩ := (left.compose_iff right).mp done
  have all := append_appended left.toSound right.toSound 0 d.depth
  have whole := first.appended second all left.toSound right.toSound
  have joined : Stocked (d.joined other) (size + size') (stars + stars') (count + count') := whole
  have seam := left.seam right lengths
  have long : (d.seam other).length = d.outputs.length := by simp [Diagram.seam, lengths]
  rw [vertices, edges, ← long] at joined
  have sewn := joined.fusions steps (left.toSound.joined right.toSound) seam.once seam.bound
  exact sewn

theorem Stocked.tensor (left : d.WellFormed) (right : other.WellFormed) (first : Stocked d size stars count)
    (second : Stocked other size' stars' count') (done : d.tensor other = .ok after) :
    Stocked after (size + size') (stars + stars') (count + count') := by
  obtain ⟨scalar, _, rfl⟩ := (left.tensor_iff right).mp done
  have all := append_appended left.toSound right.toSound d.qubitCount 0
  have whole := first.appended second all left.toSound right.toSound
  exact whole

section

variable {caps : Nat → Option (VertexKind × Phase)}

theorem cap_marker (x : Vertex) (closes : Option (VertexKind × Phase)) : (x.cap closes).marker = x.marker := by
  cases closes <;> rfl

theorem stands_capped {p : Vertex → Prop} (same : ∀ entry ∈ d.vertices, p (entry.2.cap (caps entry.1)) ↔ p entry.2) :
    Stands p (d.capped caps).vertices v ↔ Stands p d.vertices v :=
  exists_vertex_map same

section

variable (sound : d.Sound) (closing : ∀ v kind phase, caps v = some (kind, phase) → d.IsBoundary v ∧ kind ≠ .hBox ∧ phase ≠ .third)
include sound closing

theorem Sound.cap_or (entry : Nat × Vertex) (held : entry ∈ d.vertices) : entry.2.cap (caps entry.1) = entry.2 ∨
    entry.2.kind = .boundary ∧ (entry.2.cap (caps entry.1)).kind ≠ .hBox ∧ (entry.2.cap (caps entry.1)).phase ≠ .third := by
  cases closes : caps entry.1 with
  | none => exact .inl rfl
  | some spider =>
    obtain ⟨⟨x, listed, bound⟩, kind, phase⟩ := closing _ spider.1 spider.2 closes
    obtain rfl := vertex_unique sound.nodup held listed
    exact .inr ⟨bound, kind, phase⟩

-- A boundary that is capped with a spider of another phase is still no part of a gadget.
theorem Starry.capped (starry : Starry d.vertices d.edges) : Starry (d.capped caps).vertices (d.capped caps).edges := by
  have helpers : ∀ v, Helper (d.capped caps).vertices v ↔ Helper d.vertices v := fun v =>
    stands_capped fun entry _ => by rw [cap_marker]
  have boxes : ∀ v, Box (d.capped caps).vertices v ↔ Box d.vertices v := fun v => stands_capped fun entry held => by
    rcases sound.cap_or closing entry held with same | ⟨bound, other, _⟩
    · rw [same]
    · simp [bound, other]
  refine ⟨fun h helper => ?_, fun b box => ?_, fun entry moved marked => ?_, fun entry moved star => ?_⟩
  · obtain ⟨b, box, only⟩ := starry.helper h ((helpers h).mp helper)
    exact ⟨b, (boxes b).mpr box, only⟩
  · obtain ⟨three, h, helper, near, only⟩ := starry.box b ((boxes b).mp box)
    exact ⟨three, h, (helpers h).mpr helper, near, fun k known met => only k ((helpers k).mp known) met⟩
  · obtain ⟨old, held, rfl⟩ := List.mem_map.mp moved
    have spider := starry.spider old held ((cap_marker ..).symm.trans marked)
    rcases sound.cap_or closing old held with same | ⟨bound, _⟩
    · exact (congrArg Vertex.kind same).trans spider
    · rw [bound] at spider
      cases spider
  · obtain ⟨old, held, rfl⟩ := List.mem_map.mp moved
    rcases sound.cap_or closing old held with same | ⟨_, _, other⟩
    · dsimp only at star ⊢
      rw [same] at star ⊢
      exact starry.unturned old held star
    · exact other

theorem Stocked.capped (stocked : Stocked d size stars count) : Stocked (d.capped caps) size stars count := by
  refine ⟨stocked.starry.capped sound closing, (List.length_map ..).trans stocked.size, ?_, stocked.count, stocked.simple,
    fun entry moved => ?_⟩
  · rw [Diagram.capped, List.countP_map]
    refine (List.countP_congr fun entry _ => ?_).trans stocked.stars
    rw [Function.comp_apply, cap_marker]
  · obtain ⟨old, held, rfl⟩ := List.mem_map.mp moved
    rcases sound.cap_or closing old held with same | ⟨_, _, other⟩
    · exact (congrArg Vertex.phase same).trans_ne (stocked.fresh old held)
    · exact other

end

theorem Stocked.plugged {ends : List Nat} {states : List BasisState} (stocked : Stocked d size stars count) (sound : d.Sound)
    (bounds : ∀ v ∈ ends, d.IsBoundary v) : Stocked (d.capped (capsOf ends states)) size stars count := by
  refine stocked.capped sound fun v kind phase caps => ?_
  obtain ⟨listed, state, spider⟩ := capsOf_state caps
  have plain : kind ≠ .hBox ∧ phase ≠ .third := by
    cases state <;> cases spider <;> decide
  exact ⟨bounds v listed, plain⟩

end

end

end ToffoliBench.Diagram

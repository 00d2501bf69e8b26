import ToffoliBench.Proofs.Diagram.Stars
import ToffoliBench.Proofs.Diagram.Stock

namespace ToffoliBench.Diagram
open Outcome

variable {d after : Diagram} {h b l r v w : Nat} {x : Vertex} {helpers rest : List Nat} {size stars thirds count : Nat}

theorem Starry.star (starry : Starry d.vertices d.edges) (sound : d.Sound) (helper : Helper d.vertices h) :
    ∃ b l r x, Star d h b l r x := by
  obtain ⟨b, box, only⟩ := starry.helper h helper
  obtain ⟨three, _⟩ := starry.box b box
  have hung : d.neighbors h = [b] := by
    refine List.perm_singleton.mp ((List.perm_ext_iff_of_nodup (sound.neighbors_nodup h) (List.nodup_singleton b)).mpr fun w => ?_)
    rw [sound.mem_neighbors, List.mem_singleton]
    exact only w
  exact ⟨b, (star_iff sound).mpr ⟨hung, box, (degree_eq d b).trans three⟩⟩

-- Of the old vertices all but two stand where they stood.
theorem resolvedStar_stands {p : Vertex → Prop} (new : ¬p (spiderFor x)) :
    Stands p (d.resolvedStar h b l r x).vertices v ↔ Stands p d.vertices v ∧ v ≠ h ∧ v ≠ b := by
  constructor
  · rintro ⟨y, listed, is⟩
    rcases List.mem_cons.mp (resolvedStar_vertices.mem_iff.mp listed) with same | old
    · obtain ⟨_, rfl⟩ := Prod.mk.inj same
      exact absurd is new
    · obtain ⟨old, box⟩ := mem_without_vertices.mp old
      obtain ⟨old, helper⟩ := mem_without_vertices.mp old
      exact ⟨⟨y, old, is⟩, helper, box⟩
  · rintro ⟨⟨y, held, is⟩, helper, box⟩
    have old := mem_without_vertices.mpr ⟨mem_without_vertices.mpr ⟨held, helper⟩, box⟩
    exact ⟨y, resolvedStar_vertices.mem_iff.mpr (List.mem_cons_of_mem _ old), is⟩

-- Away from the star no wire changes.
theorem Star.meets (star : Star d h b l r x) (sound : d.Sound) (old : v ∈ d.ids) (helper : v ≠ h) (box : v ≠ b) (left : v ≠ l)
    (right : v ≠ r) : Meets (d.resolvedStar h b l r x).edges v w ↔ Meets d.edges v w := by
  obtain ⟨i, m, n, before⟩ := star.edges sound
  have live := mem_without_ids.mpr ⟨mem_without_ids.mpr ⟨old, helper⟩, box⟩
  have new : v ≠ (d.unstarred h b).fresh := fun same => ((sound.without h).without b).fresh_new (same ▸ live)
  have between : ∀ a c kind, v ≠ a → v ≠ c → ¬(Edge.between a c kind).Ends v w := fun a c kind one two ends =>
    (Edge.between_ends_iff.mp ends).elim (fun same => one same.1.symm) fun same => two same.2.symm
  simp only [Meets, resolvedStar_edges.mem_iff, before.mem_iff, List.exists_mem_cons_iff, between _ _ _ right new,
    between _ _ _ left new, between _ _ _ helper box, between _ _ _ box left, between _ _ _ box right, false_or]

section

variable (starry : Starry d.vertices d.edges) (sound : d.Sound) (star : Star d h b l r x) (helper : Helper d.vertices h)
include starry sound star

theorem Starry.resolved_helper : Helper (d.resolvedStar h b l r x).vertices v ↔ Helper d.vertices v ∧ v ≠ h := by
  have unmarked : (spiderFor x).marker ≠ some .starHelper := by simp [spiderFor, Vertex.withPhase, Vertex.placed, Vertex.z]
  refine (resolvedStar_stands unmarked).trans ⟨fun all => ⟨all.1, all.2.1⟩, fun both => ⟨both.1, both.2, ?_⟩⟩
  rintro rfl
  exact starry.helper_unboxed sound.nodup both.1 ⟨x, star.box, star.isBox⟩

include helper

theorem Starry.resolved_box : Box (d.resolvedStar h b l r x).vertices v ↔ Box d.vertices v ∧ v ≠ b := by
  have spider : (spiderFor x).kind ≠ .hBox := by simp [spiderFor, Vertex.withPhase, Vertex.placed, Vertex.z]
  refine (resolvedStar_stands spider).trans ⟨fun all => ⟨all.1, all.2.2⟩, fun both => ⟨both.1, ?_, both.2⟩⟩
  rintro rfl
  exact starry.helper_unboxed sound.nodup helper both.1

-- The box of a star has no other helper beside it.
theorem Starry.alone {k : Nat} (other : Helper d.vertices k) (near : d.Adjacent b k) : k = h := by
  obtain ⟨_, mine, _, _, only⟩ := starry.box b ⟨x, star.box, star.isBox⟩
  have own : d.Adjacent b h := (star.outer_adjacent sound).mpr (.inl rfl)
  exact (only k other near).trans (only h helper own).symm

theorem Starry.helper_meets {k : Nat} (other : Helper d.vertices k) (different : k ≠ h) :
    Meets (d.resolvedStar h b l r x).edges k w ↔ Meets d.edges k w := by
  have away : ∀ u, d.Adjacent b u → k ≠ u := by
    rintro u near rfl
    exact different (starry.alone sound star helper other near)
  have notBox : k ≠ b := by
    rintro rfl
    exact starry.helper_unboxed sound.nodup other ⟨x, star.box, star.isBox⟩
  exact star.meets sound other.listed different notBox (away l ((star.outer_adjacent sound).mpr (.inr (.inl rfl))))
    (away r ((star.outer_adjacent sound).mpr (.inr (.inr rfl))))

theorem Starry.resolved : Starry (d.resolvedStar h b l r x).vertices (d.resolvedStar h b l r x).edges := by
  have helpers : ∀ v, Helper (d.resolvedStar h b l r x).vertices v ↔ Helper d.vertices v ∧ v ≠ h := fun v =>
    starry.resolved_helper sound star
  have boxes : ∀ v, Box (d.resolvedStar h b l r x).vertices v ↔ Box d.vertices v ∧ v ≠ b := fun v =>
    starry.resolved_box sound star helper
  have meets : ∀ {k w}, Helper d.vertices k → k ≠ h →
      (Meets (d.resolvedStar h b l r x).edges k w ↔ Meets d.edges k w) := fun other different =>
    starry.helper_meets sound star helper other different
  have source : ∀ entry ∈ (d.resolvedStar h b l r x).vertices, entry.2 = spiderFor x ∨ entry ∈ d.vertices := by
    intro entry listed
    rcases List.mem_cons.mp (resolvedStar_vertices.mem_iff.mp listed) with rfl | old
    · exact .inl rfl
    · exact .inr (mem_without_vertices.mp (mem_without_vertices.mp old).1).1
  refine ⟨fun k known => ?_, fun c known => ?_, fun entry listed marked => ?_, fun entry listed star_ => ?_⟩
  · obtain ⟨other, different⟩ := (helpers k).mp known
    obtain ⟨c, box, only⟩ := starry.helper k other
    refine ⟨c, (boxes c).mpr ⟨box, ?_⟩, fun w => (meets other different).trans (only w)⟩
    rintro rfl
    exact different (starry.alone sound star helper other (Adjacent.symm ((only c).mpr rfl)))
  · obtain ⟨box, different⟩ := (boxes c).mp known
    obtain ⟨three, k, other, near, only⟩ := starry.box c box
    have notHelper : c ≠ h := by
      rintro rfl
      exact starry.helper_unboxed sound.nodup helper box
    have live := mem_without_ids.mpr ⟨mem_without_ids.mpr ⟨box.listed, notHelper⟩, different⟩
    -- The helper of this box is not the one that went, since that one sat on the other box.
    have stays : k ≠ h := by
      rintro rfl
      exact different ((star.helper_adjacent sound).mp near.symm)
    refine ⟨?_, k, (helpers k).mpr ⟨other, stays⟩, ((meets other stays).mpr near.symm).symm, fun u known met => ?_⟩
    · rw [← degree_eq, star.degree sound live, degree_eq]
      exact three
    · obtain ⟨old, apart⟩ := (helpers u).mp known
      exact only u old ((meets old apart).mp met.symm).symm
  · rcases source entry listed with new | old
    · rw [new]
      rfl
    · exact starry.spider entry old marked
  · rcases source entry listed with new | old
    · rw [new] at star_
      simp [spiderFor, Vertex.withPhase, Vertex.placed, Vertex.z] at star_
    · exact starry.unturned entry old star_

end

-- Part of the way: these helpers are left, and so much there will be when they are gone.
structure Pending (d : Diagram) (helpers : List Nat) (size thirds count : Nat) : Prop where
  sound : d.Sound
  starry : Starry d.vertices d.edges
  once : helpers.Nodup
  left : ∀ h, Helper d.vertices h ↔ h ∈ helpers
  size : d.vertices.length = size + helpers.length
  thirds : d.vertices.countP (fun entry => entry.2.phase == .third) + helpers.length = thirds
  count : d.edges.length = count + helpers.length
  simple : ∀ e ∈ d.edges, e.kind = .simple

-- What gadgets have no part in.
structure Beside (d after : Diagram) : Prop where
  scalar : after.scalar = d.scalar
  inputs : after.inputs.Sublist d.inputs
  outputs : after.outputs.Sublist d.outputs

theorem beside_resolvedStar (d : Diagram) (h b l r : Nat) (x : Vertex) : Beside d (d.resolvedStar h b l r x) := by
  have scalar : ∀ (e : Diagram) v, (e.without v).scalar = e.scalar := fun e v => by
    rw [without, drop]
    split <;> rfl
  exact ⟨(scalar _ b).trans (scalar d h), List.filter_sublist.trans List.filter_sublist, List.filter_sublist.trans List.filter_sublist⟩

theorem Beside.trans {middle : Diagram} (first : Beside d middle) (second : Beside middle after) : Beside d after :=
  ⟨second.scalar.trans first.scalar, second.inputs.trans first.inputs, second.outputs.trans first.outputs⟩

theorem Pending.step (pending : Pending d (h :: rest) size thirds count) :
    ∃ after, d.resolveStar h = .ok after ∧ Pending after rest size thirds count ∧ Beside d after := by
  have sound := pending.sound
  have starry := pending.starry
  have helper : Helper d.vertices h := (pending.left h).mpr List.mem_cons_self
  obtain ⟨b, l, r, x, star⟩ := starry.star sound helper
  obtain ⟨new, once⟩ := List.nodup_cons.mp pending.once
  obtain ⟨y, held, vertices⟩ := star.vertices sound
  obtain ⟨i, m, n, edges⟩ := star.edges sound
  have plain : y.phase ≠ .third ∧ x.phase ≠ .third := by
    obtain ⟨z, listed, marked⟩ := helper
    obtain rfl := vertex_unique sound.nodup held listed
    exact ⟨starry.unturned _ held (.inl marked), starry.unturned _ star.box (.inr star.isBox)⟩
  have third : (spiderFor x).phase = .third := rfl
  refine ⟨_, star.resolves sound, ⟨(star.linked sound).2.2, starry.resolved sound star helper, once, fun k => ?_, ?_, ?_, ?_, ?_⟩,
    beside_resolvedStar ..⟩
  · rw [starry.resolved_helper sound star, pending.left, List.mem_cons]
    constructor
    · rintro ⟨rfl | later, different⟩
      · exact absurd rfl different
      · exact later
    · intro later
      refine ⟨.inr later, ?_⟩
      rintro rfl
      exact new later
  · have before := vertices.length_eq.symm.trans pending.size
    rw [resolvedStar_vertices.length_eq]
    simp only [List.length_cons] at before ⊢
    omega
  · have before := pending.thirds
    rw [vertices.countP_eq] at before
    rw [resolvedStar_vertices.countP_eq]
    simp only [List.countP_cons, List.length_cons, third, beq_self_eq_true, if_true, beq_eq_false_iff_ne.mpr plain.1,
      beq_eq_false_iff_ne.mpr plain.2, Bool.false_eq_true, if_false] at before ⊢
    omega
  · have before := edges.length_eq.symm.trans pending.count
    rw [resolvedStar_edges.length_eq]
    simp only [List.length_cons] at before ⊢
    omega
  · have old : ∀ e ∈ (d.unstarred h b).edges, e.kind = .simple := fun e listed =>
      pending.simple e (edges.mem_iff.mpr (List.mem_cons_of_mem _ (List.mem_cons_of_mem _ (List.mem_cons_of_mem _ listed))))
    intro e listed
    rcases List.mem_cons.mp (resolvedStar_edges.mem_iff.mp listed) with rfl | listed
    · rfl
    · rcases List.mem_cons.mp listed with rfl | listed
      · rfl
      · exact old e listed

theorem Pending.run (pending : Pending d helpers size thirds count) :
    ∃ after, d.resolveStars helpers = .ok after ∧ Pending after [] size thirds count ∧ Beside d after := by
  induction helpers generalizing d with
  | nil => exact ⟨d, rfl, pending, rfl, .refl _, .refl _⟩
  | cons h rest ih =>
    obtain ⟨middle, first, left, beside⟩ := pending.step
    obtain ⟨after, others, done, beyond⟩ := ih left
    exact ⟨after, bind_ok.mpr ⟨middle, first, others⟩, done, beside.trans beyond⟩

theorem Pending.boxless (pending : Pending d [] size thirds count) : ¬Box d.vertices v := by
  intro box
  obtain ⟨_, h, helper, _⟩ := pending.starry.box v box
  cases (pending.left h).mp helper

theorem mem_marked {marker : Marker} : v ∈ d.marked marker ↔ Stands (·.marker = some marker) d.vertices v := by
  simp [marked, Stands, List.mem_filter]

-- What is left when all gadgets are resolved.
structure Resolved (d : Diagram) (size thirds count : Nat) : Prop where
  size : d.vertices.length = size
  thirds : d.vertices.countP (fun entry => entry.2.phase == .third) = thirds
  count : d.edges.length = count
  simple : ∀ e ∈ d.edges, e.kind = .simple
  boxless : ∀ entry ∈ d.vertices, entry.2.kind ≠ .hBox
  unmarked : ∀ entry ∈ d.vertices, entry.2.marker = none

theorem Pending.cleared (pending : Pending d [] size thirds count) : Resolved d.clearMarkers size thirds count := by
  have source : ∀ entry ∈ d.clearMarkers.vertices, ∃ x, (entry.1, x) ∈ d.vertices ∧ entry.2 = { x with marker := none } := by
    intro entry listed
    obtain ⟨⟨u, x⟩, held, rfl⟩ := List.mem_map.mp listed
    exact ⟨x, held, rfl⟩
  refine ⟨(List.length_map ..).trans pending.size, ?_, pending.count, pending.simple, fun entry listed => ?_, fun entry listed => ?_⟩
  · rw [clearMarkers, List.countP_map]
    exact pending.thirds
  · obtain ⟨x, held, same⟩ := source entry listed
    rw [same]
    exact fun box => pending.boxless ⟨x, held, box⟩
  · obtain ⟨x, _, same⟩ := source entry listed
    rw [same]

theorem Stocked.pending (stocked : Stocked d (size + stars) stars (count + stars)) (sound : d.Sound) :
    (d.marked .starHelper).length = stars ∧ Pending d (d.marked .starHelper) size stars count := by
  have many : (d.marked .starHelper).length = stars := by
    rw [marked, List.length_map, ← List.countP_eq_length_filter]
    exact stocked.stars
  have none : d.vertices.countP (fun entry => entry.2.phase == .third) = 0 :=
    List.countP_eq_zero.mpr fun entry held => by simpa using stocked.fresh entry held
  refine ⟨many, sound, stocked.starry, sound.nodup.sublist (List.filter_sublist.map _), fun h => mem_marked.symm, ?_, ?_, ?_,
    stocked.simple⟩
  · rw [many]
    exact stocked.size
  · rw [none, many, Nat.zero_add]
  · rw [many]
    exact stocked.count

theorem Stocked.resolves (stocked : Stocked d (size + stars) stars (count + stars)) (sound : d.Sound) :
    ∃ after, d.resolveMarkers = .ok (stars, after) ∧ Resolved after size stars count ∧ Beside d after := by
  obtain ⟨many, pending⟩ := stocked.pending sound
  obtain ⟨after, ran, done, beside⟩ := pending.run
  refine ⟨after.clearMarkers, bind_ok.mpr ⟨after, ran, ?_⟩, done.cleared, beside.scalar, beside.inputs, beside.outputs⟩
  rw [many]
  rfl

end ToffoliBench.Diagram

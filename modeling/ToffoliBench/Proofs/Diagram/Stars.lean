import ToffoliBench.Diagram.Star
import ToffoliBench.Proofs.Diagram.WellFormed

namespace ToffoliBench.Diagram
open Outcome

variable {d after : Diagram} {h b l r u v w : Nat} {x : Vertex}

-- A helper on a box that has two more neighbours.
structure Star (d : Diagram) (h b l r : Nat) (x : Vertex) : Prop where
  helper : d.neighbors h = [b]
  box : (b, x) ∈ d.vertices
  isBox : x.kind = .hBox
  outer : (d.neighbors b).filter (· != h) = [l, r]

def spiderFor (box : Vertex) : Vertex := (Vertex.z.withPhase .third).placed box.qubit box.row

-- A vertex gone with its wires and from the lists.
def without (d : Diagram) (v : Nat) : Diagram :=
  { d.drop v with inputs := d.inputs.filter (· != v), outputs := d.outputs.filter (· != v) }

def unstarred (d : Diagram) (h b : Nat) : Diagram := (d.without h).without b

def resolvedStar (d : Diagram) (h b l r : Nat) (x : Vertex) : Diagram :=
  (((d.unstarred h b).add (spiderFor x)).link l (d.unstarred h b).fresh .simple).link r (d.unstarred h b).fresh .simple

theorem remove_ok {entry : Vertex × Diagram} : d.remove v = .ok entry ↔ d.vertex? v = some entry.1 ∧ entry.2 = d.without v := by
  obtain ⟨x, after⟩ := entry
  unfold remove
  split
  · rename_i absent
    simp [absent]
  · rename_i found
    simp [found, without, eq_comm]

theorem Sound.without (sound : d.Sound) (v : Nat) : (d.without v).Sound :=
  (sound.drop v).congr rfl rfl rfl rfl

theorem mem_without_vertices {entry : Nat × Vertex} : entry ∈ (d.without v).vertices ↔ entry ∈ d.vertices ∧ entry.1 ≠ v :=
  mem_drop_vertices

theorem mem_without_ids : u ∈ (d.without v).ids ↔ u ∈ d.ids ∧ u ≠ v := by
  rw [show (d.without v).ids = (d.drop v).ids from rfl, drop_ids, List.mem_filter, bne_iff_ne]

theorem kind_ok (sound : d.Sound) {kind : VertexKind} : d.kind v = .ok kind ↔ ∃ x, (v, x) ∈ d.vertices ∧ x.kind = kind := by
  unfold Diagram.kind
  split
  · rename_i x found
    have held := (vertex_iff sound.nodup).mp found
    constructor
    · intro same
      exact ⟨x, held, Except.ok.inj same⟩
    · rintro ⟨y, again, rfl⟩
      rw [vertex_unique sound.nodup held again]
  · rename_i absent
    simp only [reduceCtorEq, false_iff]
    rintro ⟨x, held, _⟩
    rw [(vertex_iff sound.nodup).mpr held] at absent
    cases absent

theorem starAt_ok (sound : d.Sound) {gadget : StarGadget} : d.starAt h = .ok gadget ↔
    gadget.helper = h ∧ ∃ x, Star d h gadget.hBox gadget.left gadget.right x := by
  obtain ⟨helper, b, l, r⟩ := gadget
  unfold starAt
  constructor
  · intro done
    split at done
    · rename_i box hung
      obtain ⟨kind, known, done⟩ := bind_ok.mp done
      obtain ⟨x, held, rfl⟩ := (kind_ok sound).mp known
      split at done
      · cases done
      · rename_i isBox
        split at done
        · rename_i outer
          obtain ⟨rfl, rfl, rfl, rfl⟩ := StarGadget.mk.inj (pure_ok.mp done)
          exact ⟨rfl, x, hung, held, not_not.mp isBox, outer⟩
        · cases done
    · cases done
  · rintro ⟨rfl, x, star⟩
    have known := (kind_ok sound).mpr ⟨x, star.box, star.isBox⟩
    simp only [star.helper]
    refine bind_ok.mpr ⟨_, known, ?_⟩
    simp [star.outer, pure, Except.pure]

namespace Star

variable (star : Star d h b l r x) (sound : d.Sound)
include star sound

theorem helper_adjacent : d.Adjacent h w ↔ w = b := by
  rw [← sound.mem_neighbors, star.helper, List.mem_singleton]

theorem outer_adjacent : d.Adjacent b w ↔ w = h ∨ w = l ∨ w = r := by
  have hung : d.Adjacent b h := ((star.helper_adjacent sound).mpr rfl).symm
  have others : ∀ u, u ∈ [l, r] ↔ d.Adjacent b u ∧ u ≠ h := fun u => by
    rw [← star.outer, List.mem_filter, sound.mem_neighbors, bne_iff_ne]
  have outer := others w
  simp only [List.mem_cons, List.not_mem_nil, or_false] at outer
  by_cases same : w = h
  · simp [same, hung]
  · rw [outer]
    simp [same]

theorem distinct : b ≠ h ∧ (l ≠ h ∧ l ≠ b) ∧ (r ≠ h ∧ r ≠ b) ∧ l ≠ r := by
  have left := (star.outer_adjacent sound).mpr (.inr (.inl rfl))
  have right := (star.outer_adjacent sound).mpr (.inr (.inr rfl))
  have once := (sound.neighbors_nodup b).filter (· != h)
  have others : ∀ u ∈ [l, r], u ≠ h := fun u held => by
    rw [← star.outer, List.mem_filter, bne_iff_ne] at held
    exact held.2
  rw [star.outer] at once
  refine ⟨sound.adjacent_ne ((star.helper_adjacent sound).mpr rfl).symm, ⟨others l (by simp), (sound.adjacent_ne left).symm⟩,
    ⟨others r (by simp), (sound.adjacent_ne right).symm⟩, by simpa using once⟩

theorem outer_live : (l ∈ (d.unstarred h b).ids ∧ r ∈ (d.unstarred h b).ids) ∧
    l ≠ (d.unstarred h b).fresh ∧ r ≠ (d.unstarred h b).fresh := by
  have new := ((sound.without h).without b).fresh_new
  obtain ⟨_, ⟨leftHelper, leftBox⟩, ⟨rightHelper, rightBox⟩, _⟩ := star.distinct sound
  have leftLive := (sound.adjacent_live ((star.outer_adjacent sound).mpr (.inr (.inl rfl)))).2
  have rightLive := (sound.adjacent_live ((star.outer_adjacent sound).mpr (.inr (.inr rfl)))).2
  have left : l ∈ (d.unstarred h b).ids := mem_without_ids.mpr ⟨mem_without_ids.mpr ⟨leftLive, leftHelper⟩, leftBox⟩
  have right : r ∈ (d.unstarred h b).ids := mem_without_ids.mpr ⟨mem_without_ids.mpr ⟨rightLive, rightHelper⟩, rightBox⟩
  exact ⟨⟨left, right⟩, fun same => new (same ▸ left), fun same => new (same ▸ right)⟩

-- The new spider can take both of its wires.
theorem linked : ((d.unstarred h b).add (spiderFor x)).addEdge l (d.unstarred h b).fresh .simple =
      .ok (((d.unstarred h b).add (spiderFor x)).link l (d.unstarred h b).fresh .simple) ∧
    (((d.unstarred h b).add (spiderFor x)).link l (d.unstarred h b).fresh .simple).addEdge r (d.unstarred h b).fresh .simple =
      .ok (d.resolvedStar h b l r x) ∧ (d.resolvedStar h b l r x).Sound := by
  have opened : (d.unstarred h b).Sound := (sound.without h).without b
  have added := opened.add (spiderFor x)
  obtain ⟨⟨left, right⟩, leftNew, rightNew⟩ := star.outer_live sound
  have ids : ∀ u, u ∈ ((d.unstarred h b).add (spiderFor x)).ids ↔ u = (d.unstarred h b).fresh ∨ u ∈ (d.unstarred h b).ids := fun u => by
    rw [(add_ids _ _).mem_iff, List.mem_cons]
  have bare : ∀ u, ¬((d.unstarred h b).add (spiderFor x)).Adjacent u (d.unstarred h b).fresh := fun u near =>
    opened.fresh_new (opened.adjacent_live near).2
  have first := added.link ((ids l).mpr (.inr left)) ((ids _).mpr (.inl rfl)) leftNew (bare l) .simple
  have apart : ¬(((d.unstarred h b).add (spiderFor x)).link l (d.unstarred h b).fresh .simple).Adjacent r (d.unstarred h b).fresh := by
    intro near
    rcases link_adjacent.mp near with old | ⟨same, _⟩ | ⟨same, _⟩
    · exact bare r old
    · exact (star.distinct sound).2.2.2 same
    · exact leftNew same
  refine ⟨(addEdge_ok added).mpr ⟨(ids l).mpr (.inr left), (ids _).mpr (.inl rfl), leftNew, bare l, rfl⟩,
    (addEdge_ok first).mpr ⟨(ids r).mpr (.inr right), (ids _).mpr (.inl rfl), rightNew, apart, rfl⟩, ?_⟩
  exact first.link ((ids r).mpr (.inr right)) ((ids _).mpr (.inl rfl)) rightNew apart .simple

theorem resolves : d.resolveStar h = .ok (d.resolvedStar h b l r x) := by
  obtain ⟨one, two, _⟩ := star.linked sound
  have found : d.starAt h = .ok ⟨h, b, l, r⟩ := (starAt_ok sound).mpr ⟨rfl, x, star⟩
  have helperLive := (sound.adjacent_live ((star.helper_adjacent sound).mpr rfl)).1
  obtain ⟨y, held⟩ : ∃ y, (h, y) ∈ d.vertices := by
    obtain ⟨⟨_, y⟩, held, rfl⟩ := List.mem_map.mp helperLive
    exact ⟨y, held⟩
  have first : d.remove h = .ok (y, d.without h) := remove_ok.mpr ⟨(vertex_iff sound.nodup).mpr held, rfl⟩
  have boxHeld := (vertex_iff (sound.without _).nodup).mpr (mem_without_vertices.mpr ⟨star.box, (star.distinct sound).1⟩)
  have second : (d.without h).remove b = .ok (x, d.unstarred h b) := remove_ok.mpr ⟨boxHeld, rfl⟩
  refine bind_ok.mpr ⟨_, mapError_ok.mpr found, bind_ok.mpr ⟨_, mapError_ok.mpr first, ?_⟩⟩
  exact bind_ok.mpr ⟨_, mapError_ok.mpr second, bind_ok.mpr ⟨_, mapError_ok.mpr one, mapError_ok.mpr two⟩⟩

end Star

-- A helper on a box with three neighbours has a star, whatever the other two neighbours are.
theorem star_iff (sound : d.Sound) : (∃ l r x, Star d h b l r x) ↔
    d.neighbors h = [b] ∧ (∃ x, (b, x) ∈ d.vertices ∧ x.kind = .hBox) ∧ d.degree b = 3 := by
  have split : d.neighbors h = [b] → ((d.neighbors b).filter (· != h)).length + 1 = d.degree b := fun hung => by
    have here : h ∈ d.neighbors b := by
      rw [sound.mem_neighbors]
      exact Adjacent.symm (sound.mem_neighbors.mp (hung ▸ List.mem_singleton_self b))
    rw [← (sound.neighbors_nodup b).erase_eq_filter, List.length_erase_add_one here, degree]
  constructor
  · rintro ⟨l, r, x, hung, held, isBox, outer⟩
    refine ⟨hung, ⟨x, held, isBox⟩, ?_⟩
    rw [← split hung, outer]
    rfl
  · rintro ⟨hung, ⟨x, held, isBox⟩, three⟩
    rw [← split hung] at three
    obtain ⟨l, r, outer⟩ := List.length_eq_two.mp (Nat.succ.inj three)
    exact ⟨l, r, x, hung, held, isBox, outer⟩

theorem resolveStar_ok (sound : d.Sound) : d.resolveStar h = .ok after ↔ ∃ b l r x, Star d h b l r x ∧
    after = d.resolvedStar h b l r x := by
  constructor
  · intro done
    obtain ⟨⟨_, b, l, r⟩, found, _⟩ := bind_ok.mp done
    obtain ⟨_, x, star⟩ := (starAt_ok sound).mp (mapError_ok.mp found)
    exact ⟨b, l, r, x, star, Except.ok.inj (done.symm.trans (star.resolves sound))⟩
  · rintro ⟨b, l, r, x, star, rfl⟩
    exact star.resolves sound

section

variable (star : Star d h b l r x) (sound : d.Sound)
include star sound

-- The three wires of a gadget, and all the others.
theorem Star.edges : ∃ i m n, d.edges.Perm
    (.between h b i :: .between b l m :: .between b r n :: (d.unstarred h b).edges) := by
  have helper := star.helper
  have outer := star.outer
  rw [neighbors_eq] at helper outer
  rw [List.filter_map] at outer
  obtain ⟨i, single⟩ : ∃ i, d.incident h = [(b, i)] := by
    obtain ⟨⟨_, i⟩, single, rfl⟩ := List.map_eq_singleton_iff.mp helper
    exact ⟨i, single⟩
  obtain ⟨m, n, pair⟩ : ∃ m n, (d.incident b).filter ((· != h) ∘ Prod.fst) = [(l, m), (r, n)] := by
    obtain ⟨⟨_, m⟩, rest, pair, rfl, again⟩ := List.map_eq_cons_iff.mp outer
    obtain ⟨⟨_, n⟩, rfl, rfl⟩ := List.map_eq_singleton_iff.mp again
    exact ⟨m, n, pair⟩
  refine ⟨i, m, n, ?_⟩
  have first := wires_at sound.ordered h
  rw [show (d.edges.filterMap fun e => (e.other? h).map fun w => (w, e.kind)) = _ from single, ← sound.drop_edges h] at first
  have dropped := sound.drop h
  have second := wires_at dropped.ordered b
  rw [show ((d.drop h).edges.filterMap fun e => (e.other? b).map fun w => (w, e.kind)) = _ from
    (sound.drop_incident (star.distinct sound).1).trans pair, ← dropped.drop_edges b] at second
  have same : (d.unstarred h b).edges = ((d.drop h).drop b).edges := by
    rw [dropped.drop_edges]
    exact (sound.without h).drop_edges b
  rw [same]
  exact first.trans (second.cons _)

theorem Star.vertices : ∃ y, (h, y) ∈ d.vertices ∧ d.vertices.Perm ((h, y) :: (b, x) :: (d.unstarred h b).vertices) := by
  obtain ⟨⟨_, y⟩, held, rfl⟩ := List.mem_map.mp (sound.adjacent_live ((star.helper_adjacent sound).mpr rfl)).1
  refine ⟨y, held, (drop_vertices sound.nodup held).trans (List.Perm.cons _ ?_)⟩
  exact drop_vertices (sound.without _).nodup (mem_without_vertices.mpr ⟨star.box, (star.distinct sound).1⟩)

end

theorem resolvedStar_vertices : (d.resolvedStar h b l r x).vertices.Perm
    (((d.unstarred h b).fresh, spiderFor x) :: (d.unstarred h b).vertices) := add_vertices ..

theorem resolvedStar_edges : (d.resolvedStar h b l r x).edges.Perm (.between r (d.unstarred h b).fresh .simple ::
    .between l (d.unstarred h b).fresh .simple :: (d.unstarred h b).edges) :=
  (link_edges ..).trans ((link_edges ..).cons _)

-- Whoever was next to the box is now next to the spider.
theorem Star.degree (star : Star d h b l r x) (sound : d.Sound) (live : v ∈ (d.unstarred h b).ids) :
    (d.resolvedStar h b l r x).degree v = d.degree v := by
  obtain ⟨i, m, n, before⟩ := star.edges sound
  obtain ⟨held, box⟩ := mem_without_ids.mp live
  obtain ⟨_, helper⟩ := mem_without_ids.mp held
  have new : (d.unstarred h b).fresh ≠ v := fun same => ((sound.without h).without b).fresh_new (same ▸ live)
  rw [degree_perm resolvedStar_edges, degree_perm before]
  simp only [List.countP_cons, Edge.touches_between, new, box.symm, helper.symm, or_false, false_or, if_false, Nat.add_zero]
  omega

theorem resolveStar_wellFormed (formed : d.WellFormed) (done : d.resolveStar h = .ok after) : after.WellFormed := by
  obtain ⟨b, l, r, x, star, rfl⟩ := (resolveStar_ok formed.toSound).mp done
  have sound := formed.toSound
  have listed : ∀ vs : List Nat, ∀ v, v ∈ (vs.filter (· != h)).filter (· != b) ↔ v ∈ vs ∧ v ≠ h ∧ v ≠ b := fun vs v => by
    simp only [List.mem_filter, bne_iff_ne, and_assoc]
  have members : ∀ v, v ∈ (d.resolvedStar h b l r x).inputs ++ (d.resolvedStar h b l r x).outputs ↔
      v ∈ d.inputs ++ d.outputs ∧ v ≠ h ∧ v ≠ b := fun v => by
    rw [List.mem_append, List.mem_append, or_and_right, ← listed, ← listed]
    rfl
  refine ⟨(star.linked sound).2.2, ?_, fun v => ?_, fun v present => ?_⟩
  · exact formed.distinct.sublist ((List.filter_sublist.trans List.filter_sublist).append (List.filter_sublist.trans List.filter_sublist))
  · rw [members, formed.covered]
    constructor
    · rintro ⟨⟨y, held, bound⟩, helper, box⟩
      refine ⟨y, resolvedStar_vertices.mem_iff.mpr (List.mem_cons_of_mem _ ?_), bound⟩
      exact mem_without_vertices.mpr ⟨mem_without_vertices.mpr ⟨held, helper⟩, box⟩
    · rintro ⟨y, held, bound⟩
      rcases List.mem_cons.mp (resolvedStar_vertices.mem_iff.mp held) with new | old
      · obtain ⟨_, rfl⟩ := Prod.mk.inj new
        cases bound
      · obtain ⟨old, box⟩ := mem_without_vertices.mp old
        obtain ⟨old, helper⟩ := mem_without_vertices.mp old
        exact ⟨⟨y, old, bound⟩, helper, box⟩
  · obtain ⟨old, helper, box⟩ := (members v).mp present
    have live := ((formed.covered v).mp old).live
    rw [star.degree sound (mem_without_ids.mpr ⟨mem_without_ids.mpr ⟨live, helper⟩, box⟩)]
    exact formed.single v old

theorem resolveStars_wellFormed {helpers : List Nat} (formed : d.WellFormed) (done : d.resolveStars helpers = .ok after) :
    after.WellFormed := by
  induction helpers generalizing d with
  | nil =>
    obtain rfl := Except.ok.inj done
    exact formed
  | cons h rest ih =>
    obtain ⟨middle, first, others⟩ := bind_ok.mp done
    exact ih (resolveStar_wellFormed formed first) others

theorem clearMarkers_ids (d : Diagram) : d.clearMarkers.ids = d.ids := by
  simp [ids, clearMarkers, Function.comp_def]

theorem WellFormed.clearMarkers (formed : d.WellFormed) : d.clearMarkers.WellFormed := by
  have boundaries : ∀ v, d.clearMarkers.IsBoundary v ↔ d.IsBoundary v := fun _ => exists_vertex_map fun _ _ => Iff.rfl
  exact ⟨formed.toSound.congr (clearMarkers_ids d) rfl rfl rfl, formed.distinct,
    fun v => (formed.covered v).trans (boundaries v).symm, formed.single⟩

theorem resolveMarkers_wellFormed {count : Nat} (formed : d.WellFormed) (done : d.resolveMarkers = .ok (count, after)) :
    after.WellFormed := by
  obtain ⟨resolved, stars, done⟩ := bind_ok.mp done
  obtain ⟨_, rfl⟩ := Prod.mk.inj (pure_ok.mp done)
  exact (resolveStars_wellFormed formed stars).clearMarkers

end ToffoliBench.Diagram

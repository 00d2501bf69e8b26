import ToffoliBench.Proofs.Diagram.Resolution
import ToffoliBench.Proofs.Diagram.Sewing

namespace ToffoliBench.Diagram
open Outcome

variable {d after one two : Diagram} {h b c k l r v w : Nat} {x : Vertex} {helpers boxes rest order : List Nat}

-- The gadgets of these helpers and boxes rewritten in one go; each helper's name is free after it.
def atOnce (d : Diagram) (helpers boxes : List Nat) : Diagram :=
  { d with
    vertices := (d.vertices.filter fun entry => entry.1 ∉ helpers).map fun entry =>
      (entry.1, if entry.1 ∈ boxes then spiderFor entry.2 else entry.2)
    edges := (d.edges.filter fun e => e.low ∉ helpers ∧ e.high ∉ helpers).map fun e =>
      { e with kind := if e.low ∈ boxes ∨ e.high ∈ boxes then .simple else e.kind }
    freed := helpers.reverse ++ d.freed
    inputs := d.inputs.filter fun v => v ∉ helpers ∧ v ∉ boxes
    outputs := d.outputs.filter fun v => v ∉ helpers ∧ v ∉ boxes }

theorem atOnce_nil : d.atOnce [] [] = d := by
  have wires : ∀ e : Edge, { e with kind := e.kind } = e := fun _ => rfl
  simp [atOnce]

-- A spider in the place of a spider stands where it stood, and a plain wire stays plain.
theorem atOnce_atOnce (helpers boxes more others : List Nat) :
    (d.atOnce helpers boxes).atOnce more others = d.atOnce (helpers ++ more) (boxes ++ others) := by
  have again : ∀ x : Vertex, spiderFor (spiderFor x) = spiderFor x := fun _ => rfl
  have vertices : ((d.atOnce helpers boxes).atOnce more others).vertices = (d.atOnce (helpers ++ more) (boxes ++ others)).vertices := by
    simp only [atOnce, List.filter_map, List.map_map, List.filter_filter]
    refine (List.map_congr_left fun entry _ => ?_).trans (congrArg _ (List.filter_congr fun entry _ => ?_))
    · by_cases old : entry.1 ∈ boxes <;> by_cases new : entry.1 ∈ others <;> simp [old, new, again]
    · simp [Bool.and_comm]
  have edges : ((d.atOnce helpers boxes).atOnce more others).edges = (d.atOnce (helpers ++ more) (boxes ++ others)).edges := by
    simp only [atOnce, List.filter_map, List.map_map, List.filter_filter]
    refine (List.map_congr_left fun e _ => ?_).trans (congrArg _ (List.filter_congr fun e _ => ?_))
    · by_cases old : e.low ∈ boxes ∨ e.high ∈ boxes <;> by_cases new : e.low ∈ others ∨ e.high ∈ others <;>
        simp [old, new, List.mem_append, or_or_or_comm]
    · rw [Bool.eq_iff_iff]
      simp only [Function.comp_apply, Bool.and_eq_true, decide_eq_true_eq, List.mem_append, not_or]
      tauto
  have listed : ∀ vs : List Nat, (vs.filter fun v => v ∉ helpers ∧ v ∉ boxes).filter (fun v => v ∉ more ∧ v ∉ others) =
      vs.filter fun v => v ∉ helpers ++ more ∧ v ∉ boxes ++ others := fun vs => by
    rw [List.filter_filter]
    refine List.filter_congr fun v _ => ?_
    rw [Bool.eq_iff_iff]
    simp only [Bool.and_eq_true, decide_eq_true_eq, List.mem_append, not_or]
    tauto
  have freed : more.reverse ++ (helpers.reverse ++ d.freed) = (helpers ++ more).reverse ++ d.freed := by simp
  obtain ⟨_, _, _, _, _, _, _⟩ := d
  simp only [atOnce, Diagram.mk.injEq] at vertices edges ⊢
  exact ⟨vertices, edges, freed, trivial, listed _, listed _, trivial⟩

theorem vertices_sorted_eq {vs ws : List (Nat × Vertex)} (left : (vs.map Prod.fst).Pairwise (· < ·))
    (right : (ws.map Prod.fst).Pairwise (· < ·)) (same : vs.Perm ws) : vs = ws := by
  rw [List.pairwise_map] at left right
  exact same.eq_of_pairwise (fun _ _ _ _ less more => absurd less (Nat.lt_asymm more)) left right

theorem atOnce_ids : (d.atOnce helpers boxes).ids = d.ids.filter (· ∉ helpers) := by
  simp only [ids, atOnce, List.map_map, List.filter_map, Function.comp_def]

theorem mem_atOnce_vertices {y : Vertex} : (v, y) ∈ (d.atOnce helpers boxes).vertices ↔
    v ∉ helpers ∧ ∃ x, (v, x) ∈ d.vertices ∧ y = if v ∈ boxes then spiderFor x else x := by
  simp only [atOnce, List.mem_map, List.mem_filter, decide_eq_true_eq, Prod.mk.injEq]
  constructor
  · rintro ⟨⟨_, x⟩, ⟨held, stays⟩, rfl, rfl⟩
    exact ⟨stays, x, held, rfl⟩
  · rintro ⟨stays, x, held, rfl⟩
    exact ⟨(v, x), ⟨held, stays⟩, rfl, rfl⟩

theorem atOnce_neighbors (stays : v ∉ helpers) : (d.atOnce helpers boxes).neighbors v = (d.neighbors v).filter (· ∉ helpers) := by
  simp only [neighbors, atOnce, List.filterMap_map, List.filterMap_filter, List.filter_filterMap]
  refine List.filterMap_congr fun e _ => ?_
  simp only [Function.comp_apply, Edge.other?]
  by_cases low : e.low = v
  · by_cases gone : e.high ∈ helpers <;> simp [low, stays, gone, Option.filter]
  · by_cases high : e.high = v
    · by_cases gone : e.low ∈ helpers <;> simp [low, high, stays, gone, Option.filter]
    · simp [low, high]

theorem atOnce_box : Box (d.atOnce helpers boxes).vertices v ↔ Box d.vertices v ∧ v ∉ helpers ∧ v ∉ boxes := by
  constructor
  · rintro ⟨y, listed, isBox⟩
    obtain ⟨stays, x, held, rfl⟩ := mem_atOnce_vertices.mp listed
    by_cases taken : v ∈ boxes
    · simp [taken, spiderFor, Vertex.withPhase, Vertex.placed, Vertex.z] at isBox
    · rw [if_neg taken] at isBox
      exact ⟨⟨x, held, isBox⟩, stays, taken⟩
  · rintro ⟨⟨x, held, isBox⟩, stays, free⟩
    exact ⟨x, mem_atOnce_vertices.mpr ⟨stays, x, held, (if_neg free).symm⟩, isBox⟩

theorem unstarred_away (live : v ∈ (d.unstarred h b).ids) : v ≠ h ∧ v ≠ b := by
  obtain ⟨kept, box⟩ := mem_without_ids.mp live
  exact ⟨(mem_without_ids.mp kept).2, box⟩

section

variable (star : Star d h b l r x) (sound : d.Sound)
include star sound

theorem Star.fresh : (d.unstarred h b).freed = b :: h :: d.freed ∧ (d.unstarred h b).next = d.next := by
  have helperLive := (sound.adjacent_live ((star.helper_adjacent sound).mpr rfl)).1
  have boxLive : b ∈ (d.without h).ids :=
    mem_without_ids.mpr ⟨(sound.adjacent_live ((star.helper_adjacent sound).mpr rfl)).2, (star.distinct sound).1⟩
  have first : (d.without h).freed = h :: d.freed ∧ (d.without h).next = d.next := by
    simp [without, drop, contains_iff.mpr helperLive]
  have second : ((d.without h).drop b).freed = b :: (d.without h).freed ∧ ((d.without h).drop b).next = (d.without h).next := by
    simp [drop, contains_iff.mpr boxLive]
  exact ⟨second.1.trans (congrArg _ first.1), second.2.trans first.2⟩

theorem Star.spider_name : (d.unstarred h b).fresh = b := by
  rw [Diagram.fresh, (star.fresh sound).1, List.headD_cons]

theorem Star.atOnce_vertices : (d.resolvedStar h b l r x).vertices = (d.atOnce [h] [b]).vertices := by
  have apart := (star.distinct sound).1
  obtain ⟨y, held, before⟩ := star.vertices sound
  have others : ((d.unstarred h b).vertices.filter fun entry => entry.1 ∉ [h]).map
      (fun entry => (entry.1, if entry.1 ∈ [b] then spiderFor entry.2 else entry.2)) = (d.unstarred h b).vertices := by
    have away : ∀ entry ∈ (d.unstarred h b).vertices, entry.1 ≠ h ∧ entry.1 ≠ b := fun entry listed =>
      unstarred_away (List.mem_map_of_mem listed)
    rw [List.filter_eq_self.mpr fun entry listed => by simp [(away entry listed).1],
      List.map_congr_left fun entry listed => by rw [if_neg (by simp [(away entry listed).2])], List.map_id']
  refine vertices_sorted_eq (star.linked sound).2.2.ascending ?_ (resolvedStar_vertices.trans ?_)
  · exact (show (d.atOnce [h] [b]).ids.Pairwise (· < ·) from atOnce_ids ▸ sound.ascending.filter _)
  · refine List.Perm.symm (((before.filter _).map _).trans (.of_eq ?_))
    rw [List.filter_cons_of_neg (by simp), List.filter_cons_of_pos (by simp [apart]), List.map_cons, others, star.spider_name sound]
    simp

theorem Star.atOnce_edges : (d.resolvedStar h b l r x).edges = (d.atOnce [h] [b]).edges := by
  have opened : (d.unstarred h b).Sound := (sound.without h).without b
  obtain ⟨boxHelper, ⟨leftHelper, leftBox⟩, ⟨rightHelper, rightBox⟩, _⟩ := star.distinct sound
  obtain ⟨i, m, n, wires⟩ := star.edges sound
  have others : ((d.unstarred h b).edges.filter fun e => e.low ∉ [h] ∧ e.high ∉ [h]).map
      (fun e => { e with kind := if e.low ∈ [b] ∨ e.high ∈ [b] then .simple else e.kind }) = (d.unstarred h b).edges := by
    have away : ∀ e ∈ (d.unstarred h b).edges, (e.low ≠ h ∧ e.low ≠ b) ∧ e.high ≠ h ∧ e.high ≠ b := fun e listed =>
      ⟨unstarred_away (opened.live e listed).1, unstarred_away (opened.live e listed).2⟩
    rw [List.filter_eq_self.mpr fun e listed => by simp [away e listed],
      List.map_congr_left fun e listed => by rw [if_neg (by simp [away e listed])], List.map_id']
  have gone : ¬((Edge.between h b i).low ∉ [h] ∧ (Edge.between h b i).high ∉ [h]) := by
    simp only [Edge.between, List.mem_singleton]
    omega
  have kept : ∀ v kind, v ≠ h → (Edge.between b v kind).low ∉ [h] ∧ (Edge.between b v kind).high ∉ [h] := fun v kind apart => by
    simp only [Edge.between, List.mem_singleton]
    omega
  have plain : ∀ v kind, { Edge.between b v kind with
      kind := if (Edge.between b v kind).low ∈ [b] ∨ (Edge.between b v kind).high ∈ [b] then .simple else kind } =
      Edge.between v b .simple := fun v kind => by
    have touched : (Edge.between b v kind).low ∈ [b] ∨ (Edge.between b v kind).high ∈ [b] := by
      simp only [Edge.between, List.mem_singleton]
      omega
    rw [if_pos touched]
    exact Edge.mk.injEq .. ▸ ⟨Nat.min_comm b v, Nat.max_comm b v, rfl⟩
  refine edges_sorted_eq (star.linked sound).2.2.sorted ?_ fun e => List.Perm.mem_iff (resolvedStar_edges.trans ?_)
  · exact List.pairwise_map.mpr (sound.sorted.filter _)
  · refine List.Perm.symm (((wires.filter _).map _).trans ?_)
    rw [List.filter_cons_of_neg (by simpa using gone), List.filter_cons_of_pos (by simpa using kept l m leftHelper),
      List.filter_cons_of_pos (by simpa using kept r n rightHelper), List.map_cons, List.map_cons, others, star.spider_name sound]
    exact (List.Perm.of_eq (congrArg₂ List.cons (plain l m) (congrArg₂ List.cons (plain r n) rfl))).trans (.swap _ _ _)

theorem Star.atOnce : d.resolvedStar h b l r x = d.atOnce [h] [b] := by
  obtain ⟨freed, next⟩ := star.fresh sound
  have vertices := star.atOnce_vertices sound
  have edges := star.atOnce_edges sound
  have freed' : (d.resolvedStar h b l r x).freed = (d.atOnce [h] [b]).freed := by
    rw [show (d.resolvedStar h b l r x).freed = (d.unstarred h b).freed.tail from rfl, freed]
    rfl
  have next' : (d.resolvedStar h b l r x).next = (d.atOnce [h] [b]).next := by
    rw [show (d.resolvedStar h b l r x).next = if (d.unstarred h b).freed.isEmpty then (d.unstarred h b).next + 1 else (d.unstarred h b).next
      from rfl, freed]
    exact next
  have listed : ∀ vs : List Nat, (vs.filter (· != h)).filter (· != b) = vs.filter fun v => v ∉ [h] ∧ v ∉ [b] := fun vs => by
    rw [List.filter_filter]
    refine List.filter_congr fun v _ => ?_
    rw [Bool.eq_iff_iff]
    simp [and_comm]
  have inputs : (d.resolvedStar h b l r x).inputs = (d.atOnce [h] [b]).inputs := listed d.inputs
  have outputs : (d.resolvedStar h b l r x).outputs = (d.atOnce [h] [b]).outputs := listed d.outputs
  have scalar := (beside_resolvedStar d h b l r x).scalar
  generalize d.resolvedStar h b l r x = after at *
  obtain ⟨_, _, _, _, _, _, _⟩ := after
  simp only at vertices edges freed' next' inputs outputs scalar
  subst vertices edges freed' next' inputs outputs scalar
  rfl

end

-- A helper with a box of three neighbours.
structure Gadget (d : Diagram) (h b : Nat) : Prop where
  hung : d.neighbors h = [b]
  box : Box d.vertices b
  three : d.degree b = 3

theorem resolveStar_atOnce (sound : d.Sound) : d.resolveStar h = .ok after ↔ ∃ b, Gadget d h b ∧ after = d.atOnce [h] [b] := by
  rw [resolveStar_ok sound]
  constructor
  · rintro ⟨b, l, r, x, star, rfl⟩
    obtain ⟨hung, box, three⟩ := (star_iff sound).mp ⟨l, r, x, star⟩
    exact ⟨b, ⟨hung, box, three⟩, star.atOnce sound⟩
  · rintro ⟨b, ⟨hung, box, three⟩, rfl⟩
    obtain ⟨l, r, x, star⟩ := (star_iff sound).mpr ⟨hung, box, three⟩
    exact ⟨b, l, r, x, star, (star.atOnce sound).symm⟩

section

variable (gadget : Gadget d h b) (sound : d.Sound)
include gadget sound

theorem Gadget.adjacent : d.Adjacent h w ↔ w = b := by
  rw [← sound.mem_neighbors, gadget.hung, List.mem_singleton]

theorem Gadget.atOnce_sound : (d.atOnce [h] [b]).Sound := by
  obtain ⟨l, r, x, star⟩ := (star_iff sound).mpr ⟨gadget.hung, gadget.box, gadget.three⟩
  exact star.atOnce sound ▸ (star.linked sound).2.2

theorem Gadget.cleared : (d.atOnce [h] [b]).neighbors h = [] := by
  refine List.eq_nil_iff_forall_not_mem.mpr fun w near => ?_
  have after := gadget.atOnce_sound sound
  have live := (after.adjacent_live (after.mem_neighbors.mp near)).1
  simp [atOnce_ids] at live

theorem Gadget.untouched (helper : v ≠ h) (box : v ≠ b) : (d.atOnce [h] [b]).neighbors v = d.neighbors v := by
  rw [atOnce_neighbors (by simpa using helper)]
  refine List.filter_eq_self.mpr fun w near => ?_
  have apart : w ≠ h := by
    rintro rfl
    exact box ((gadget.adjacent sound).mp (sound.mem_neighbors.mp near).symm)
  simpa using apart

theorem Gadget.box_degree : (d.atOnce [h] [b]).degree b = 2 := by
  have onBox : d.Adjacent b h := ((gadget.adjacent sound).mpr rfl).symm
  have apart := sound.adjacent_ne onBox
  have here : h ∈ d.neighbors b := sound.mem_neighbors.mpr onBox
  have three : (d.neighbors b).length = 3 := gadget.three
  have same : (d.neighbors b).filter (· ∉ [h]) = (d.neighbors b).filter (· != h) :=
    List.filter_congr fun w _ => by rw [Bool.eq_iff_iff]; simp
  rw [degree, atOnce_neighbors (by simpa using apart), same, ← (sound.neighbors_nodup b).erase_eq_filter, List.length_erase_of_mem here,
    three]

-- What has one neighbour is not the box, and had that neighbour before.
theorem Gadget.single (different : k ≠ h) (hung : (d.atOnce [h] [b]).neighbors k = [c]) : k ≠ b ∧ d.neighbors k = [c] := by
  have off : k ≠ b := by
    rintro rfl
    have two := gadget.box_degree sound
    rw [degree, hung] at two
    cases two
  exact ⟨off, (gadget.untouched sound different off).symm.trans hung⟩

-- One gadget gone, the others are the gadgets they were, unless they had the same box.
theorem Gadget.others (different : k ≠ h) : Gadget (d.atOnce [h] [b]) k c ↔ Gadget d k c ∧ c ≠ b := by
  constructor
  · rintro ⟨hung, box, three⟩
    obtain ⟨old, helper, free⟩ := atOnce_box.mp box
    have helper : c ≠ h := by simpa using helper
    have free : c ≠ b := by simpa using free
    rw [degree, gadget.untouched sound helper free] at three
    exact ⟨⟨(gadget.single sound different hung).2, old, three⟩, free⟩
  · rintro ⟨⟨hung, box, three⟩, free⟩
    have off : k ≠ b := by
      rintro rfl
      have many := gadget.three
      rw [degree, hung] at many
      cases many
    have helper : c ≠ h := by
      rintro rfl
      exact off ((gadget.adjacent sound).mp (Adjacent.symm (sound.mem_neighbors.mp (hung ▸ List.mem_singleton_self _))))
    refine ⟨(gadget.untouched sound different off).trans hung, atOnce_box.mpr ⟨box, by simpa using helper, by simpa using free⟩, ?_⟩
    rw [degree, gadget.untouched sound helper free]
    exact three

end

-- These helpers, each once, have gadgets and share no box.
structure Gadgets (d : Diagram) (helpers : List Nat) : Prop where
  once : helpers.Nodup
  each : ∀ h ∈ helpers, ∃ b, Gadget d h b
  apart : ∀ h ∈ helpers, ∀ k ∈ helpers, d.neighbors h = d.neighbors k → h = k

theorem Gadgets.tail (gadgets : Gadgets d (h :: rest)) (sound : d.Sound) : ∃ b, Gadget d h b ∧ Gadgets (d.atOnce [h] [b]) rest := by
  obtain ⟨once, each, apart⟩ := gadgets
  obtain ⟨new, once⟩ := List.nodup_cons.mp once
  obtain ⟨b, gadget⟩ := each h List.mem_cons_self
  have other : ∀ k ∈ rest, k ≠ h := fun k listed same => new (same ▸ listed)
  have kept : ∀ k ∈ rest, ∃ c, Gadget d k c ∧ Gadget (d.atOnce [h] [b]) k c := by
    intro k listed
    obtain ⟨c, known⟩ := each k (List.mem_cons_of_mem _ listed)
    refine ⟨c, known, (gadget.others sound (other k listed)).mpr ⟨known, ?_⟩⟩
    rintro rfl
    exact other k listed (apart k (List.mem_cons_of_mem _ listed) h List.mem_cons_self (known.hung.trans gadget.hung.symm))
  refine ⟨b, gadget, once, fun k listed => (kept k listed).imp fun _ => And.right, fun k one m two same => ?_⟩
  obtain ⟨c, old, left⟩ := kept k one
  obtain ⟨e, old', left'⟩ := kept m two
  rw [left.hung, left'.hung] at same
  exact apart k (List.mem_cons_of_mem _ one) m (List.mem_cons_of_mem _ two) (old.hung.trans (same.trans old'.hung.symm))

theorem Gadgets.cons (gadget : Gadget d h b) (sound : d.Sound) (gadgets : Gadgets (d.atOnce [h] [b]) rest) : Gadgets d (h :: rest) := by
  obtain ⟨once, each, apart⟩ := gadgets
  have other : ∀ k ∈ rest, k ≠ h := by
    rintro k listed rfl
    obtain ⟨c, left⟩ := each k listed
    exact List.cons_ne_nil _ _ (left.hung.symm.trans (gadget.cleared sound))
  have kept : ∀ k ∈ rest, ∃ c, Gadget d k c ∧ Gadget (d.atOnce [h] [b]) k c ∧ c ≠ b := by
    intro k listed
    obtain ⟨c, left⟩ := each k listed
    obtain ⟨old, free⟩ := (gadget.others sound (other k listed)).mp left
    exact ⟨c, old, left, free⟩
  have distinct : ∀ k ∈ rest, d.neighbors k ≠ d.neighbors h := by
    intro k listed same
    obtain ⟨c, old, _, free⟩ := kept k listed
    rw [old.hung, gadget.hung] at same
    exact free (List.singleton_inj.mp same)
  refine ⟨List.nodup_cons.mpr ⟨fun listed => other h listed rfl, once⟩, fun k listed => ?_, fun k one m two same => ?_⟩
  · rcases List.mem_cons.mp listed with rfl | listed
    · exact ⟨b, gadget⟩
    · exact (kept k listed).imp fun _ all => all.1
  · rcases List.mem_cons.mp one with rfl | first <;> rcases List.mem_cons.mp two with rfl | second
    · rfl
    · exact absurd same.symm (distinct m second)
    · exact absurd same (distinct k first)
    · obtain ⟨c, old, left, _⟩ := kept k first
      obtain ⟨e, old', left', _⟩ := kept m second
      rw [old.hung, old'.hung] at same
      exact apart k first m second (left.hung.trans (same.trans left'.hung.symm))

-- The run of the pass, by induction on the helpers it still has to see.
theorem resolveStars_atOnce (sound : d.Sound) : d.resolveStars helpers = .ok after ↔
    Gadgets d helpers ∧ after = d.atOnce helpers (helpers.flatMap d.neighbors) := by
  induction helpers generalizing d with
  | nil =>
    have none : Gadgets d [] := ⟨List.nodup_nil, nofun, nofun⟩
    rw [resolveStars, Except.ok.injEq, List.flatMap_nil, atOnce_nil, and_iff_right none, eq_comm]
  | cons h rest ih =>
    have step : ∀ {b}, Gadget d h b → Gadgets (d.atOnce [h] [b]) rest →
        (d.atOnce [h] [b]).atOnce rest (rest.flatMap (d.atOnce [h] [b]).neighbors) =
          d.atOnce (h :: rest) ((h :: rest).flatMap d.neighbors) := by
      intro b gadget left
      have all := Gadgets.cons gadget sound left
      have new := (List.nodup_cons.mp all.once).1
      have same : rest.flatMap (d.atOnce [h] [b]).neighbors = rest.flatMap d.neighbors := by
        refine List.flatMap_congr fun k listed => ?_
        obtain ⟨c, known⟩ := left.each k listed
        have other : k ≠ h := fun same => new (same ▸ listed)
        exact known.hung.trans ((gadget.others sound other).mp known).1.hung.symm
      rw [atOnce_atOnce, same, List.flatMap_cons, gadget.hung]
      rfl
    constructor
    · intro done
      obtain ⟨middle, first, others⟩ := bind_ok.mp done
      obtain ⟨b, gadget, rfl⟩ := (resolveStar_atOnce sound).mp first
      obtain ⟨left, rfl⟩ := (ih (gadget.atOnce_sound sound)).mp others
      exact ⟨Gadgets.cons gadget sound left, step gadget left⟩
    · rintro ⟨all, rfl⟩
      obtain ⟨b, gadget, left⟩ := all.tail sound
      exact bind_ok.mpr ⟨_, (resolveStar_atOnce sound).mpr ⟨b, gadget, rfl⟩,
        (ih (gadget.atOnce_sound sound)).mpr ⟨left, (step gadget left).symm⟩⟩

-- The boxes the helpers hang off.
def starBoxes (d : Diagram) : List Nat := (d.marked .starHelper).flatMap d.neighbors

-- Every helper has a gadget, and no box has two helpers.
structure Resolvable (d : Diagram) : Prop where
  each : ∀ h, Helper d.vertices h → ∃ b, Gadget d h b
  apart : ∀ h k b, Helper d.vertices h → Helper d.vertices k → Gadget d h b → Gadget d k b → h = k

-- All gadgets rewritten and all markers cleared. The order of the freed names is left out.
structure Rewritten (d after : Diagram) : Prop where
  vertices : after.vertices = (d.vertices.filter fun entry => entry.1 ∉ d.marked .starHelper).map fun entry =>
    (entry.1, if entry.1 ∈ d.starBoxes then spiderFor entry.2 else { entry.2 with marker := none })
  edges : after.edges = (d.edges.filter fun e => e.low ∉ d.marked .starHelper ∧ e.high ∉ d.marked .starHelper).map fun e =>
    { e with kind := if e.low ∈ d.starBoxes ∨ e.high ∈ d.starBoxes then .simple else e.kind }
  next : after.next = d.next
  inputs : after.inputs = d.inputs.filter fun v => v ∉ d.marked .starHelper ∧ v ∉ d.starBoxes
  outputs : after.outputs = d.outputs.filter fun v => v ∉ d.marked .starHelper ∧ v ∉ d.starBoxes
  scalar : after.scalar = d.scalar

theorem resolvable_iff (sound : d.Sound) (same : order.Perm (d.marked .starHelper)) : Gadgets d order ↔ d.Resolvable := by
  have listed : ∀ h, h ∈ order ↔ Helper d.vertices h := fun h => same.mem_iff.trans mem_marked
  constructor
  · rintro ⟨_, each, apart⟩
    exact ⟨fun h helper => each h ((listed h).mpr helper), fun h k b one two first second =>
      apart h ((listed h).mpr one) k ((listed k).mpr two) (first.hung.trans second.hung.symm)⟩
  · rintro ⟨each, apart⟩
    have once : (d.marked .starHelper).Nodup := sound.nodup.sublist (List.filter_sublist.map _)
    refine ⟨same.nodup_iff.mpr once, fun h one => each h ((listed h).mp one), fun h one k two meet => ?_⟩
    obtain ⟨b, left⟩ := each h ((listed h).mp one)
    obtain ⟨c, right⟩ := each k ((listed k).mp two)
    obtain rfl : b = c := List.singleton_inj.mp (left.hung.symm.trans (meet.trans right.hung))
    exact apart h k b ((listed h).mp one) ((listed k).mp two) left right

-- Only which helpers and boxes there are counts, not in which order.
theorem rewritten_atOnce (same : order.Perm (d.marked .starHelper)) : Rewritten d (d.atOnce order (order.flatMap d.neighbors)).clearMarkers := by
  have helper : ∀ v, v ∈ order ↔ v ∈ d.marked .starHelper := fun v => same.mem_iff
  have box : ∀ v, v ∈ order.flatMap d.neighbors ↔ v ∈ d.starBoxes := fun v => (same.flatMap_right d.neighbors).mem_iff
  have unmarked : ∀ x : Vertex, ({ spiderFor x with marker := none } : Vertex) = spiderFor x := fun _ => rfl
  constructor
  case vertices =>
    simp only [atOnce, clearMarkers, List.map_map, helper]
    refine List.map_congr_left fun entry _ => ?_
    by_cases taken : entry.1 ∈ d.starBoxes <;> simp [box, taken, unmarked]
  case edges => simp only [atOnce, clearMarkers, helper, box]
  case next => rfl
  case inputs => simp only [atOnce, clearMarkers, helper, box]
  case outputs => simp only [atOnce, clearMarkers, helper, box]
  case scalar => rfl

theorem clearMarkers_settled (d : Diagram) : d.clearMarkers.resolveMarkers = .ok (0, d.clearMarkers) := by
  have none : d.clearMarkers.marked .starHelper = [] := by
    simp [marked, clearMarkers, List.filter_map, Function.comp_def]
  have again : d.clearMarkers.clearMarkers = d.clearMarkers := by
    simp [clearMarkers, Function.comp_def]
  rw [resolveMarkers, none]
  exact congrArg (fun after => Except.ok (0, after)) again

-- Resolving is the one rewrite of all gadgets at once, whichever helper comes first.
theorem resolveMarkers_at_once (sound : d.Sound) :
    ((∃ result, d.resolveMarkers = .ok result) ↔ d.Resolvable) ∧
    (∀ count after, d.resolveMarkers = .ok (count, after) →
      count = (d.marked .starHelper).length ∧ Rewritten d after ∧ after.resolveMarkers = .ok (0, after)) ∧
    ∀ order, order.Perm (d.marked .starHelper) →
      ((∃ after, d.resolveStars order = .ok after) ↔ d.Resolvable) ∧
        ∀ after, d.resolveStars order = .ok after → Rewritten d after.clearMarkers := by
  have inOrder : ∀ order, order.Perm (d.marked .starHelper) → ((∃ after, d.resolveStars order = .ok after) ↔ d.Resolvable) ∧
      ∀ after, d.resolveStars order = .ok after → Rewritten d after.clearMarkers := by
    intro order same
    refine ⟨?_, fun after done => ?_⟩
    · simp only [resolveStars_atOnce sound, resolvable_iff sound same, exists_and_left, exists_eq, and_true]
    · obtain ⟨_, rfl⟩ := (resolveStars_atOnce sound).mp done
      exact rewritten_atOnce same
  obtain ⟨succeeds, leaves⟩ := inOrder _ (.refl _)
  have split : ∀ count after, d.resolveMarkers = .ok (count, after) ↔ ∃ resolved, d.resolveStars (d.marked .starHelper) = .ok resolved ∧
      count = (d.marked .starHelper).length ∧ after = resolved.clearMarkers := by
    intro count after
    refine bind_ok.trans (exists_congr fun resolved => and_congr_right fun _ => ?_)
    rw [pure_ok, Prod.mk.injEq, eq_comm, eq_comm (a := resolved.clearMarkers)]
  refine ⟨Iff.trans ⟨?_, ?_⟩ succeeds, fun count after done => ?_, inOrder⟩
  · rintro ⟨⟨count, after⟩, done⟩
    obtain ⟨resolved, ran, _⟩ := (split count after).mp done
    exact ⟨resolved, ran⟩
  · rintro ⟨resolved, ran⟩
    exact ⟨_, (split _ _).mpr ⟨resolved, ran, rfl, rfl⟩⟩
  · obtain ⟨resolved, ran, rfl, rfl⟩ := (split count after).mp done
    exact ⟨rfl, leaves resolved ran, clearMarkers_settled resolved⟩

-- Two gadgets side by side, the box of one an output and its wires Hadamard wires.
def gadgetPair : Diagram where
  vertices := [(0, .boundary), (1, .hBox), (2, Vertex.z.mark .starHelper), (3, Vertex.hBox.placed 2 5), (4, Vertex.z.mark .starHelper),
    (5, Vertex.x.mark .potentialMaster)]
  edges := [⟨0, 1, .hadamard⟩, ⟨1, 2, .simple⟩, ⟨1, 3, .hadamard⟩, ⟨3, 4, .simple⟩, ⟨3, 5, .hadamard⟩]
  next := 6
  inputs := [0]
  outputs := [3]

theorem resolveMarkers_at_once_pair : gadgetPair.Sound ∧ gadgetPair.Resolvable ∧ ∃ after, gadgetPair.resolveMarkers = .ok (2, after) ∧
    Rewritten gadgetPair after ∧ after.resolveMarkers = .ok (0, after) ∧
    after.vertices = [(0, .boundary), (1, Vertex.z.withPhase .third), (3, (Vertex.z.withPhase .third).placed 2 5), (5, Vertex.x)] ∧
    after.edges = [⟨0, 1, .simple⟩, ⟨1, 3, .simple⟩, ⟨3, 5, .simple⟩] ∧ after.inputs = [0] ∧ after.outputs = [] ∧
    ∃ resolved, gadgetPair.resolveStars [4, 2] = .ok resolved ∧ Rewritten gadgetPair resolved.clearMarkers := by
  have sound : gadgetPair.Sound := by decide
  obtain ⟨succeeds, leaves, inOrder⟩ := resolveMarkers_at_once sound
  obtain ⟨_, rewritten, settled⟩ := leaves _ _ rfl
  have other : [4, 2].Perm (gadgetPair.marked .starHelper) := .swap 2 4 []
  exact ⟨sound, succeeds.mp ⟨_, rfl⟩, _, rfl, rewritten, settled, rfl, rfl, rfl, rfl, _, rfl, (inOrder _ other).2 _ rfl⟩

end ToffoliBench.Diagram

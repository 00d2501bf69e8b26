import ToffoliBench.Proofs.Diagram.AtOnce
import ToffoliBench.Proofs.Diagram.Reached

namespace ToffoliBench.Diagram
open Outcome

variable {d after : Diagram} {h b v w count : Nat} {kind : EdgeKind} {flaw : GadgetFlaw} {cause : DiagramError} {stop : Interrupted}
  {helpers rest more : List Nat}

def Flawed (d : Diagram) (helpers : List Nat) (v : Nat) : GadgetFlaw → Prop
  | .helperNeighbours => v ∈ helpers ∧ d.degree v ≠ 1
  | .notOnHBox => ∃ h ∈ helpers, d.neighbors h = [v] ∧ (Box d.vertices v → ∃ k ∈ helpers, k ≠ h ∧ Gadget d k v)
  | .outerNeighbours => ∃ h ∈ helpers, d.neighbors h = [v] ∧ Box d.vertices v ∧ d.degree v ≠ 3

theorem Flawed.mono (among : helpers ⊆ more) (flawed : Flawed d helpers v flaw) : Flawed d more v flaw := by
  cases flaw with
  | helperNeighbours => exact ⟨among flawed.1, flawed.2⟩
  | notOnHBox =>
    obtain ⟨h, listed, hung, shared⟩ := flawed
    exact ⟨h, among listed, hung, fun box => (shared box).imp fun _ => And.imp_left (among ·)⟩
  | outerNeighbours =>
    obtain ⟨h, listed, shape⟩ := flawed
    exact ⟨h, among listed, shape⟩

theorem starAt_flawed (sound : d.Sound) (failed : d.starAt h = .error cause) :
    ∃ v flaw, cause = .malformedGadget v flaw ∧ Flawed d [h] v flaw := by
  have here : h ∈ [h] := List.mem_singleton_self h
  unfold starAt at failed
  split at failed
  · rename_i b hung
    have near : d.Adjacent h b := sound.mem_neighbors.mp (hung ▸ List.mem_singleton_self b)
    obtain ⟨⟨c, x⟩, held, same⟩ := List.mem_map.mp (sound.adjacent_live near).2
    obtain rfl : c = b := same
    have known := (kind_ok sound).mpr ⟨x, held, rfl⟩
    rw [known] at failed
    change (if x.kind ≠ .hBox then _ else _) = _ at failed
    split at failed
    · rename_i other
      refine ⟨_, .notOnHBox, (Except.error.inj failed).symm, h, here, hung, ?_⟩
      rintro ⟨y, again, box⟩
      exact absurd (vertex_unique sound.nodup held again ▸ box) other
    · rename_i isBox
      have box : Box d.vertices c := ⟨x, held, not_not.mp isBox⟩
      split at failed
      · cases failed
      · rename_i many
        refine ⟨_, .outerNeighbours, (Except.error.inj failed).symm, h, here, hung, box, fun three => ?_⟩
        obtain ⟨l, r, y, star⟩ := (star_iff sound).mpr ⟨hung, box, three⟩
        exact many l r star.outer
  · rename_i many
    refine ⟨_, .helperNeighbours, (Except.error.inj failed).symm, here, fun one => ?_⟩
    obtain ⟨b, hung⟩ := List.length_eq_one_iff.mp one
    exact many b hung

theorem resolveStar_flawed (sound : d.Sound) (stopped : d.resolveStar h = .error stop) :
    ∃ v flaw, stop.cause = .malformedGadget v flaw ∧ Flawed d [h] v flaw := by
  cases found : d.starAt h with
  | error cause =>
    have first : d.resolveStar h = .error ⟨cause, d⟩ := bind_error.mpr (.inl (mapError_error.mpr ⟨cause, found, rfl⟩))
    obtain rfl := Except.error.inj (stopped.symm.trans first)
    exact starAt_flawed sound found
  | ok gadget =>
    obtain ⟨_, x, star⟩ := (starAt_ok sound).mp found
    cases stopped.symm.trans (star.resolves sound)

theorem Gadget.flawed (gadget : Gadget d h b) (sound : d.Sound) (new : h ∉ rest) (flawed : Flawed (d.atOnce [h] [b]) rest v flaw) :
    Flawed d (h :: rest) v flaw := by
  have other : ∀ k ∈ rest, k ≠ h := fun k listed same => new (same ▸ listed)
  have later : ∀ k ∈ rest, k ∈ h :: rest := fun k => List.mem_cons_of_mem h
  cases flaw with
  | helperNeighbours =>
    obtain ⟨listed, many⟩ := flawed
    refine ⟨later v listed, ?_⟩
    by_cases here : v = b
    · rw [here, gadget.three]
      decide
    · rwa [degree, gadget.untouched sound (other v listed) here] at many
  | notOnHBox =>
    obtain ⟨k, listed, hung, shared⟩ := flawed
    obtain ⟨off, hung⟩ := gadget.single sound (other k listed) hung
    have near : d.Adjacent k v := sound.mem_neighbors.mp (hung ▸ List.mem_singleton_self v)
    refine ⟨k, later k listed, hung, fun box => ?_⟩
    by_cases here : v = b
    · exact ⟨h, List.mem_cons_self, (other k listed).symm, here ▸ gadget⟩
    · have helper : v ≠ h := by
        rintro rfl
        exact off ((gadget.adjacent sound).mp near.symm)
      obtain ⟨m, two, apart, left⟩ := shared (atOnce_box.mpr ⟨box, by simpa using helper, by simpa using here⟩)
      exact ⟨m, later m two, apart, ((gadget.others sound (other m two)).mp left).1⟩
  | outerNeighbours =>
    obtain ⟨k, listed, hung, box, many⟩ := flawed
    obtain ⟨box, helper, here⟩ := atOnce_box.mp box
    refine ⟨k, later k listed, (gadget.single sound (other k listed) hung).2, box, ?_⟩
    rwa [degree, gadget.untouched sound (by simpa using helper) (by simpa using here)] at many

-- By induction on the helpers that are left: the first that fails is reported, and what was rewritten before hides nothing.
theorem resolveStars_flawed (sound : d.Sound) (once : helpers.Nodup) (stopped : d.resolveStars helpers = .error stop) :
    ∃ v flaw, stop.cause = .malformedGadget v flaw ∧ Flawed d helpers v flaw := by
  induction helpers generalizing d with
  | nil => cases stopped
  | cons h rest ih =>
    obtain ⟨new, once⟩ := List.nodup_cons.mp once
    rcases bind_error.mp stopped with first | ⟨middle, first, others⟩
    · obtain ⟨v, flaw, reported, flawed⟩ := resolveStar_flawed sound first
      exact ⟨v, flaw, reported, flawed.mono (by simp)⟩
    · obtain ⟨b, gadget, rfl⟩ := (resolveStar_atOnce sound).mp first
      obtain ⟨v, flaw, reported, flawed⟩ := ih (gadget.atOnce_sound sound) once others
      exact ⟨v, flaw, reported, gadget.flawed sound new flawed⟩

-- What stands in the place of a gadget: a spider under the name of its box, on a plain wire to each neighbour but the helper.
structure Replaced (d after : Diagram) (h b : Nat) : Prop where
  gone : h ∉ after.ids
  spider : ∃ x, (b, x) ∈ d.vertices ∧ x.kind = .hBox ∧ (b, spiderFor x) ∈ after.vertices
  wires : ∀ w kind, after.edgeKind? b w = some kind ↔ kind = .simple ∧ w ≠ h ∧ d.Adjacent b w

structure Phased (d : Diagram) (h b : Nat) : Prop where
  helper : Stands (fun x => x.kind = .z ∧ x.phase = .zero) d.vertices h
  box : Stands (·.phase = .pi) d.vertices b

-- A star gadget as it should be, each of its two outer wires after the pass of the kind it was.
structure Preserved (d after : Diagram) (h b : Nat) : Prop extends Phased d h b where
  wires : ∀ w kind, w ≠ h → d.edgeKind? b w = some kind → after.edgeKind? b w = some kind

-- A star gadget as the builder makes it: the two outer wires are plain ones.
structure Regular (d : Diagram) (h b : Nat) : Prop extends Phased d h b where
  wires : ∀ w kind, w ≠ h → d.edgeKind? b w = some kind → kind = .simple

theorem resolveMarkers_rewritten (sound : d.Sound) (done : d.resolveMarkers = .ok (count, after)) :
    d.Resolvable ∧ Rewritten d after ∧ after.Sound := by
  have kept : Upheld (·.2.Sound) d.resolveMarkers := sound.resolveMarkers
  rw [done] at kept
  obtain ⟨resolved, ran, done⟩ := bind_ok.mp done
  obtain ⟨gadgets, rfl⟩ := (resolveStars_atOnce sound).mp ran
  obtain ⟨_, rfl⟩ := Prod.mk.inj (pure_ok.mp done)
  exact ⟨(resolvable_iff sound (.refl _)).mp gadgets, rewritten_atOnce (.refl _), kept⟩

theorem Resolvable.box_unmarked (resolvable : d.Resolvable) (gadget : Gadget d h b) : b ∉ d.marked .starHelper := by
  intro listed
  obtain ⟨c, own⟩ := resolvable.each b (mem_marked.mp listed)
  have three := gadget.three
  rw [degree, own.hung] at three
  cases three

section

variable (resolvable : d.Resolvable) (sound : d.Sound) (helper : Helper d.vertices h) (gadget : Gadget d h b)
include resolvable sound helper gadget

theorem Resolvable.outer_unmarked (near : d.Adjacent b w) : w ∉ d.marked .starHelper ↔ w ≠ h := by
  rw [mem_marked, not_iff_not]
  constructor
  · intro other
    obtain ⟨c, own⟩ := resolvable.each w other
    obtain rfl := (own.adjacent sound).mp near.symm
    exact resolvable.apart w h b other helper own gadget
  · rintro rfl
    exact helper

theorem Rewritten.replaced (rewritten : Rewritten d after) (formed : after.Sound) : Replaced d after h b := by
  have marked : h ∈ d.marked .starHelper := mem_marked.mpr helper
  have starBox : b ∈ d.starBoxes := List.mem_flatMap.mpr ⟨h, marked, gadget.hung ▸ List.mem_singleton_self b⟩
  have unmarked := resolvable.box_unmarked gadget
  refine ⟨?gone, ?spider, fun w kind => ?wires⟩
  case gone =>
    rw [ids, rewritten.vertices]
    simp [marked]
  case spider =>
    obtain ⟨x, held, isBox⟩ := gadget.box
    refine ⟨x, held, isBox, ?_⟩
    rw [rewritten.vertices]
    exact List.mem_map.mpr ⟨(b, x), List.mem_filter.mpr ⟨held, by simpa using unmarked⟩, by rw [if_pos starBox]⟩
  case wires =>
    have plain : ∀ e : Edge, e.Ends b w → e.low ∈ d.starBoxes ∨ e.high ∈ d.starBoxes := by
      rintro e (⟨rfl, _⟩ | ⟨_, rfl⟩)
      · exact .inl starBox
      · exact .inr starBox
    -- A wire at the box stays when its other end does.
    have stays : ∀ e ∈ d.edges, e.Ends b w → ((e.low ∉ d.marked .starHelper ∧ e.high ∉ d.marked .starHelper) ↔ w ≠ h) := by
      intro e held ends
      rw [← resolvable.outer_unmarked sound helper gadget ⟨e, held, ends⟩]
      rcases ends with ⟨rfl, rfl⟩ | ⟨rfl, rfl⟩
      · exact and_iff_right unmarked
      · exact and_iff_left unmarked
    rw [formed.edgeKind_iff, rewritten.edges]
    constructor
    · rintro ⟨_, listed, ends, rfl⟩
      obtain ⟨e, held, rfl⟩ := List.mem_map.mp listed
      obtain ⟨held, kept⟩ := List.mem_filter.mp held
      exact ⟨if_pos (plain e ends), (stays e held ends).mp (of_decide_eq_true kept), e, held, ends⟩
    · rintro ⟨rfl, other, e, held, ends⟩
      have kept := decide_eq_true ((stays e held ends).mpr other)
      exact ⟨_, List.mem_map.mpr ⟨e, List.mem_filter.mpr ⟨held, kept⟩, rfl⟩, ends, if_pos (plain e ends)⟩

end

theorem Replaced.preserved (replaced : Replaced d after h b) (sound : d.Sound) : Preserved d after h b ↔ Regular d h b := by
  have wires : ∀ w kind, w ≠ h → d.edgeKind? b w = some kind → (after.edgeKind? b w = some kind ↔ kind = .simple) := by
    intro w kind other joined
    obtain ⟨e, held, ends, _⟩ := sound.edgeKind_iff.mp joined
    rw [replaced.wires]
    exact and_iff_left ⟨other, e, held, ends⟩
  constructor
  · rintro ⟨phased, kept⟩
    exact ⟨phased, fun w kind other joined => (wires w kind other joined).mp (kept w kind other joined)⟩
  · rintro ⟨phased, plain⟩
    exact ⟨phased, fun w kind other joined => (wires w kind other joined).mpr (plain w kind other joined)⟩

-- What the pass refuses is reported as it is. What it takes it replaces by a third of a turn on plain wires, and that is
-- faithful to exactly those gadgets which are as the builder makes them.
theorem resolved_preserved_iff (sound : d.Sound) :
    (∀ stop, d.resolveMarkers = .error stop →
      ∃ v flaw, stop.cause = .malformedGadget v flaw ∧ Flawed d (d.marked .starHelper) v flaw) ∧
    ∀ count after, d.resolveMarkers = .ok (count, after) → ∀ h, Helper d.vertices h →
      ∃ b, Gadget d h b ∧ Replaced d after h b ∧ (Preserved d after h b ↔ Regular d h b) := by
  refine ⟨fun stop stopped => ?_, fun count after done h helper => ?_⟩
  · have once : (d.marked .starHelper).Nodup := sound.nodup.sublist (List.filter_sublist.map _)
    rcases bind_error.mp stopped with stopped | ⟨resolved, _, finished⟩
    · exact resolveStars_flawed sound once stopped
    · cases finished
  · obtain ⟨resolvable, rewritten, formed⟩ := resolveMarkers_rewritten sound done
    obtain ⟨b, gadget⟩ := resolvable.each h helper
    have replaced := rewritten.replaced resolvable sound helper gadget formed
    exact ⟨b, gadget, replaced, replaced.preserved sound⟩

def plainPair : Diagram := { gadgetPair with edges := gadgetPair.edges.map fun e => { e with kind := .simple } }

theorem resolved_preserved_iff_pair : plainPair.Sound ∧ ∃ after, plainPair.resolveMarkers = .ok (2, after) ∧
    Preserved plainPair after 2 1 ∧ Preserved plainPair after 4 3 := by
  have sound : plainPair.Sound := by decide
  have taken := (resolved_preserved_iff sound).2 2 _ rfl
  have plain : ∀ e ∈ plainPair.edges, e.kind = .simple := by decide
  have wires : ∀ b w kind, plainPair.edgeKind? b w = some kind → kind = .simple := fun b w kind joined => by
    obtain ⟨e, held, _, rfl⟩ := sound.edgeKind_iff.mp joined
    exact plain e held
  have first : Regular plainPair 2 1 :=
    ⟨⟨⟨Vertex.z.mark .starHelper, by decide, rfl, rfl⟩, .hBox, by decide, rfl⟩, fun w kind _ => wires 1 w kind⟩
  have second : Regular plainPair 4 3 :=
    ⟨⟨⟨Vertex.z.mark .starHelper, by decide, rfl, rfl⟩, Vertex.hBox.placed 2 5, by decide, rfl⟩, fun w kind _ => wires 3 w kind⟩
  obtain ⟨b, gadget, _, same⟩ := taken 2 ⟨Vertex.z.mark .starHelper, by decide, rfl⟩
  obtain ⟨c, gadget', _, same'⟩ := taken 4 ⟨Vertex.z.mark .starHelper, by decide, rfl⟩
  obtain rfl : 1 = b := List.singleton_inj.mp gadget.hung
  obtain rfl : 3 = c := List.singleton_inj.mp gadget'.hung
  exact ⟨sound, _, rfl, same.mpr first, same'.mpr second⟩

def disguised : Diagram where
  vertices := [(0, .boundary), (1, Vertex.hBox.withPhase .third), (2, (Vertex.x.withPhase .pi).mark .starHelper), (3, .z)]
  edges := [⟨0, 1, .hadamard⟩, ⟨1, 2, .simple⟩, ⟨1, 3, .simple⟩]
  next := 4
  inputs := [0]

-- The pass takes it, and the Hadamard wire is gone.
theorem disguised_taken : disguised.Sound ∧ Helper disguised.vertices 2 ∧ disguised.neighbors 2 = [1] ∧
    ∃ after, disguised.resolveMarkers = .ok (1, after) ∧ 2 ∉ after.ids ∧ ¬Stands (·.kind = .z) disguised.vertices 2 ∧
      ¬Stands (·.phase = .zero) disguised.vertices 2 ∧ ¬Stands (·.phase = .pi) disguised.vertices 1 ∧
      disguised.edgeKind? 1 0 = some .hadamard ∧ after.edgeKind? 1 0 = some .simple := by
  have sound : disguised.Sound := by decide
  have helper : (2, (Vertex.x.withPhase .pi).mark .starHelper) ∈ disguised.vertices := by decide
  have box : (1, Vertex.hBox.withPhase .third) ∈ disguised.vertices := by decide
  refine ⟨sound, ⟨_, helper, rfl⟩, rfl, _, rfl, by decide, ?_, ?_, ?_, rfl, rfl⟩
  · rintro ⟨x, held, kind⟩
    cases vertex_unique sound.nodup helper held ▸ kind
  · rintro ⟨x, held, phase⟩
    exact absurd (vertex_unique sound.nodup helper held ▸ phase) (by decide)
  · rintro ⟨x, held, phase⟩
    exact absurd (vertex_unique sound.nodup box held ▸ phase) (by decide)

end ToffoliBench.Diagram

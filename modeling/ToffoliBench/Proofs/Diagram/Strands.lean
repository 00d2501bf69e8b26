import Mathlib.Data.List.Zip
import ToffoliBench.Proofs.Diagram.Net

namespace ToffoliBench

open Wiring

-- A wire that is to be fused at its near end with a place.
structure Strand (α : Type) where
  place : α
  near : α
  far : α

namespace Strand

variable {α : Type} {W V : Wiring α} {s : Strand α} {ss rest : List (Strand α)} {t u v : α} {m : EdgeKind}

def wired (ss : List (Strand α)) : Wiring α := fun u v m =>
  m = .simple ∧ ∃ s ∈ ss, (u = s.near ∧ v = s.far) ∨ (u = s.far ∧ v = s.near)

def Once (ss : List (Strand α)) : Prop := (ss.map place ++ (ss.map near ++ ss.map far)).Nodup

def Apart (s r : Strand α) : Prop := (r.place ≠ s.place ∧ r.place ≠ s.near ∧ r.place ≠ s.far) ∧
  (r.near ≠ s.place ∧ r.near ≠ s.near ∧ r.near ≠ s.far) ∧ r.far ≠ s.place ∧ r.far ≠ s.near ∧ r.far ≠ s.far

theorem Once.parts (once : Once (s :: rest)) :
    (s.place ≠ s.near ∧ s.place ≠ s.far ∧ s.near ≠ s.far) ∧ (∀ r ∈ rest, Apart s r) ∧ Once rest := by
  simp only [Once, List.map_cons, List.cons_append, List.nodup_cons, List.nodup_append', List.mem_append, List.mem_cons, not_or,
    List.disjoint_cons_right, List.disjoint_append_right] at once ⊢
  refine ⟨by grind, fun r listed => ?_, by grind⟩
  have place := List.mem_map_of_mem (f := place) listed
  have near := List.mem_map_of_mem (f := near) listed
  have far := List.mem_map_of_mem (f := far) listed
  unfold Apart
  grind

-- What can be tied to strands: places with one wire each, none of them on a strand.
structure Ready (W : Wiring α) (ss : List (Strand α)) : Prop where
  symm : W.Symm
  loopless : ∀ u m, ¬W u u m
  once : Once ss
  sole : ∀ s ∈ ss, ∃ a k, W.Sole s.place a k
  free : ∀ s ∈ ss, ∀ u m, ¬W s.near u m ∧ ¬W s.far u m

theorem Ready.first (ready : Ready W (s :: rest)) : Ready W [s] := by
  obtain ⟨⟨near, far, different⟩, _, _⟩ := ready.once.parts
  refine ⟨ready.symm, ready.loopless, by simp [Once, near, far, different], ?_, ?_⟩
  · exact fun r listed => ready.sole r (List.mem_singleton.mp listed ▸ List.mem_cons_self)
  · exact fun r listed => ready.free r (List.mem_singleton.mp listed ▸ List.mem_cons_self)

section

variable [DecidableEq α]

def follow (s : Strand α) (t : α) : α := if t = s.place then s.far else t

-- Where each place ends up when strand after strand has been tied.
def carry (ss : List (Strand α)) (t : α) : α := ss.foldl (fun t s => s.follow t) t

theorem follow_other (different : t ≠ s.place) : s.follow t = t := if_neg different

theorem carry_other (outside : t ∉ ss.map place) : carry ss t = t := by
  induction ss with
  | nil => rfl
  | cons s rest ih =>
    obtain ⟨first, others⟩ := not_or.mp (mt List.mem_cons.mpr outside)
    show carry rest (s.follow t) = t
    rw [follow_other first, ih others]

theorem carry_place (once : Once ss) (listed : s ∈ ss) : carry ss s.place = s.far := by
  induction ss with
  | nil => cases listed
  | cons r rest ih =>
    obtain ⟨_, apart, later⟩ := once.parts
    show carry rest (r.follow s.place) = s.far
    rcases List.mem_cons.mp listed with rfl | held
    · have stays : s.far ∉ rest.map place := by
        intro there
        obtain ⟨r, listed, same⟩ := List.mem_map.mp there
        exact (apart r listed).1.2.2 same
      rw [show s.follow s.place = s.far from if_pos rfl, carry_other stays]
    · rw [follow_other (apart s held).1.1, ih later held]

theorem tie (ready : Ready W [s]) : (W.beside (wired [s])).Fuse (s.place, s.near) (W.moved s.follow) := by
  obtain ⟨symm, loopless, once, sole, free⟩ := ready
  obtain ⟨a, k, sole⟩ := sole s (List.mem_singleton_self s)
  have free := free s (List.mem_singleton_self s)
  obtain ⟨apart, _, _⟩ := once.parts
  have strand : ∀ u v m, wired [s] u v m ↔ m = .simple ∧ ((u = s.near ∧ v = s.far) ∨ (u = s.far ∧ v = s.near)) := by
    simp [wired]
  have met : W s.place a k := (sole a k).mpr ⟨rfl, rfl⟩
  have away : a ≠ s.place ∧ a ≠ s.near ∧ a ≠ s.far :=
    ⟨fun same => loopless s.place k (same ▸ met), fun same => (free s.place k).1 (same ▸ symm _ _ _ met),
      fun same => (free s.place k).2 (same ▸ symm _ _ _ met)⟩
  refine ⟨a, s.far, k, .simple, ⟨?_, ?_, ⟨away.1, away.2.1⟩, ⟨apart.2.1.symm, apart.2.2.symm⟩, away.2.2, ?_⟩, ?_⟩
  · intro v m
    have only := sole v m
    simp only [beside, strand]
    grind
  · intro v m
    have none := (free v m).1
    simp only [beside, strand]
    grind
  · intro m
    have none := (free a m).2
    have back := symm a s.far m
    simp only [beside, strand]
    grind
  · funext u v n
    rw [EdgeKind.merge_simple]
    refine propext ⟨?_, ?_⟩
    · rintro (⟨t, u, rfl, rfl, near⟩)
      by_cases left : t = s.place
      · subst left
        obtain ⟨rfl, rfl⟩ := (sole u n).mp near
        exact .inr ⟨rfl, .inr ⟨if_pos rfl, follow_other away.1⟩⟩
      · by_cases right : u = s.place
        · subst right
          obtain ⟨rfl, rfl⟩ := (sole t n).mp (symm t s.place n near)
          exact .inr ⟨rfl, .inl ⟨follow_other away.1, if_pos rfl⟩⟩
        · rw [follow_other left, follow_other right]
          have leftNear : t ≠ s.near := fun same => (free u n).1 (same ▸ near)
          have rightNear : u ≠ s.near := fun same => (free t n).1 (same ▸ symm t u n near)
          exact .inl ⟨.inl near, ⟨left, leftNear⟩, right, rightNear⟩
    · rintro (⟨near | near, left, right⟩ | ⟨rfl, ⟨rfl, rfl⟩ | ⟨rfl, rfl⟩⟩)
      · exact ⟨u, v, follow_other left.1, follow_other right.1, near⟩
      · rcases ((strand u v n).mp near).2 with ⟨same, _⟩ | ⟨_, same⟩
        · exact absurd same left.2
        · exact absurd same right.2
      · exact ⟨u, s.place, follow_other away.1, if_pos rfl, symm _ _ _ met⟩
      · exact ⟨s.place, v, if_pos rfl, follow_other away.1, met⟩

-- Tying one strand leaves the places of the others as they are.
theorem Ready.later (ready : Ready W (s :: rest)) : Ready (W.moved s.follow) rest := by
  obtain ⟨_, apart, once⟩ := ready.once.parts
  have back : ∀ t u, s.follow t = u → u ≠ s.far → t = u := by
    intro t u same other
    by_cases here : t = s.place
    · exact absurd (same.symm.trans (if_pos here)) other
    · rwa [follow_other here] at same
  have free := ready.free s List.mem_cons_self
  refine ⟨ready.symm.moved _, ?_, once, ?_, ?_⟩
  · rintro _ m ⟨t, u, rfl, same, near⟩
    by_cases left : t = s.place
    · by_cases right : u = s.place
      · exact ready.loopless _ m (left ▸ right ▸ near)
      · rw [follow_other right, show s.follow t = s.far from if_pos left] at same
        exact (free t m).2 (same ▸ ready.symm t u m near)
    · by_cases right : u = s.place
      · rw [follow_other left, show s.follow u = s.far from if_pos right] at same
        exact (free u m).2 (same ▸ near)
      · rw [follow_other left, follow_other right] at same
        exact ready.loopless t m (same ▸ near)
  · intro r listed
    obtain ⟨a, k, sole⟩ := ready.sole r (List.mem_cons_of_mem _ listed)
    have other := apart r listed
    refine ⟨s.follow a, k, fun v m => ⟨?_, ?_⟩⟩
    · rintro ⟨t, u, here, rfl, near⟩
      obtain rfl := back t _ here other.1.2.2
      obtain ⟨rfl, rfl⟩ := (sole u m).mp near
      exact ⟨rfl, rfl⟩
    · rintro ⟨rfl, rfl⟩
      exact ⟨r.place, a, follow_other other.1.1, rfl, (sole a m).mpr ⟨rfl, rfl⟩⟩
  · intro r listed u m
    have other := apart r listed
    have none := ready.free r (List.mem_cons_of_mem _ listed)
    constructor
    · rintro ⟨t, w, here, _, near⟩
      obtain rfl := back t _ here other.2.1.2.2
      exact (none w m).1 near
    · rintro ⟨t, w, here, _, near⟩
      obtain rfl := back t _ here other.2.2.2.2
      exact (none w m).2 near

theorem tie_all (ready : Ready W ss) : FuseAll (W.beside (wired ss)) (ss.map fun s => (s.place, s.near)) (W.moved (carry ss)) := by
  induction ss generalizing W with
  | nil =>
    have none : W.beside (wired []) = W.moved (carry []) := by
      funext u v m
      simp [beside, wired, moved, carry]
    rw [none]
    exact .nil
  | cons s rest ih =>
    have split : wired (s :: rest) = (wired [s]).beside (wired rest) := by
      funext u v m
      refine propext ?_
      simp only [wired, beside, List.mem_cons, List.not_mem_nil, or_false, exists_eq_or_imp, exists_eq_left]
      exact and_or_left
    have later := ih ready.later
    rw [moved_moved] at later
    refine .cons ?_ later
    rw [split, ← beside_assoc]
    -- The other strands stand aside.
    obtain ⟨_, apart, _⟩ := ready.once.parts
    have aside : ∀ r ∈ rest, ∀ t, t = s.place ∨ t = s.near ∨ t = s.far → t ≠ r.near ∧ t ≠ r.far := by
      intro r listed t which
      have other := apart r listed
      unfold Apart at other
      grind
    have free := fun r listed => ready.free r (List.mem_cons_of_mem s listed)
    refine (beside_fuse (S := fun t => t ∉ rest.map near ∧ t ∉ rest.map far) (T := fun t => t ∈ rest.map near ∨ t ∈ rest.map far)
      ?_ ?_ (fun t here there => there.elim here.1 here.2) ?_ ?_).mpr ⟨_, tie ready.first, rfl⟩
    · have clear : ∀ t u m, W t u m → t ∉ rest.map near ∧ t ∉ rest.map far := by
        intro t u m near
        constructor
        · rintro held
          obtain ⟨r, listed, rfl⟩ := List.mem_map.mp held
          exact (free r listed u m).1 near
        · rintro held
          obtain ⟨r, listed, rfl⟩ := List.mem_map.mp held
          exact (free r listed u m).2 near
      rintro u v m (near | ⟨_, r, listed, ends⟩)
      · exact ⟨clear u v m near, clear v u m (ready.symm u v m near)⟩
      · obtain rfl := List.mem_singleton.mp listed
        grind
    · rintro u v m ⟨_, r, listed, ends⟩
      have near := List.mem_map_of_mem (f := near) listed
      have far := List.mem_map_of_mem (f := far) listed
      grind
    · grind
    · grind

end

end Strand

-- A vertex of its kind and nothing more.
def Label.plain (l : Label) : Label := { l with phase := .zero, marker := none }

namespace Net

variable {α β : Type} {P Q N B : Net α} {f : α → β} {ends : List (α × α)} {vs : List α}

-- Phases and markers taken off some vertices.
def plain (vs : List α) (N : Net α) : Net α :=
  { N with holds := fun t l => (t ∉ vs ∧ N.holds t l) ∨ (t ∈ vs ∧ ∃ x, N.holds t x ∧ l = x.plain) }

theorem plain_moved (names : Names f N.Live) (live : ∀ t ∈ vs, N.Live t) : (N.moved f).plain (vs.map f) = (N.plain vs).moved f := by
  have listed : ∀ t, N.Live t → (f t ∈ vs.map f ↔ t ∈ vs) := by
    intro t here
    constructor
    · intro held
      obtain ⟨u, there, same⟩ := List.mem_map.mp held
      exact names u t (live u there) here same ▸ there
    · exact List.mem_map_of_mem
  refine Net.ext ?_ rfl rfl rfl
  funext v l
  refine propext ⟨?_, ?_⟩
  · rintro (⟨out, t, rfl, held⟩ | ⟨out, x, ⟨t, rfl, held⟩, rfl⟩)
    · exact ⟨t, rfl, .inl ⟨mt (listed t ⟨l, held⟩).mpr out, held⟩⟩
    · exact ⟨t, rfl, .inr ⟨(listed t ⟨x, held⟩).mp out, x, held, rfl⟩⟩
  · rintro ⟨t, rfl, ⟨out, held⟩ | ⟨out, x, held, rfl⟩⟩
    · exact .inl ⟨mt (listed t ⟨l, held⟩).mp out, t, rfl, held⟩
    · exact .inr ⟨(listed t ⟨x, held⟩).mpr out, x, ⟨t, rfl, held⟩, rfl⟩

-- The same net read from its outputs to its inputs.
def reverse (N : Net α) : Net α := { N with inputs := N.outputs, outputs := N.inputs }

theorem Proper.reverse (proper : N.Proper) : N.reverse.Proper :=
  ⟨proper.symm, proper.within, fun t listed => proper.live t (List.mem_append.mpr (List.mem_append.mp listed).symm),
    List.perm_append_comm.nodup_iff.mp proper.distinct⟩

theorem Joins.reverse (joins : Joins P Q N) (p : P.Proper) (q : Q.Proper) : Joins Q.reverse P.reverse N.reverse := by
  refine ⟨joins.lengths.symm, ?_, ?_, joins.outputs, joins.inputs⟩
  · have swapped := joins.fused.swap (p.symm.beside q.symm)
    rwa [List.zip_swap, beside_comm] at swapped
  · refine joins.holds.trans ?_
    funext t l
    exact propext (and_congr or_comm and_comm)

-- Vertices that can be tied to bare wires.
structure Loose (N : Net α) (vs : List α) : Prop where
  loopless : ∀ u m, ¬N.wires u u m
  sole : ∀ t ∈ vs, ∃ a k, N.wires.Sole t a k
  bound : ∀ t ∈ vs, ∀ l, N.holds t l → l.kind = .boundary

theorem Loose.sub (loose : N.Loose vs) {us : List α} (sub : ∀ t ∈ us, t ∈ vs) : N.Loose us :=
  ⟨loose.loopless, fun t listed => loose.sole t (sub t listed), fun t listed => loose.bound t (sub t listed)⟩

theorem Loose.moved (loose : N.Loose vs) (proper : N.Proper) (names : Names f N.Live) (live : ∀ t ∈ vs, N.Live t) :
    (N.moved f).Loose (vs.map f) := by
  refine ⟨?_, ?_, ?_⟩
  · rintro _ m ⟨t, u, rfl, same, near⟩
    obtain ⟨left, right⟩ := proper.within t u m near
    exact loose.loopless t m (names u t right left same ▸ near)
  · intro _ listed
    obtain ⟨t, held, rfl⟩ := List.mem_map.mp listed
    obtain ⟨a, k, sole⟩ := loose.sole t held
    have far := (proper.within t a k ((sole a k).mpr ⟨rfl, rfl⟩)).2
    exact ⟨f a, k, (moved_sole proper.within names (live t held) far).mpr sole⟩
  · intro _ listed l held
    obtain ⟨t, there, rfl⟩ := List.mem_map.mp listed
    obtain ⟨u, same, held⟩ := held
    obtain rfl := names u t ⟨l, held⟩ (live t there) same
    exact loose.bound u there l held

-- Nothing but wires, from input to output.
structure Bare (B : Net α) (ends : List (α × α)) : Prop where
  inputs : B.inputs = ends.map Prod.fst
  outputs : B.outputs = ends.map Prod.snd
  wires : ∀ u v m, B.wires u v m ↔ m = .simple ∧ ((u, v) ∈ ends ∨ (v, u) ∈ ends)
  holds : ∀ t l, B.holds t l ↔ t ∈ B.inputs ++ B.outputs ∧ l = ⟨.boundary, .zero, none⟩

theorem Bare.reverse (bare : Bare B ends) : Bare B.reverse (ends.map Prod.swap) := by
  refine ⟨?_, ?_, fun u v m => (bare.wires u v m).trans ?_, fun t l => (bare.holds t l).trans ?_⟩
  · rw [List.map_map]
    exact bare.outputs
  · rw [List.map_map]
    exact bare.inputs
  · have swapped : ∀ u v, (u, v) ∈ ends.map Prod.swap ↔ (v, u) ∈ ends := fun u v => by simp
    rw [swapped, swapped, or_comm]
  · exact and_congr_left' (List.perm_append_comm.mem_iff)

theorem Bare.moved (bare : Bare B ends) (f : α → β) : Bare (B.moved f) (ends.map (Prod.map f f)) := by
  refine ⟨?_, ?_, fun v w m => ?_, fun v l => ?_⟩
  · simp [Net.moved, bare.inputs]
  · simp [Net.moved, bare.outputs]
  · simp only [Net.moved, Wiring.moved, bare.wires, List.mem_map, Prod.exists, Prod.map_apply, Prod.mk.injEq]
    grind
  · simp only [Net.moved, bare.holds, ← List.map_append, List.mem_map]
    grind

-- The strand that each listed vertex is to be tied to.
def strands (vs : List α) (ends : List (α × α)) : List (Strand α) := List.zipWith (fun t wire => ⟨t, wire.1, wire.2⟩) vs ends

theorem strands_parts (lengths : vs.length = ends.length) : (strands vs ends).map Strand.place = vs ∧
    (strands vs ends).map (fun s => (s.near, s.far)) = ends := by
  induction vs generalizing ends with
  | nil => exact ⟨rfl, (List.length_eq_zero_iff.mp lengths.symm).symm⟩
  | cons t rest ih =>
    cases ends with
    | nil => cases lengths
    | cons wire more =>
      obtain ⟨places, wires⟩ := ih (Nat.succ.inj lengths)
      exact ⟨congrArg (t :: ·) places, congrArg (wire :: ·) wires⟩

section

variable (p : P.Proper) (loose : P.Loose P.outputs) (bare : Bare B ends) (lengths : P.outputs.length = ends.length)
  (distinct : (B.inputs ++ B.outputs).Nodup) (apart : ∀ t, P.Live t → t ∉ B.inputs ++ B.outputs)
include bare lengths

theorem strands_ends : (strands P.outputs ends).map Strand.place = P.outputs ∧
    (strands P.outputs ends).map Strand.near = B.inputs ∧ (strands P.outputs ends).map Strand.far = B.outputs := by
  obtain ⟨places, wires⟩ := strands_parts lengths
  refine ⟨places, ?_, ?_⟩
  · rw [bare.inputs, ← congrArg (List.map Prod.fst) wires, List.map_map]
    rfl
  · rw [bare.outputs, ← congrArg (List.map Prod.snd) wires, List.map_map]
    rfl

theorem strands_wired : Strand.wired (strands P.outputs ends) = B.wires := by
  have listed : ∀ u v, (u, v) ∈ ends ↔ ∃ s ∈ strands P.outputs ends, u = s.near ∧ v = s.far := by
    intro u v
    conv_lhs => rw [← (strands_parts lengths).2, List.mem_map]
    simp only [Prod.mk.injEq, eq_comm]
  funext u v m
  refine propext (Iff.trans ?_ (bare.wires u v m).symm)
  rw [listed, listed]
  simp only [Strand.wired]
  grind

include p loose distinct apart

theorem strands_ready : Strand.Ready P.wires (strands P.outputs ends) := by
  obtain ⟨places, nears, fars⟩ := strands_ends bare lengths
  refine ⟨p.symm, loose.loopless, ?_, fun s listed => ?_, fun s listed u m => ⟨fun near => ?_, fun near => ?_⟩⟩
  · rw [Strand.Once, places, nears, fars]
    exact List.nodup_append'.mpr ⟨p.distinct.of_append_right, distinct,
      fun t output wire => apart t (p.live t (List.mem_append_right _ output)) wire⟩
  · exact loose.sole _ (places ▸ List.mem_map_of_mem listed)
  · exact apart _ (p.within _ _ _ near).1 (List.mem_append_left _ (nears ▸ List.mem_map_of_mem listed))
  · exact apart _ (p.within _ _ _ near).1 (List.mem_append_right _ (fars ▸ List.mem_map_of_mem listed))

variable [DecidableEq α]

-- Each output goes by the far end of its strand, and nothing else changes its name.
theorem carry_names : Names (Strand.carry (strands P.outputs ends)) P.Live := by
  obtain ⟨places, nears, fars⟩ := strands_ends bare lengths
  have ready := strands_ready p loose bare lengths distinct apart
  have stays : ∀ t, t ∉ P.outputs → Strand.carry (strands P.outputs ends) t = t := fun t out => Strand.carry_other (places.symm ▸ out)
  have goes : ∀ t ∈ P.outputs, ∃ s ∈ strands P.outputs ends, s.place = t ∧ Strand.carry (strands P.outputs ends) t = s.far := by
    intro t output
    obtain ⟨s, listed, rfl⟩ := List.mem_map.mp (places.symm ▸ output)
    exact ⟨s, listed, rfl, Strand.carry_place ready.once listed⟩
  have leaves : ∀ t ∈ P.outputs, ¬P.Live (Strand.carry (strands P.outputs ends) t) := by
    intro t output live
    obtain ⟨s, listed, _, same⟩ := goes t output
    exact apart _ (same ▸ live) (List.mem_append_right _ (fars ▸ List.mem_map_of_mem listed))
  intro t u here there same
  by_cases left : t ∈ P.outputs
  · by_cases right : u ∈ P.outputs
    · obtain ⟨s, listed, rfl, far⟩ := goes t left
      obtain ⟨r, listed', rfl, far'⟩ := goes u right
      have once : ((strands P.outputs ends).map Strand.far).Nodup := fars ▸ distinct.of_append_right
      rw [List.inj_on_of_nodup_map once listed listed' (far.symm.trans (same.trans far'))]
    · rw [stays u right] at same
      exact absurd (same ▸ there) (leaves t left)
  · by_cases right : u ∈ P.outputs
    · rw [stays t left] at same
      exact absurd (same ▸ here) (leaves u right)
    · rwa [stays t left, stays u right] at same

theorem carry_joins : Joins P B ((P.plain P.outputs).moved (Strand.carry (strands P.outputs ends))) := by
  obtain ⟨places, nears, fars⟩ := strands_ends bare lengths
  have ready := strands_ready p loose bare lengths distinct apart
  have stays : ∀ t, t ∉ P.outputs → Strand.carry (strands P.outputs ends) t = t := fun t out => Strand.carry_other (places.symm ▸ out)
  have fused := Strand.tie_all ready
  have pairs : (strands P.outputs ends).map (fun s => (s.place, s.near)) = P.outputs.zip B.inputs := by
    rw [← List.zip_map', places, nears]
  rw [strands_wired bare lengths, pairs] at fused
  refine ⟨by rw [lengths, bare.inputs, List.length_map], fused, ?_, ?_, ?_⟩
  · funext v l
    refine propext ⟨?_, ?_⟩
    · rintro ⟨t, rfl, ⟨out, held⟩ | ⟨output, x, held, rfl⟩⟩
      · rw [stays t out]
        exact ⟨.inl held, out, fun wire => apart t ⟨l, held⟩ (List.mem_append_left _ wire)⟩
      · obtain ⟨s, listed, rfl⟩ := List.mem_map.mp (places.symm ▸ output)
        have far : s.far ∈ B.outputs := fars ▸ List.mem_map_of_mem listed
        rw [Strand.carry_place ready.once listed]
        refine ⟨.inr ((bare.holds _ _).mpr ⟨List.mem_append_right _ far, ?_⟩), fun again => ?_, fun again => ?_⟩
        · exact congrArg (Label.mk · .zero none) (loose.bound _ output x held)
        · exact apart _ (p.live _ (List.mem_append_right _ again)) (List.mem_append_right _ far)
        · exact List.disjoint_of_nodup_append distinct again far
    · rintro ⟨held | held, out, outside⟩
      · exact ⟨v, stays v out, .inl ⟨out, held⟩⟩
      · obtain ⟨wire, rfl⟩ := (bare.holds v l).mp held
        have far := (List.mem_append.mp wire).resolve_left outside
        obtain ⟨s, listed, rfl⟩ := List.mem_map.mp (fars.symm ▸ far)
        have output : s.place ∈ P.outputs := places ▸ List.mem_map_of_mem listed
        obtain ⟨x, mine⟩ := p.live _ (List.mem_append_right _ output)
        refine ⟨s.place, Strand.carry_place ready.once listed, .inr ⟨output, x, mine, ?_⟩⟩
        exact congrArg (Label.mk · .zero none) (loose.bound _ output x mine).symm
  · refine (List.map_congr_left fun t input => ?_).trans (List.map_id _)
    exact stays t fun output => List.disjoint_of_nodup_append p.distinct input output
  · have carried : ((strands P.outputs ends).map Strand.place).map (Strand.carry (strands P.outputs ends)) =
        (strands P.outputs ends).map Strand.far := by
      rw [List.map_map]
      exact List.map_congr_left fun s listed => Strand.carry_place ready.once listed
    rw [places, fars] at carried
    exact carried

-- Bare wires give the outputs other names and leave nothing on them.
theorem joins_bare : ∃ f, Names f P.Live ∧ Joins P B ((P.plain P.outputs).moved f) :=
  ⟨_, carry_names p loose bare lengths distinct apart, carry_joins p loose bare lengths distinct apart⟩

end

end Net

end ToffoliBench

import ToffoliBench.Proofs.Circuit.Register
import ToffoliBench.Proofs.Diagram.Recast
import ToffoliBench.Proofs.Diagram.Stock

namespace ToffoliBench.Fragment

open Diagram Meaning

variable {d after : Diagram} {spider stop : Nat} {kind : VertexKind} {legs : Legs} {m : Bool}

-- The entry, the box, the helper and the end, whatever their places on the drawing.
structure LegVertices (kind : VertexKind) (entry box helper end_ : Vertex) : Prop where
  entryKind : entry.kind = kind
  entryPhase : entry.phase = .pi
  boxKind : box.kind = .hBox
  boxPhase : box.phase = .pi
  helperKind : helper.kind = .z
  helperPhase : helper.phase = .zero
  endKind : end_.kind = .boundary
  endPhase : end_.phase = .zero
  entryMark : entry.marker = none
  boxMark : box.marker = none
  helperMark : helper.marker = some .starHelper
  endMark : end_.marker = none

def legWires (n : Nat) : List Edge :=
  [.between n (n + 1) .simple, .between (n + 1) (n + 2) .simple, .between (n + 1) (n + 3) .simple]

-- `after` is `d` with one more leg on the spider.
def HasLeg (d after : Diagram) (spider : Nat) (kind : VertexKind) : Prop :=
  ∃ entry box helper end_, LegVertices kind entry box helper end_ ∧
    Grown d after [(d.next, entry), (d.next + 1, box), (d.next + 2, helper), (d.next + 3, end_)]
      (legWires d.next ++ [.between spider d.next .simple])

theorem addStar_grown (sound : d.Sound) (unfreed : d.freed = []) {feed : Nat} (fed : feed ∈ d.ids)
    (qubit row helperQubit endRow : Float) : ∃ after, addStar d feed qubit row helperQubit endRow = (after, d.next + 2) ∧
      Grown d after [(d.next, Vertex.hBox.placed qubit row), (d.next + 1, (Vertex.z.placed helperQubit row).mark .starHelper),
          (d.next + 2, Vertex.boundary.placed qubit endRow)]
        [.between feed d.next .simple, .between d.next (d.next + 1) .simple, .between d.next (d.next + 2) .simple] := by
  have first : Grown d (d.add _) [(d.next, Vertex.hBox.placed qubit row)] [] := (Grown.start sound unfreed).add _
  have second : Grown d ((d.add _).add _) [(d.next, Vertex.hBox.placed qubit row),
    (d.next + 1, (Vertex.z.placed helperQubit row).mark .starHelper)] [] := first.add _
  have third : Grown d (((d.add _).add _).add _) [(d.next, Vertex.hBox.placed qubit row),
    (d.next + 1, (Vertex.z.placed helperQubit row).mark .starHelper), (d.next + 2, Vertex.boundary.placed qubit endRow)] [] :=
    second.add _
  have used := sound.used feed fed
  simp only [addStar, fresh_unfreed unfreed, first.fresh, second.fresh]
  refine ⟨_, rfl, ?_⟩
  have box := third.link (a := feed) (b := d.next) (third.mem_ids.mpr (.inl fed)) (third.mem_ids.mpr (by simp)) (by omega)
    (fun near => sound.unmet (Nat.le_refl _) near.symm) (by simp) .simple
  have helper := box.link (a := d.next) (b := d.next + 1) (box.mem_ids.mpr (by simp)) (box.mem_ids.mpr (by simp)) (by omega)
    (sound.unmet (Nat.le_refl _)) (by simp [Edge.between_ends_iff]; omega) .simple
  exact helper.link (helper.mem_ids.mpr (by simp)) (helper.mem_ids.mpr (by simp)) (by simp) (sound.unmet (Nat.le_refl _))
    (by simp [Edge.between_ends_iff]; omega) .simple

theorem leg_grown (sound : d.Sound) (unfreed : d.freed = []) (live : spider ∈ d.ids) (entry : Vertex)
    (qubit row helperQubit endRow : Float) : ∃ middle, addStar (d.add entry) d.next qubit row helperQubit endRow = (middle, d.next + 3) ∧
      Grown d (middle.link spider d.next .simple) [(d.next, entry), (d.next + 1, Vertex.hBox.placed qubit row),
          (d.next + 2, (Vertex.z.placed helperQubit row).mark .starHelper), (d.next + 3, Vertex.boundary.placed qubit endRow)]
        (legWires d.next ++ [.between spider d.next .simple]) := by
  have first : Grown d (d.add _) [(d.next, entry)] [] := (Grown.start sound unfreed).add _
  have entered : d.next ∈ (d.add entry).ids := first.mem_ids.mpr (.inr (by simp))
  obtain ⟨middle, starred, grown⟩ := addStar_grown first.sound first.unfreed entered qubit row helperQubit endRow
  have next : (d.add entry).next = d.next + 1 := first.next
  rw [next] at starred grown
  have used := sound.used spider live
  have all := first.trans grown
  refine ⟨middle, starred, ?_⟩
  exact all.link (all.mem_ids.mpr (.inl live)) (all.mem_ids.mpr (by simp)) (by omega)
    (fun near => sound.unmet (Nat.le_refl _) near.symm) (by simp [Edge.between_ends_iff]; omega) .simple

theorem controlLeg_leg (sound : d.Sound) (unfreed : d.freed = []) (live : spider ∈ d.ids) (n i : Nat) :
    ∃ after, controlLeg d n i spider = (after, d.next + 3) ∧ HasLeg d after spider .x := by
  obtain ⟨middle, starred, grown⟩ := leg_grown sound unfreed live
    ((Vertex.x.withPhase .pi).placed (i.toFloat - n.toFloat - 1) 3) (i.toFloat - n.toFloat - 1) 3.5
    (i.toFloat - n.toFloat - 1 - 0.2) 4
  refine ⟨middle.link spider d.next .simple, ?_, _, _, _, _, ?_, grown⟩
  · simp only [controlLeg, fresh_unfreed unfreed, starred]
  · constructor <;> rfl

theorem targetLeg_leg (sound : d.Sound) (unfreed : d.freed = []) (live : spider ∈ d.ids) :
    ∃ after, targetLeg d spider = (after, d.next + 3) ∧ HasLeg d after spider .z := by
  obtain ⟨middle, starred, grown⟩ := leg_grown sound unfreed live ((Vertex.z.withPhase .pi).placed (-0.5) 3) (-1) 3 (-1.2) 3.5
  refine ⟨middle.link spider d.next .simple, ?_, _, _, _, _, ?_, grown⟩
  · simp only [targetLeg, fresh_unfreed unfreed, starred]
  · constructor <;> rfl

section

variable (leg : HasLeg d after spider kind) (sound : d.Sound) (live : spider ∈ d.ids)
include leg sound live

theorem HasLeg.inward (inner : ¬d.IsBoundary spider) (spiderKind : kind ≠ .boundary) :
    ∃ new es, Grown d after new es ∧ Inward d new es [] [d.next + 3] := by
  obtain ⟨entry, box, helper, end_, known, grown⟩ := leg
  have entryInner : entry.kind ≠ .boundary := known.entryKind ▸ spiderKind
  have used := sound.used spider live
  have far : spider ≠ d.next + 3 := by omega
  refine ⟨_, _, grown, ?_⟩
  unfold legWires
  constructor
  case inner =>
    intro v bound
    have below := sound.bound_used bound
    have away : spider ≠ v := fun same => inner (same ▸ bound)
    simp only [List.cons_append, List.nil_append, List.forall_mem_cons, Edge.touches_between]
    refine ⟨by omega, by omega, by omega, by omega, nofun⟩
  case outputsNew =>
    have beyond : d.next + 1 ∉ d.ids := sound.beyond (by omega)
    simp [Edge.between_ends_iff, beyond, far]
  all_goals simp [boundaries, Edge.touches_between, Edge.between_ends_iff, List.countP_cons, known.boxKind, known.helperKind,
    known.endKind, entryInner, far]

end

theorem leg_stock {entry box helper end_ : Vertex} (known : LegVertices kind entry box helper end_) (spiderKind : kind ≠ .hBox)
    {n : Nat} (below : spider < n) :
    Stock [(n, entry), (n + 1, box), (n + 2, helper), (n + 3, end_)] (legWires n ++ [.between spider n .simple]) 4 1 4 := by
  have entryOther : entry.kind ≠ .hBox := known.entryKind ▸ spiderKind
  have helpers : ∀ v, Helper [(n, entry), (n + 1, box), (n + 2, helper), (n + 3, end_)] v ↔ v = n + 2 := fun v => by
    simp [Helper, stands_cons, stands_nil, known.helperMark, known.entryMark, known.boxMark, known.endMark]
  have boxes : ∀ v, Box [(n, entry), (n + 1, box), (n + 2, helper), (n + 3, end_)] v ↔ v = n + 1 := fun v => by
    simp [Box, stands_cons, stands_nil, known.boxKind, known.helperKind, known.endKind, entryOther]
  have meets : ∀ v w, Meets (legWires n ++ [.between spider n .simple]) v w ↔
      (n = v ∧ n + 1 = w ∨ n = w ∧ n + 1 = v) ∨ (n + 1 = v ∧ n + 2 = w ∨ n + 1 = w ∧ n + 2 = v) ∨
        (n + 1 = v ∧ n + 3 = w ∨ n + 1 = w ∧ n + 3 = v) ∨ (spider = v ∧ n = w ∨ spider = w ∧ n = v) := fun v w => by
    simp [Meets, legWires, Edge.between_ends_iff]
  have phases : ∀ entry' ∈ [(n, entry), (n + 1, box), (n + 2, helper), (n + 3, end_)], entry'.2.phase ≠ .third := by
    have turns : Phase.pi ≠ .third ∧ Phase.zero ≠ .third := by decide
    simp [known.entryPhase, known.boxPhase, known.helperPhase, known.endPhase, turns]
  refine ⟨⟨fun h held => ?_, fun b held => ?_, ?_, fun entry' held _ => phases entry' held⟩, rfl, ?_, rfl, ?_, phases⟩
  · obtain rfl := (helpers h).mp held
    refine ⟨n + 1, (boxes _).mpr rfl, fun w => ?_⟩
    rw [meets]
    omega
  · obtain rfl := (boxes b).mp held
    refine ⟨?_, n + 2, (helpers _).mpr rfl, ?_, fun k held _ => (helpers k).mp held⟩
    · have off : spider ≠ n + 1 := by omega
      simp [legWires, Edge.touches_between, off]
    · rw [meets]
      omega
  · simp [known.helperKind, known.entryMark, known.boxMark, known.endMark]
  · simp [known.helperMark, known.entryMark, known.boxMark, known.endMark]
  · simp [legWires, Edge.between]

theorem HasLeg.stocked {size stars count : Nat} (leg : HasLeg d after spider kind) (sound : d.Sound) (live : spider ∈ d.ids)
    (spiderKind : kind ≠ .hBox) (plain : ¬(Helper d.vertices spider ∨ Box d.vertices spider)) (stocked : Stocked d size stars count) :
    Stocked after (size + 4) (stars + 1) (count + 4) := by
  obtain ⟨entry, box, helper, end_, known, grown⟩ := leg
  refine stocked.grow sound grown (leg_stock known spiderKind (sound.used spider live)) fun e held v star => ?_
  have below := sound.used v (star_listed star)
  have other : spider ≠ v := fun same => plain (same ▸ star)
  have away : ∀ e ∈ legWires d.next ++ [.between spider d.next .simple], ¬e.touches v = true := by
    simp only [legWires, List.cons_append, List.nil_append, List.forall_mem_cons, Edge.touches_between]
    refine ⟨by omega, by omega, by omega, by omega, nofun⟩
  exact away e held

-- A leg hands the bit at its end to the box and sums over the bits of its two inner wires.
theorem leg_sum {entry box helper end_ : Vertex} {n : Nat} {c : Bool} (bound : end_.kind = .boundary) (holds : Holds legs (n + 3) m)
    (bare : ∀ k < 3, Bare legs (n + k)) :
    contract [(n, entry), (n + 1, box), (n + 2, helper), (n + 3, end_)] (legWires n) ({(n, c)} + legs) =
      ∑ e : Bool, ∑ h : Bool, entry.reads [e, c] * (box.reads [h, e, m] * helper.reads [h]) := by
  have vertices : [(n, entry), (n + 1, box), (n + 2, helper), (n + 3, end_)].Perm
      [(n + 3, end_), (n, entry), (n + 1, box), (n + 2, helper)] := List.perm_append_singleton (n + 3, end_) [(n, entry), _, _]
  have wires : (legWires n).Perm
      [.between (n + 3) (n + 1) .simple, .between n (n + 1) .simple, .between (n + 1) (n + 2) .simple] := by
    rw [between_comm (n + 3)]
    exact List.perm_append_singleton (Edge.between (n + 1) (n + 3) .simple) [.between n (n + 1) .simple, _]
  rw [contract_perm vertices wires, contract_boundary bound (holds.foreign (by omega)) (by omega)
    (apart_between (by omega) (by omega) (apart_between (by omega) (by omega) apart_nil)) (by simp), contract_simple]
  refine Finset.sum_congr rfl fun e _ => ?_
  rw [contract_simple]
  refine Finset.sum_congr rfl fun h _ => ?_
  have entryBare : ∀ b, legs.count (n, b) = 0 := bare 0 (by omega)
  simp only [contract, weigh, List.map_cons, List.map_nil, List.prod_cons, List.prod_nil, count_pair, count_one, entryBare,
    bare 1 (by omega) _, bare 2 (by omega) _, Vertex.reads]
  simp [List.count_cons, add_comm, add_left_comm]

-- What a leg makes of the bit at its spider and the bit at its end when its vertices are read through `f`.
def LegReads (f : Vertex → Vertex) (kind : VertexKind) (value : Bool → Bool → ℂ) : Prop :=
  ∀ {entry box helper end_ : Vertex} {n : Nat} {c m : Bool} {legs : Legs}, LegVertices kind entry box helper end_ →
    Holds legs (n + 3) m → (∀ k < 3, Bare legs (n + k)) →
    contract [(n, f entry), (n + 1, f box), (n + 2, f helper), (n + 3, f end_)] (legWires n) ({(n, c)} + legs) = value c m

-- A box passes a bit on unless both bits at it are one; the helper adds up to two.
noncomputable def legValue (kind : VertexKind) (c m : Bool) : ℂ :=
  match kind with
  | .z => if c then (if m then 0 else -(1 + 1)) else 1 + 1
  | _ => if m then (if c then 1 + 1 else 0) else 1 + 1

section

variable {entry : Vertex} {e c : Bool}

-- The first spider of a control's leg flips the bit, that of the target's leg signs it.
theorem entry_flips (entryKind : entry.kind = .x) (phase : entry.phase = .pi) : entry.reads [e, c] = if e = !c then 1 else 0 :=
  (lineValue_flip (i := e) (o := c) entryKind phase).trans (by cases e <;> cases c <;> rfl)

theorem entry_signs (entryKind : entry.kind = .z) (phase : entry.phase = .pi) :
    entry.reads [e, c] = if e = c then (if c then -1 else 1) else 0 := by
  cases e <;> cases c <;> simp [Vertex.reads, Vertex.weight, entryKind, phase, Phase.turn_pi]

end

theorem leg_value (spiderKind : kind = .x ∨ kind = .z) : LegReads id kind (legValue kind) := by
  intro entry box helper end_ n c m legs known holds bare
  have helped : ∀ h, helper.reads [h] = 1 := fun h => by
    cases h <;> simp [Vertex.reads, Vertex.weight, known.helperKind, known.helperPhase, Phase.turn_zero]
  have boxed : ∀ h e, box.reads [h, e, m] = if h ∧ e ∧ m then -1 else 1 := fun h e => by
    cases h <;> cases e <;> cases m <;> simp [Vertex.reads, Vertex.weight, known.boxKind, known.boxPhase, Phase.turn_pi]
  refine (leg_sum known.endKind holds bare).trans ?_
  simp only [id_eq, helped, boxed, mul_one]
  rcases spiderKind with rfl | rfl
  · simp only [entry_flips known.entryKind known.entryPhase]
    cases c <;> cases m <;> simp [legValue, one_add_one_eq_two]
  · simp only [entry_signs known.entryKind known.entryPhase]
    cases c <;> cases m <;> simp [legValue, one_add_one_eq_two]

theorem HasLeg.meaning {f : Vertex → Vertex} {value : Bool → Bool → ℂ} (leg : HasLeg d after spider kind) (sound : d.Sound)
    (live : spider ∈ d.ids) (reads : LegReads f kind value) (holds : Holds legs (d.next + 3) m)
    (bare : ∀ k < 3, Bare legs (d.next + k)) :
    contract (after.recast f).vertices after.edges legs =
      ∑ c : Bool, contract (d.recast f).vertices d.edges ({(spider, c)} + legs) * value c m := by
  obtain ⟨entry, box, helper, end_, known, grown⟩ := leg
  have read : Grown (d.recast f) (after.recast f) [(d.next, f entry), (d.next + 1, f box), (d.next + 2, f helper),
    (d.next + 3, f end_)] (legWires d.next ++ [.between spider d.next .simple]) := grown.recast f
  have own : Own [(d.next, f entry), (d.next + 1, f box), (d.next + 2, f helper), (d.next + 3, f end_)] (legWires d.next) :=
    own_between (by simp) (by simp) (own_between (by simp) (by simp) (own_between (by simp) (by simp) own_nil))
  have liveRead : spider ∈ (d.recast f).ids := by rwa [recast_ids]
  refine (read.hung (sound.recast f) own liveRead (by simp)).trans ?_
  exact Finset.sum_congr rfl fun c _ => congrArg _ (reads known holds bare)

-- Leg after leg; the bits of all their spiders are summed.
structure HasLegs (d after : Diagram) (spiders stops : List Nat) : Prop where
  more : ∃ new es, Grown d after new es
  tidy : ∀ ins outs, (d.within ins outs).Tidy → (after.within ins (outs ++ stops)).Tidy
  lengths : stops.length = spiders.length
  fresh : ∀ stop ∈ stops, d.next ≤ stop ∧ stop < after.next
  stock : ∀ size stars count, Stocked d size stars count → (∀ s ∈ spiders, ¬(Helper d.vertices s ∨ Box d.vertices s)) →
    Stocked after (size + 4 * spiders.length) (stars + spiders.length) (count + 4 * spiders.length)
  meaning : ∀ {f value}, LegReads f .x value → ∀ legs m, (∀ stop ∈ stops, Holds legs stop m) →
    (∀ v, d.next ≤ v → v < after.next → v ∉ stops → Bare legs v) →
    contract (after.recast f).vertices after.edges legs = sumBits spiders.length fun bits =>
      (bits.map (value · m)).prod * contract (d.recast f).vertices d.edges (↑(spiders.zip bits) + legs)

theorem HasLeg.next (leg : HasLeg d after spider kind) : after.next = d.next + 4 := by
  obtain ⟨entry, box, helper, end_, _, grown⟩ := leg
  exact grown.next

section

variable {middle : Diagram} {rest stops : List Nat} (leg : HasLeg d middle spider .x) (sound : d.Sound) (live : spider ∈ d.ids)
  (old : ∀ t ∈ rest, t ∈ d.ids) (further : HasLegs middle after rest stops)
include leg sound live old further

-- The later spiders were there before the first leg, so it changes nothing about them.
theorem HasLegs.cons_stocked {size stars count : Nat} (stocked : Stocked d size stars count)
    (plain : ∀ s ∈ spider :: rest, ¬(Helper d.vertices s ∨ Box d.vertices s)) :
    Stocked after (size + 4 * (spider :: rest).length) (stars + (spider :: rest).length) (count + 4 * (spider :: rest).length) := by
  obtain ⟨first, others⟩ := List.forall_mem_cons.mp plain
  have one := leg.stocked sound live (by decide) first stocked
  obtain ⟨entry, box, helper, end_, _, grown⟩ := leg
  have whole := further.stock _ _ _ one fun t later =>
    mt (or_congr (grown.stands (old t later)) (grown.stands (old t later))).mp (others t later)
  rw [List.length_cons, Nat.mul_succ]
  convert whole using 1 <;> omega

-- The sum over the first spider's bit comes inside the sum over the others'.
theorem HasLegs.cons_meaning {f : Vertex → Vertex} {value : Bool → Bool → ℂ} (reads : LegReads f .x value)
    (holds : ∀ stop ∈ (d.next + 3) :: stops, Holds legs stop m)
    (bare : ∀ v, d.next ≤ v → v < after.next → v ∉ (d.next + 3) :: stops → Bare legs v) :
    contract (after.recast f).vertices after.edges legs = sumBits (spider :: rest).length fun bits =>
      (bits.map (value · m)).prod * contract (d.recast f).vertices d.edges (↑((spider :: rest).zip bits) + legs) := by
  have next := leg.next
  have beyond : middle.next ≤ after.next := by
    obtain ⟨_, _, grown⟩ := further.more
    have := grown.next
    omega
  have apart : ∀ k < 4, d.next + k ∉ stops := fun k small later => by
    have above := further.fresh _ later
    omega
  have outside : ∀ v, d.next ≤ v → v ∉ rest := fun v above present => sound.beyond above (old v present)
  have later : ∀ v, middle.next ≤ v → v < after.next → v ∉ stops → Bare legs v := fun v above below absent =>
    bare v (by omega) below (List.not_mem_cons_of_ne_of_not_mem (by omega) absent)
  rw [further.meaning reads legs m (fun stop listed => holds stop (List.mem_cons_of_mem _ listed)) later, List.length_cons, sumBits,
    sumBits_comm]
  refine sumBits_congr fun bits _ => ?_
  have ownHolds : Holds (↑(rest.zip bits) + legs) (d.next + 3) m :=
    (holds _ List.mem_cons_self).beside (bare_zip (outside _ (by omega)))
  have ownBare : ∀ k < 3, Bare (↑(rest.zip bits) + legs) (d.next + k) := fun k small =>
    bare_add (bare_zip (outside _ (by omega)))
      (bare _ (by omega) (by omega) (List.not_mem_cons_of_ne_of_not_mem (by omega) (apart k (by omega))))
  rw [leg.meaning sound live reads ownHolds ownBare, Finset.mul_sum]
  refine Finset.sum_congr rfl fun c _ => ?_
  rw [zip_legs, add_assoc, List.map_cons, List.prod_cons]
  ring

theorem HasLegs.cons (inner : ¬d.IsBoundary spider) : HasLegs d after (spider :: rest) ((d.next + 3) :: stops) := by
  obtain ⟨new, es, grown, inward⟩ := leg.inward sound live inner (by decide)
  obtain ⟨newer, fs, grownOn⟩ := further.more
  have next := leg.next
  have beyond := grownOn.next
  refine ⟨⟨_, _, grown.trans grownOn⟩, fun ins outs tidy => ?_, by simp [further.lengths], fun stop present => ?_,
    fun _ _ _ stocked plain => further.cons_stocked leg sound live old stocked plain,
    fun reads _ _ holds bare => further.cons_meaning leg sound live old reads holds bare⟩
  · have one := tidy.grow grown inward
    have rest_ := further.tidy _ _ one
    simpa using rest_
  · rcases List.mem_cons.mp present with rfl | later
    · omega
    · have above := further.fresh stop later
      omega

end

theorem controlLegs_legs {spiders : List Nat} (sound : d.Sound) (unfreed : d.freed = []) (n i : Nat)
    (live : ∀ s ∈ spiders, s ∈ d.ids ∧ ¬d.IsBoundary s) :
    HasLegs d (controlLegs n d i spiders).1 spiders (controlLegs n d i spiders).2 := by
  induction spiders generalizing d i with
  | nil =>
    refine ⟨⟨[], [], .start sound unfreed⟩, fun ins outs tidy => ?_, rfl, nofun, fun _ _ _ stocked _ => stocked, fun _ legs m _ _ => ?_⟩
    · simpa [controlLegs] using tidy
    · simp [controlLegs, sumBits]
  | cons s rest ih =>
    obtain ⟨⟨here, inner⟩, others⟩ := List.forall_mem_cons.mp live
    obtain ⟨middle, made, leg⟩ := controlLeg_leg sound unfreed here n i
    obtain ⟨new, es, grown, _⟩ := leg.inward sound here inner (by decide)
    have kept : ∀ t ∈ rest, t ∈ middle.ids ∧ ¬middle.IsBoundary t := fun t later =>
      grown.kept_inner (others t later).1 (others t later).2
    have further := ih grown.sound grown.unfreed (i + 1) kept
    simp only [controlLegs, made]
    exact further.cons leg sound here (fun t later => (others t later).1) inner

end ToffoliBench.Fragment

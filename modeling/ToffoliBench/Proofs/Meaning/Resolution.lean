import ToffoliBench.Proofs.Circuit.Register
import ToffoliBench.Proofs.Diagram.Recast
import ToffoliBench.Proofs.Diagram.Resolution

namespace ToffoliBench

-- What resolving makes of a vertex, as far as the linear map can tell.
def Vertex.resolved (x : Vertex) : Vertex :=
  if x.kind = .hBox then { x with kind := .z, phase := .third }
  else if x.marker = some .starHelper then { x with phase := .zero }
  else x

namespace Diagram
open Meaning Outcome

variable {d after : Diagram} {h b l r s v : Nat} {x y z : Vertex} {rest : List (Nat × Vertex)} {es : List Edge} {legs : Legs}

theorem resolved_reading : Reading Vertex.resolved := by
  refine ⟨fun x => ?_, fun x qubits rows => ?_, fun x => ?_⟩
  · unfold Vertex.resolved
    split
    · rename_i box
      simp [box]
    · split <;> rfl
  · unfold Vertex.resolved
    rw [show (x.shifted qubits rows).kind = x.kind from rfl, show (x.shifted qubits rows).marker = x.marker from rfl]
    split
    · rfl
    · split <;> rfl
  · unfold Vertex.resolved
    split
    · rfl
    · split <;> rfl

theorem resolved_self (box : x.kind ≠ .hBox) (helper : x.marker ≠ some .starHelper) : x.resolved = x := by
  rw [Vertex.resolved, if_neg box, if_neg helper]

-- The vertices of a gadget, or the one in its place, meet no other wires and no open legs.
structure Lone (rest : List (Nat × Vertex)) (es : List Edge) (legs : Legs) (v : Nat) : Prop where
  apart : ∀ x, Meaning.Apart [(v, x)] es
  absent : v ∉ rest.map Prod.fst
  bare : Bare legs v

theorem spider_meaning (lone : Lone rest es legs s) (left : l ≠ s) (right : r ≠ s) :
    contract ((s, z) :: rest) (.between r s .simple :: .between l s .simple :: es) legs =
      ∑ e : Bool, ∑ c : Bool, z.reads [c, e] * contract rest es ({(l, c), (r, e)} + legs) := by
  rw [contract_simple]
  refine Finset.sum_congr rfl fun e _ => ?_
  rw [contract_simple]
  refine Finset.sum_congr rfl fun c _ => ?_
  have others : SameAt rest ({(l, c), (s, c)} + ({(r, e), (s, e)} + legs)) ({(l, c), (r, e)} + legs) := by
    intro entry present p
    have away : s ≠ entry.1 := fun same => lone.absent (same ▸ List.mem_map_of_mem present)
    simp only [count_pair, away, false_and, if_false]
    ring
  rw [contract_cons (lone.apart z), contract_same others]
  simp only [count_pair, left, right, lone.bare _, true_and, false_and, if_false, zero_add, add_zero]
  cases c <;> cases e <;> rfl

theorem gadget_meaning (helper : Lone rest es legs h) (box : Lone rest es legs b) (different : b ≠ h) (left : l ≠ h ∧ l ≠ b)
    (right : r ≠ h ∧ r ≠ b) :
    contract ((h, y) :: (b, x) :: rest) (.between h b .simple :: .between b l .simple :: .between b r .simple :: es) legs =
      ∑ a : Bool, ∑ c : Bool, ∑ e : Bool, y.reads [a] * x.reads [a, c, e] * contract rest es ({(l, c), (r, e)} + legs) := by
  rw [contract_simple]
  refine Finset.sum_congr rfl fun a _ => ?_
  rw [contract_simple]
  refine Finset.sum_congr rfl fun c _ => ?_
  rw [contract_simple]
  refine Finset.sum_congr rfl fun e _ => ?_
  have others : SameAt rest ({(b, e), (r, e)} + ({(b, c), (l, c)} + ({(h, a), (b, a)} + legs))) ({(l, c), (r, e)} + legs) := by
    intro entry present p
    have notHelper : h ≠ entry.1 := fun same => helper.absent (same ▸ List.mem_map_of_mem present)
    have notBox : b ≠ entry.1 := fun same => box.absent (same ▸ List.mem_map_of_mem present)
    simp only [count_pair, notHelper, notBox, false_and, if_false]
    ring
  rw [contract_cons (helper.apart y), contract_cons (box.apart x), contract_same others, mul_assoc]
  simp only [count_pair, different, different.symm, left, right, helper.bare _, box.bare _, true_and, false_and, if_false, zero_add,
    add_zero]
  cases a <;> cases c <;> cases e <;> rfl

-- A bare spider on one leg of a spider adds up to that spider with one leg less.
theorem third_sum (helperKind : y.kind = .z) (helperPhase : y.phase = .zero) (boxKind : x.kind = .z) (boxPhase : x.phase = .third)
    (spiderKind : z.kind = .z) (spiderPhase : z.phase = .third) (c e : Bool) :
    ∑ a : Bool, y.reads [a] * x.reads [a, c, e] = z.reads [c, e] := by
  have one : ∀ a, y.reads [a] = 1 := fun a => by
    cases a <;> simp [Vertex.reads, Vertex.weight, helperKind, helperPhase, Phase.turn_zero]
  simp only [one, one_mul, Fintype.sum_bool]
  cases c <;> cases e <;> simp [Vertex.reads, Vertex.weight, boxKind, boxPhase, spiderKind, spiderPhase]

section

variable (star : Star d h b l r x) (sound : d.Sound) (simple : ∀ e ∈ d.edges, e.kind = .simple)
include star sound simple

-- All three wires of a gadget are plain ones.
theorem Star.simple_edges : d.edges.Perm
    (.between h b .simple :: .between b l .simple :: .between b r .simple :: (d.unstarred h b).edges) := by
  obtain ⟨i, m, n, edges⟩ := star.edges sound
  obtain ⟨first, others⟩ := List.forall_mem_cons.mp fun e held => simple e (edges.mem_iff.mpr held)
  obtain ⟨second, others⟩ := List.forall_mem_cons.mp others
  obtain ⟨third, _⟩ := List.forall_mem_cons.mp others
  rw [show i = .simple from first, show m = .simple from second, show n = .simple from third] at edges
  exact edges

-- The gadget read as resolved and the spider in its place are weighed alike.
theorem Star.meaning (helper : Helper d.vertices h) (spider : ∀ y, (h, y) ∈ d.vertices → y.kind = .z)
    (bare : ∀ v, v = h ∨ v = b ∨ v = (d.unstarred h b).fresh → Bare legs v) :
    contract ((d.resolvedStar h b l r x).recast Vertex.resolved).vertices (d.resolvedStar h b l r x).edges legs =
      contract (d.recast Vertex.resolved).vertices d.edges legs := by
  obtain ⟨y, held, vertices⟩ := star.vertices sound
  obtain ⟨different, left, right, _⟩ := star.distinct sound
  obtain ⟨⟨leftLive, rightLive⟩, leftNew, rightNew⟩ := star.outer_live sound
  have opened : (d.unstarred h b).Sound := (sound.without h).without b
  have marked : y.marker = some .starHelper := by
    obtain ⟨w, listed, marked⟩ := helper
    rwa [vertex_unique sound.nodup held listed]
  have spiderKind := spider y held
  have lone : ∀ v, v ∉ (d.unstarred h b).ids → Bare legs v →
      Lone ((d.unstarred h b).recast Vertex.resolved).vertices (d.unstarred h b).edges legs v := by
    intro v gone bare
    refine ⟨fun w e present entry listed => ?_, fun listed => gone ?_, bare⟩
    · obtain rfl := List.mem_singleton.mp listed
      obtain ⟨low, high⟩ := opened.live e present
      exact ⟨fun same : v = e.low => gone (same ▸ low), fun same : v = e.high => gone (same ▸ high)⟩
    · have same : ((d.unstarred h b).recast Vertex.resolved).ids = (d.unstarred h b).ids := recast_ids
      exact same ▸ listed
  have helperGone : h ∉ (d.unstarred h b).ids := fun live => (mem_without_ids.mp (mem_without_ids.mp live).1).2 rfl
  have boxGone : b ∉ (d.unstarred h b).ids := fun live => (mem_without_ids.mp live).2 rfl
  have before : (d.recast Vertex.resolved).vertices.Perm
      ((h, y.resolved) :: (b, x.resolved) :: ((d.unstarred h b).recast Vertex.resolved).vertices) := vertices.map _
  have now : ((d.resolvedStar h b l r x).recast Vertex.resolved).vertices.Perm
      (((d.unstarred h b).fresh, (spiderFor x).resolved) :: ((d.unstarred h b).recast Vertex.resolved).vertices) :=
    resolvedStar_vertices.map _
  have boxed : x.resolved = { x with kind := .z, phase := .third } := if_pos star.isBox
  have helped : y.resolved = { y with phase := .zero } := by
    rw [Vertex.resolved, if_neg (by simp [spiderKind]), if_pos marked]
  have new : (spiderFor x).resolved = spiderFor x := resolved_self nofun nofun
  rw [contract_perm before (star.simple_edges sound simple), contract_perm now resolvedStar_edges,
    gadget_meaning (lone h helperGone (bare h (.inl rfl))) (lone b boxGone (bare b (.inr (.inl rfl)))) different left right,
    spider_meaning (lone _ opened.fresh_new (bare _ (.inr (.inr rfl)))) leftNew rightNew]
  have third : ∀ c e, ∑ a : Bool, y.resolved.reads [a] * x.resolved.reads [a, c, e] = (spiderFor x).resolved.reads [c, e] := by
    refine third_sum ?_ ?_ ?_ ?_ ?_ ?_
    · rw [helped]
      exact spiderKind
    · rw [helped]
    · rw [boxed]
    · rw [boxed]
    · rw [new]
      rfl
    · rw [new]
      rfl
  rw [Finset.sum_comm]
  conv_rhs => rw [Finset.sum_comm]
  refine Finset.sum_congr rfl fun c _ => ?_
  conv_rhs => rw [Finset.sum_comm]
  refine Finset.sum_congr rfl fun e _ => ?_
  rw [← third, Finset.sum_mul]

end

theorem Star.boundaries (star : Star d h b l r x) (formed : d.WellFormed) (helper : ¬d.IsBoundary h) :
    (d.resolvedStar h b l r x).inputs = d.inputs ∧ (d.resolvedStar h b l r x).outputs = d.outputs ∧
      ∀ v, (d.resolvedStar h b l r x).IsBoundary v ↔ d.IsBoundary v := by
  have box : ¬d.IsBoundary b := by
    rintro ⟨y, held, bound⟩
    obtain rfl := vertex_unique formed.nodup star.box held
    rw [star.isBox] at bound
    cases bound
  have kept : ∀ vs : List Nat, (∀ v ∈ vs, d.IsBoundary v) → (vs.filter (· != h)).filter (· != b) = vs := by
    intro vs bounds
    rw [List.filter_filter, List.filter_eq_self]
    intro v held
    have notHelper : v ≠ h := fun same => helper (same ▸ bounds v held)
    have notBox : v ≠ b := fun same => box (same ▸ bounds v held)
    simp [notHelper, notBox]
  have inputs : (d.resolvedStar h b l r x).inputs = d.inputs :=
    kept d.inputs fun v held => (formed.covered v).mp (List.mem_append_left _ held)
  have outputs : (d.resolvedStar h b l r x).outputs = d.outputs :=
    kept d.outputs fun v held => (formed.covered v).mp (List.mem_append_right _ held)
  have still := resolveStar_wellFormed formed (star.resolves formed.toSound)
  refine ⟨inputs, outputs, fun v => ?_⟩
  rw [← still.covered, ← formed.covered, inputs, outputs]

theorem Pending.meaning {helpers : List Nat} {size thirds count : Nat} (pending : Pending d helpers size thirds count)
    (formed : d.WellFormed) (ran : d.resolveStars helpers = .ok after) : after.inputs = d.inputs ∧ after.outputs = d.outputs ∧
      ∀ legs, (∀ v, ¬d.IsBoundary v → Bare legs v) → contract (after.recast Vertex.resolved).vertices after.edges legs =
        contract (d.recast Vertex.resolved).vertices d.edges legs := by
  induction helpers generalizing d with
  | nil =>
    obtain rfl := Except.ok.inj ran
    exact ⟨rfl, rfl, fun _ _ => rfl⟩
  | cons h rest ih =>
    obtain ⟨middle, first, others⟩ := bind_ok.mp ran
    obtain ⟨again, stepped, left, _⟩ := pending.step
    obtain rfl := Except.ok.inj (first.symm.trans stepped)
    obtain ⟨b, l, r, x, star, rfl⟩ := (resolveStar_ok formed.toSound).mp first
    have helper : Helper d.vertices h := (pending.left h).mpr List.mem_cons_self
    have inner := pending.starry.star_inner formed.toSound (.inl helper)
    obtain ⟨inputs, outputs, bounds⟩ := star.boundaries formed inner
    obtain ⟨laterInputs, laterOutputs, later⟩ := ih left (resolveStar_wellFormed formed first) others
    refine ⟨laterInputs.trans inputs, laterOutputs.trans outputs, fun legs bare => ?_⟩
    rw [later legs fun v free => bare v (mt (bounds v).mpr free)]
    have spider : ∀ y, (h, y) ∈ d.vertices → y.kind = .z := by
      intro y held
      obtain ⟨w, listed, marked⟩ := helper
      obtain rfl := vertex_unique formed.nodup held listed
      exact pending.starry.spider _ held marked
    refine star.meaning formed.toSound pending.simple helper spider fun v which => bare v fun bound => ?_
    rcases which with rfl | rfl | rfl
    · exact inner bound
    · exact pending.starry.star_inner formed.toSound (.inr ⟨x, star.box, star.isBox⟩) bound
    · -- The new spider may take the name of a vertex that went.
      obtain ⟨w, listed, kind⟩ := (bounds _).mpr bound
      have new : ((d.unstarred h b).fresh, spiderFor x) ∈ (d.resolvedStar h b l r x).vertices :=
        resolvedStar_vertices.mem_iff.mpr List.mem_cons_self
      rw [vertex_unique (star.linked formed.toSound).2.2.nodup listed new] at kind
      cases kind

theorem contract_weighed {f : Vertex → Vertex} (same : ∀ x zeros ones, (f x).weight zeros ones = x.weight zeros ones) :
    contract (d.recast f).vertices es legs = contract d.vertices es legs := by
  induction es generalizing legs with
  | nil =>
    simp only [contract, weigh, recast, List.map_map]
    exact congrArg List.prod (List.map_congr_left fun entry _ => same ..)
  | cons e rest ih => simp only [contract, ih]

-- Resolving a diagram reads another vertex in the place of each box and helper.
theorem Stocked.resolved_entry {size stars count : Nat} (stocked : Stocked d (size + stars) stars (count + stars))
    (formed : d.WellFormed) : ∃ after, d.resolveMarkers = .ok (stars, after) ∧ after.inputs = d.inputs ∧ after.outputs = d.outputs ∧
      ∀ out inp, after.entry out inp = (d.recast Vertex.resolved).entry out inp := by
  obtain ⟨after, done, _, beside⟩ := stocked.resolves formed.toSound
  obtain ⟨many, pending⟩ := stocked.pending formed.toSound
  obtain ⟨left, ran, ended⟩ := bind_ok.mp done
  obtain ⟨again, ranAgain, finished, _⟩ := pending.run
  obtain rfl := Except.ok.inj (ran.symm.trans ranAgain)
  obtain ⟨_, rfl⟩ := Prod.mk.inj (pure_ok.mp ended)
  obtain ⟨inputs, outputs, meaning⟩ := pending.meaning formed ran
  have plain : left.recast Vertex.resolved = left := recast_self fun entry held =>
    resolved_self (fun box => finished.boxless ⟨_, held, box⟩) fun helper => List.not_mem_nil ((finished.left _).mp ⟨_, held, helper⟩)
  refine ⟨_, done, inputs, outputs, fun out inp => ?_⟩
  have legs : left.clearMarkers.openLegs out inp = d.openLegs out inp := by
    rw [openLegs, openLegs, show left.clearMarkers.inputs = d.inputs from inputs,
      show left.clearMarkers.outputs = d.outputs from outputs]
  have cleared : ∀ legs, contract left.clearMarkers.vertices left.edges legs = contract left.vertices left.edges legs := fun legs =>
    contract_weighed (f := fun x => { x with marker := none }) fun _ _ _ => rfl
  have bare : ∀ v, ¬d.IsBoundary v → Bare (d.openLegs out inp) v := fun v inner => formed.bare inner
  have same := meaning _ bare
  rw [plain, ← cleared] at same
  rw [entry, entry, beside.scalar, legs]
  exact congrArg (d.scalar.value * ·) same

end Diagram

end ToffoliBench

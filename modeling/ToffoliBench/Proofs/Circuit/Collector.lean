import ToffoliBench.Proofs.Circuit.Register

namespace ToffoliBench.Fragment

open Diagram Meaning

variable {d : Diagram} {legs : Legs} {master last : Nat}

-- Where the inputs lead, one by one.
def feeds (count master last : Nat) (is : List Nat) : List Nat := is.map fun i => if i + 1 = count then last else master

-- One more input, wired to a vertex that is there.
def withInput (d : Diagram) (x : Vertex) (feed : Nat) : Diagram :=
  ((d.add x).link d.next feed .simple).within (d.inputs ++ [d.next]) d.outputs

section

variable {x : Vertex} {feed : Nat} (sound : d.Sound) (unfreed : d.freed = []) (bound : x.kind = .boundary) (live : feed ∈ d.ids)
include sound unfreed live

theorem withInput_grown : Grown d ((d.add x).link d.next feed .simple) [(d.next, x)] [.between d.next feed .simple] := by
  have first : Grown d (d.add x) [(d.next, x)] [] := (Grown.start sound unfreed).add x
  have used := sound.used feed live
  exact first.link (first.mem_ids.mpr (by simp)) (first.mem_ids.mpr (.inl live)) (by omega) (sound.unmet (Nat.le_refl _))
    (by simp) .simple

theorem withInput_kept {v : Nat} (old : v ∈ d.ids) (inner : ¬d.IsBoundary v) :
    v ∈ (withInput d x feed).ids ∧ ¬(withInput d x feed).IsBoundary v :=
  (withInput_grown sound unfreed live).kept_inner old inner

include bound

theorem withInput_tidy (inner : ¬d.IsBoundary feed) (tidy : d.Tidy) : (withInput d x feed).Tidy := by
  have used := sound.used feed live
  have inward : Inward d [(d.next, x)] [.between d.next feed .simple] [d.next] [] := by
    constructor
    case inner =>
      intro v met
      have below := sound.bound_used met
      simp only [List.forall_mem_cons, Edge.touches_between]
      refine ⟨?_, nofun⟩
      rintro (same | rfl)
      · omega
      · exact inner met
    all_goals simp [boundaries, bound, Edge.touches_between, Edge.between_ends_iff]
    all_goals omega
  have start : (d.within d.inputs d.outputs).Tidy := tidy
  simpa [withInput] using start.grow (withInput_grown sound unfreed live) inward

theorem withInput_meaning {legs : Legs} {b : Bool} (holds : Holds legs d.next b) :
    contract (withInput d x feed).vertices (withInput d x feed).edges legs = contract d.vertices d.edges ({(feed, b)} + legs) := by
  have grown := withInput_grown (x := x) sound unfreed live
  have used := sound.used feed live
  have away : Meaning.Apart [(d.next, x)] d.edges := grown.old_apart sound
  have absent : d.next ∉ d.vertices.map Prod.fst := sound.beyond (Nat.le_refl _)
  rw [withInput, within_vertices, within_edges, grown.contract_all,
    contract_perm (List.perm_append_singleton _ _) (List.perm_append_singleton _ _),
    contract_boundary bound holds (by omega) away absent]

end

structure Fed (d after : Diagram) (into : List Nat) : Prop where
  tidy : d.Tidy → after.Tidy
  outputs : after.outputs = d.outputs
  scalar : after.scalar = d.scalar
  inputs : ∃ bounds, after.inputs = d.inputs ++ bounds ∧ bounds.length = into.length ∧ (∀ v ∈ bounds, d.next ≤ v) ∧
    ∀ legs bits, bits.length = into.length → (∀ leg ∈ bounds.zip bits, Holds legs leg.1 leg.2) →
      contract after.vertices after.edges legs = contract d.vertices d.edges (↑(into.zip bits) + legs)

theorem addInputs_fed (sound : d.Sound) (unfreed : d.freed = []) (live : ∀ v, v = master ∨ v = last → v ∈ d.ids ∧ ¬d.IsBoundary v)
    (count : Nat) (is : List Nat) : Fed d (addInputs count master last d is) (feeds count master last is) := by
  induction is generalizing d with
  | nil =>
    refine ⟨id, rfl, rfl, [], by simp [addInputs], rfl, nofun, fun legs bits length _ => ?_⟩
    simp [feeds, addInputs]
  | cons i rest ih =>
    obtain ⟨feed, chosen⟩ : ∃ feed, feed = if i + 1 = count then last else master := ⟨_, rfl⟩
    obtain ⟨x, bound, step⟩ : ∃ x : Vertex, x.kind = .boundary ∧ addInputs count master last d (i :: rest) =
        addInputs count master last (withInput d x feed) rest := by
      refine ⟨Vertex.boundary.placed (i.toFloat - count.toFloat) 0, rfl, ?_⟩
      simp only [addInputs, fresh_unfreed unfreed, ← chosen]
      rfl
    have known : feed = master ∨ feed = last := by rw [chosen]; split <;> simp
    obtain ⟨feedLive, feedInner⟩ := live feed known
    have grown := withInput_grown (x := x) sound unfreed feedLive
    have next : (withInput d x feed).next = d.next + 1 := grown.next
    have soundNow : (withInput d x feed).Sound := grown.sound.within _ _
    have unfreedNow : (withInput d x feed).freed = [] := grown.unfreed
    obtain ⟨tidy, outputs, scalar, bounds, inputs, lengths, above, meaning⟩ := ih soundNow unfreedNow
      fun v which => withInput_kept sound unfreed feedLive (live v which).1 (live v which).2
    have placed : feeds count master last (i :: rest) = feed :: feeds count master last rest := by simp [feeds, chosen]
    rw [step, placed]
    refine ⟨fun start => tidy (withInput_tidy sound unfreed bound feedLive feedInner start), outputs, scalar,
      d.next :: bounds, inputs.trans (List.append_assoc _ _ _), by simp [lengths], ?_, ?_⟩
    · intro v present
      rcases List.mem_cons.mp present with rfl | later
      · exact Nat.le_refl _
      · have beyond := above v later
        omega
    · intro legs bits length holds
      cases bits with
      | nil => cases length
      | cons b bits =>
        simp only [List.zip_cons_cons, List.forall_mem_cons] at holds
        obtain ⟨here, later⟩ := holds
        have outside : d.next ∉ feeds count master last rest := by
          intro present
          obtain ⟨j, _, same⟩ := List.mem_map.mp present
          have fed : d.next = master ∨ d.next = last := by rw [← same]; split <;> simp
          exact sound.beyond (Nat.le_refl _) (live _ fed).1
        have own : Holds (↑((feeds count master last rest).zip bits) + legs) d.next b := here.beside (bare_zip outside)
        rw [meaning legs bits (by simpa using length) later, withInput_meaning sound unfreed bound feedLive own, zip_legs,
          add_assoc]

-- The upper part of the closing gadget, for `controls` legs and the one of the target.
def collector (controls : Nat) : Diagram :=
  addInputs (controls + 1) 0 1
    (((empty.add (((Vertex.z.withPhase .pi).placed (-masterRow (controls + 1)) 1).mark .potentialMaster)).add
      ((Vertex.x.withPhase .pi).placed (-1) 1)).link 1 0 .simple) (List.range (controls + 1))

theorem feeds_range (controls : Nat) : feeds (controls + 1) 0 1 (List.range (controls + 1)) = List.replicate controls 0 ++ [1] := by
  rw [feeds, List.range_succ, List.map_append]
  congr 1
  · refine List.eq_replicate_iff.mpr ⟨by simp, fun v present => ?_⟩
    obtain ⟨i, inside, rfl⟩ := List.mem_map.mp present
    have below := List.mem_range.mp inside
    rw [if_neg (by omega)]
  · simp

theorem count_replicate (bits : List Bool) (v : Nat) (b : Bool) :
    Multiset.count (v, b) (↑((List.replicate bits.length 0).zip bits) : Legs) = if v = 0 then bits.count b else 0 := by
  induction bits with
  | nil => simp
  | cons c rest ih =>
    rw [List.length_cons, List.replicate_succ, zip_legs, count_one, ih, List.count_cons]
    by_cases zero : v = 0
    · cases c <;> cases b <;> simp [zero, add_comm]
    · simp [zero, Ne.symm zero]

-- What the two spiders make of the bits they are given.
theorem core_value {first second : Vertex} (firstKind : first.kind = .z) (firstPhase : first.phase = .pi)
    (secondKind : second.kind = .x) (secondPhase : second.phase = .pi) {bits : List Bool} {m : Bool}
    (bareFirst : Bare legs 0) (bareSecond : Bare legs 1) :
    contract [(0, first), (1, second)] [.between 1 0 .simple] (↑((List.replicate bits.length 0 ++ [1]).zip (bits ++ [m])) + legs) =
      (if true ∉ bits ∧ m = true then 1 else 0) - (if false ∉ bits ∧ m = false then 1 else 0) := by
  have split : (↑((List.replicate bits.length 0 ++ [1]).zip (bits ++ [m])) : Legs) =
      {(1, m)} + ↑((List.replicate bits.length 0).zip bits) := by
    rw [List.zip_append (by simp), ← Multiset.coe_add, add_comm]
    rfl
  have summed : contract [(0, first), (1, second)] [.between 1 0 .simple]
      (↑((List.replicate bits.length 0 ++ [1]).zip (bits ++ [m])) + legs) =
      ∑ e : Bool, first.reads (e :: bits) * second.reads [e, m] := by
    rw [contract_simple, split, add_assoc]
    refine Finset.sum_congr rfl fun e _ => ?_
    simp only [contract, weigh, List.map_cons, List.map_nil, List.prod_cons, List.prod_nil, count_pair, count_one]
    simp only [Multiset.count_add, count_replicate, bareFirst _, bareSecond _, Vertex.reads]
    simp [List.count_cons, add_comm]
  have flips : ∀ e, second.reads [e, m] = if m = !e then 1 else 0 := fun e => lineValue_flip secondKind secondPhase
  rw [summed]
  simp only [flips]
  cases m
  · by_cases all : false ∈ bits <;> simp [Vertex.reads, Vertex.weight, firstKind, firstPhase, Phase.turn_pi, List.count_eq_zero, all]
  · by_cases none : true ∈ bits <;> simp [Vertex.reads, Vertex.weight, firstKind, firstPhase, Phase.turn_pi, List.count_eq_zero, none]

-- The two spiders before anything feeds them.
def core (first second : Vertex) : Diagram := ((empty.add first).add second).link 1 0 .simple

section

variable {first second : Vertex} (firstKind : first.kind = .z) (secondKind : second.kind = .x)

theorem core_grown : Grown empty (core first second) [(0, first), (1, second)] [.between 1 0 .simple] := by
  have start : Grown empty ((empty.add first).add second) [(0, first), (1, second)] [] :=
    ((Grown.start empty_sound empty_unfreed).add first).add second
  exact start.link (a := 1) (b := 0) (start.mem_ids.mpr (by simp)) (start.mem_ids.mpr (by simp)) (by decide)
    (empty_sound.unmet (Nat.zero_le _)) (by simp) .simple

include firstKind secondKind

theorem core_tidy : (core first second).Tidy := by
  refine empty_tidy.grow core_grown ?_
  constructor
  case inner =>
    rintro v ⟨x, listed, _⟩
    cases listed
  all_goals simp [boundaries, firstKind, secondKind]

theorem core_inner {v : Nat} (which : v = 0 ∨ v = 1) : v ∈ (core first second).ids ∧ ¬(core first second).IsBoundary v := by
  have listed : v ∈ [(0, first), (1, second)].map Prod.fst := by simpa using which
  refine ⟨core_grown.mem_ids.mpr (.inr listed), fun bound => ?_⟩
  rcases core_grown.boundary.mp bound with ⟨x, old, _⟩ | ⟨x, present, kind⟩
  · cases old
  · simp only [List.mem_cons, Prod.mk.injEq, List.not_mem_nil, or_false] at present
    rcases present with ⟨_, rfl⟩ | ⟨_, rfl⟩
    · rw [firstKind] at kind; cases kind
    · rw [secondKind] at kind; cases kind

end

theorem collector_tidy (controls : Nat) : (collector controls).Tidy ∧ (collector controls).outputs = [] ∧
    (collector controls).inputs.length = controls + 1 ∧ (collector controls).scalar = .one ∧
    ∀ bits m, bits.length = controls → (collector controls).entry [] (bits ++ [m]) =
      (if true ∉ bits ∧ m = true then 1 else 0) - (if false ∉ bits ∧ m = false then 1 else 0) := by
  obtain ⟨first, second, ⟨firstKind, firstPhase⟩, ⟨secondKind, secondPhase⟩, made⟩ : ∃ first second : Vertex,
      (first.kind = .z ∧ first.phase = .pi) ∧ (second.kind = .x ∧ second.phase = .pi) ∧
      collector controls = addInputs (controls + 1) 0 1 (core first second) (List.range (controls + 1)) :=
    ⟨_, _, ⟨rfl, rfl⟩, ⟨rfl, rfl⟩, rfl⟩
  have grown : Grown empty (core first second) _ _ := core_grown
  obtain ⟨tidied, outputs, scalar, bounds, inputs, lengths, above, meaning⟩ :=
    addInputs_fed grown.sound grown.unfreed (fun v => core_inner firstKind secondKind) (controls + 1) (List.range (controls + 1))
  rw [← made] at tidied outputs scalar inputs meaning
  rw [feeds_range] at lengths meaning
  have arity : bounds.length = controls + 1 := by simpa using lengths
  have outsideNone : (collector controls).outputs = [] := outputs.trans grown.outputs
  have insideAll : (collector controls).inputs = bounds := by rw [inputs, grown.inputs]; rfl
  have formed := tidied (core_tidy firstKind secondKind)
  refine ⟨formed, outsideNone, by rw [insideAll, arity], scalar.trans grown.scalar, fun bits m length => ?_⟩
  subst length
  rw [entry, scalar.trans grown.scalar, show empty.scalar.value = 1 from Scalar.one_value, one_mul]
  have holds : ∀ leg ∈ bounds.zip (bits ++ [m]), Holds ((collector bits.length).openLegs [] (bits ++ [m])) leg.1 leg.2 := fun leg present =>
    formed.holds (by simp [insideAll, arity]) (by simp [outsideNone]) (List.mem_append_left _ (insideAll.symm ▸ present))
  have bare : ∀ v < 2, Bare ((collector bits.length).openLegs [] (bits ++ [m])) v := by
    intro v small
    rw [openLegs, insideAll, outsideNone, List.zip_nil_left, List.append_nil]
    refine bare_zip fun present => ?_
    have beyond := above v present
    rw [grown.next] at beyond
    exact Nat.not_lt.mpr beyond small
  rw [meaning _ _ (by simp) holds, grown.contract_all]
  exact core_value firstKind firstPhase secondKind secondPhase (bare 0 (by decide)) (bare 1 (by decide))

end ToffoliBench.Fragment

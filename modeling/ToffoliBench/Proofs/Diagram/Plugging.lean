import ToffoliBench.Diagram.Plug
import ToffoliBench.Proofs.Diagram.Composition

namespace ToffoliBench

namespace Vertex

def cap (x : Vertex) : Option (VertexKind × Phase) → Vertex
  | none => x
  | some (kind, phase) => { x with kind, phase }

@[simp] theorem cap_none (x : Vertex) : x.cap none = x := rfl

end Vertex

theorem BasisState.spider_inner {state : BasisState} {kind : VertexKind} {phase : Phase}
    (closes : state.spider = some (kind, phase)) : kind ≠ .boundary := by
  rintro rfl
  cases state <;> cases closes

namespace Diagram
open Outcome

variable {d after closed : Diagram} {wires stillOpen ins outs : List Nat} {states : List BasisState} {u v w : Nat}
  {caps : Nat → Option (VertexKind × Phase)}

-- The spider that each wire is closed with, or none.
def capsOf : List Nat → List BasisState → Nat → Option (VertexKind × Phase)
  | [], _, _ => none
  | v :: wires, states, u => if u = v then states.head?.bind BasisState.spider else capsOf wires states.tail u

theorem capsOf_outside (outside : u ∉ wires) : capsOf wires states u = none := by
  induction wires generalizing states with
  | nil => rfl
  | cons v rest ih =>
    obtain ⟨other, later⟩ := not_or.mp (mt List.mem_cons.mpr outside)
    rw [capsOf, if_neg other, ih later]

theorem capsOf_front : capsOf (v :: wires) states v = states.head?.bind BasisState.spider := by
  rw [capsOf, if_pos rfl]

theorem capsOf_tail (new : v ∉ wires) (held : u ∈ wires) : capsOf (v :: wires) states u = capsOf wires states.tail u := by
  rw [capsOf, if_neg]
  rintro rfl
  exact new held

theorem capsOf_inner {kind : VertexKind} {phase : Phase} (closes : capsOf wires states u = some (kind, phase)) : kind ≠ .boundary := by
  induction wires generalizing states with
  | nil => cases closes
  | cons v rest ih =>
    rw [capsOf] at closes
    split at closes
    · obtain ⟨state, _, spider⟩ := Option.bind_eq_some_iff.mp closes
      exact BasisState.spider_inner spider
    · exact ih closes

def capped (d : Diagram) (caps : Nat → Option (VertexKind × Phase)) : Diagram :=
  { d with vertices := d.vertices.map fun entry => (entry.1, entry.2.cap (caps entry.1)) }

theorem capped_ids (d : Diagram) (caps : Nat → Option (VertexKind × Phase)) : (d.capped caps).ids = d.ids := by
  simp [ids, capped, Function.comp_def]

theorem Sound.capped (sound : d.Sound) (caps : Nat → Option (VertexKind × Phase)) : (d.capped caps).Sound :=
  sound.congr (capped_ids d caps) rfl rfl rfl

theorem capped_boundary (inner : ∀ v kind phase, caps v = some (kind, phase) → kind ≠ .boundary) :
    (d.capped caps).IsBoundary v ↔ d.IsBoundary v ∧ caps v = none := by
  constructor
  · rintro ⟨y, listed, bound⟩
    obtain ⟨⟨u, x⟩, held, same⟩ := List.mem_map.mp listed
    obtain ⟨rfl, rfl⟩ := Prod.mk.inj same
    cases cap : caps u with
    | none => exact ⟨⟨x, held, by simpa [cap] using bound⟩, rfl⟩
    | some closes =>
      obtain ⟨kind, phase⟩ := closes
      dsimp only at bound
      rw [cap] at bound
      exact absurd bound (inner u kind phase cap)
  · rintro ⟨⟨x, held, bound⟩, none⟩
    refine ⟨x, List.mem_map.mpr ⟨(v, x), held, ?_⟩, bound⟩
    rw [none, Vertex.cap_none]

theorem vertex_found (sound : d.Sound) (live : v ∈ d.ids) :
    ∃ x, d.vertex? v = some x ∧ ∀ entry ∈ d.vertices, entry.1 = v → entry.2 = x := by
  obtain ⟨⟨_, x⟩, held, rfl⟩ := List.mem_map.mp live
  refine ⟨x, (vertex_iff sound.nodup).mpr held, ?_⟩
  rintro ⟨_, y⟩ listed rfl
  exact vertex_unique sound.nodup listed held

section

variable {rest : List Nat} {closes : VertexKind × Phase} (new : v ∉ rest)
include new

theorem capped_open (isOpen : states.head?.bind BasisState.spider = none) :
    d.capped (capsOf (v :: rest) states) = d.capped (capsOf rest states.tail) := by
  refine congrArg (fun vertices => { d with vertices }) (List.map_congr_left fun entry _ => ?_)
  by_cases here : entry.1 = v
  · rw [here, capsOf_front, isOpen, capsOf_outside new]
  · rw [capsOf, if_neg here]

theorem capped_closed (closed : states.head?.bind BasisState.spider = some closes) :
    (d.capped fun u => if u = v then some closes else none).capped (capsOf rest states.tail) = d.capped (capsOf (v :: rest) states) := by
  refine congrArg (fun vertices => { d with vertices }) ?_
  rw [capped, List.map_map]
  refine List.map_congr_left fun entry _ => ?_
  by_cases here : entry.1 = v
  · simp [here, capsOf_outside new, capsOf_front, closed]
  · simp [here, capsOf]

end

theorem set_capped {x : Vertex} (only : ∀ entry ∈ d.vertices, entry.1 = v → entry.2 = x) (kind : VertexKind) (phase : Phase) :
    d.set v { x with kind, phase } = d.capped fun u => if u = v then some (kind, phase) else none := by
  refine congrArg (fun vertices => { d with vertices }) (List.map_congr_left fun entry held => ?_)
  by_cases here : entry.1 = v
  · simp [here, only entry held here, Vertex.cap]
  · simp [here]

-- The wires that are closed, on top of those that were counted before.
def pluggedWith (plugged : Int) (wires : List Nat) (states : List BasisState) : Int :=
  plugged + wires.countP fun v => (capsOf wires states v).isSome

theorem pluggedWith_cons (new : v ∉ wires) (plugged : Int) : pluggedWith plugged (v :: wires) states =
    pluggedWith (if (states.head?.bind BasisState.spider).isSome then plugged + 1 else plugged) wires states.tail := by
  have counts : wires.countP (fun w => (capsOf (v :: wires) states w).isSome) =
      wires.countP fun w => (capsOf wires states.tail w).isSome := List.countP_congr fun w held => by rw [capsOf_tail new held]
  rw [pluggedWith, pluggedWith, List.countP_cons, counts, capsOf_front]
  split <;> push_cast <;> omega

-- Wires that are all there are closed in one go, unless there are too many of them to be counted.
theorem plugWires_exact (states : List BasisState) {plugged : Int} (sound : d.Sound) (once : wires.Nodup)
    (live : ∀ v ∈ wires, v ∈ d.ids) (counting : 0 ≤ plugged) (ranged : Range.signed32 plugged = true) :
    ∃ left, d.plugWires plugged wires states =
      if Range.signed32 (pluggedWith plugged wires states) then
        .ok (d.capped (capsOf wires states), wires.filter fun v => (capsOf wires states v).isNone, pluggedWith plugged wires states)
      else .error ⟨.fault .overflow, left⟩ := by
  induction wires generalizing d states plugged with
  | nil =>
    have none : pluggedWith plugged [] states = plugged := by simp [pluggedWith]
    exact ⟨d, by rw [none, if_pos ranged]; simp [plugWires, capped, capsOf]⟩
  | cons v rest ih =>
    obtain ⟨new, others⟩ := List.nodup_cons.mp once
    have later := fun w held => live w (List.mem_cons_of_mem _ held)
    have opens : rest.filter (fun w => (capsOf (v :: rest) states w).isNone) =
        rest.filter fun w => (capsOf rest states.tail w).isNone := List.filter_congr fun w held => by rw [capsOf_tail new held]
    rw [plugWires, List.filter_cons, opens, capsOf_front, pluggedWith_cons new]
    cases state : states.head?.bind BasisState.spider with
    | none =>
      obtain ⟨left, run⟩ := ih states.tail sound others later counting ranged
      refine ⟨left, ?_⟩
      simp only [run, capped_open new state, Option.isSome_none, Option.isNone_none, Bool.false_eq_true, if_false, if_true]
      split <;> rfl
    | some closes =>
      obtain ⟨kind, phase⟩ := closes
      obtain ⟨x, found, only⟩ := vertex_found sound (live v List.mem_cons_self)
      simp only [found, set_capped only, within]
      by_cases more : Range.signed32 (plugged + 1) = true
      · obtain ⟨left, run⟩ := ih states.tail (sound.capped _) others (fun w held => (capped_ids d _).symm ▸ later w held)
          (by omega) more
        rw [capped_closed new state] at run
        refine ⟨left, ?_⟩
        rw [if_pos more]
        exact run
      · have beyond : Range.signed32 (pluggedWith (plugged + 1) rest states.tail) ≠ true := fun fits => by
          rw [pluggedWith, signed32_iff] at fits
          rw [signed32_iff] at more
          omega
        refine ⟨d.capped fun u => if u = v then some (kind, phase) else none, ?_⟩
        rw [if_neg more]
        exact (if_neg beyond).symm

-- How many wires are closed has to fit into a counter of its own, and into the power of the scalar.
theorem plug_ok (sound : d.Sound) (once : wires.Nodup) (live : ∀ v ∈ wires, v ∈ d.ids) :
    d.plug wires states = .ok (closed, stillOpen) ↔ states.length ≤ wires.length ∧
      Range.signed32 (wires.countP fun v => (capsOf wires states v).isSome) = true ∧
      Range.signed32 (d.scalar.power - wires.countP fun v => (capsOf wires states v).isSome) = true ∧
      closed = { d.capped (capsOf wires states) with
        scalar := ⟨d.scalar.power - wires.countP fun v => (capsOf wires states v).isSome, d.scalar.phase⟩ } ∧
      stillOpen = wires.filter fun v => (capsOf wires states v).isNone := by
  have total : pluggedWith 0 wires states = wires.countP fun v => (capsOf wires states v).isSome := Int.zero_add _
  obtain ⟨left, run⟩ := plugWires_exact states sound once live (Int.le_refl 0) (by decide)
  rw [total] at run
  unfold plug
  rw [run]
  by_cases many : wires.length < states.length
  · rw [if_pos many]
    simp [Nat.not_le.mpr many]
  · rw [if_neg many, bind_ok]
    constructor
    · rintro ⟨_, wired, done⟩
      split at wired
      · rename_i counted
        obtain rfl := Except.ok.inj wired
        obtain ⟨scalar, product, done⟩ := bind_ok.mp done
        obtain ⟨power, ranged, made⟩ := bind_ok.mp (mapError_ok.mp product)
        obtain ⟨rfl, inside⟩ := within_ok.mp ranged
        obtain rfl := pure_ok.mp made
        obtain ⟨rfl, rfl⟩ := Prod.mk.inj (pure_ok.mp done)
        exact ⟨Nat.not_lt.mp many, counted, inside, rfl, rfl⟩
      · cases wired
    · rintro ⟨_, counted, ranged, rfl, rfl⟩
      refine ⟨_, if_pos counted, bind_ok.mpr ⟨_, mapError_ok.mpr ?_, rfl⟩⟩
      exact bind_ok.mpr ⟨_, within_ok.mpr ⟨rfl, ranged⟩, rfl⟩

-- Capped boundaries leave the lists and nothing else does.
theorem WellFormed.capped (formed : d.WellFormed) (inner : ∀ v kind phase, caps v = some (kind, phase) → kind ≠ .boundary)
    (kept : (ins ++ outs).Sublist (d.inputs ++ d.outputs))
    (listed : ∀ v ∈ d.inputs ++ d.outputs, v ∈ ins ++ outs ↔ caps v = none) (scalar : Scalar) :
    { d.capped caps with inputs := ins, outputs := outs, scalar }.WellFormed := by
  refine ⟨(formed.toSound.capped caps).congr rfl rfl rfl rfl,
    formed.distinct.sublist kept, fun v => ?_, fun v present => formed.single v (kept.subset present)⟩
  refine Iff.trans ?_ (capped_boundary inner).symm
  constructor
  · intro present
    have old := kept.subset present
    exact ⟨(formed.covered v).mp old, (listed v old).mp present⟩
  · rintro ⟨bound, none⟩
    exact (listed v ((formed.covered v).mpr bound)).mpr none

-- The boundary lists play no part while wires are closed.
theorem Sound.listed (sound : d.Sound) (ins outs : List Nat) : { d with inputs := ins, outputs := outs }.Sound :=
  sound.congr rfl rfl rfl rfl

theorem plugInputs_ok (formed : d.WellFormed) : d.plugInputs states = .ok after ↔ states.length ≤ d.inputs.length ∧
    Range.signed32 (d.inputs.countP fun v => (capsOf d.inputs states v).isSome) = true ∧
    Range.signed32 (d.scalar.power - d.inputs.countP fun v => (capsOf d.inputs states v).isSome) = true ∧
    after = { d.capped (capsOf d.inputs states) with
      inputs := d.inputs.filter fun v => (capsOf d.inputs states v).isNone
      scalar := ⟨d.scalar.power - d.inputs.countP fun v => (capsOf d.inputs states v).isSome, d.scalar.phase⟩ } := by
  have sound := formed.toSound.listed [] d.outputs
  have once := formed.distinct.of_append_left
  constructor
  · intro done
    obtain ⟨⟨closed, stillOpen⟩, plugged, done⟩ := bind_ok.mp done
    obtain ⟨few, counted, ranged, rfl, rfl⟩ := (plug_ok sound once fun v => formed.input_live).mp plugged
    exact ⟨few, counted, ranged, (pure_ok.mp done).symm⟩
  · rintro ⟨few, counted, ranged, rfl⟩
    exact bind_ok.mpr ⟨_, (plug_ok sound once fun v => formed.input_live).mpr ⟨few, counted, ranged, rfl, rfl⟩, rfl⟩

theorem plugOutputs_ok (formed : d.WellFormed) : d.plugOutputs states = .ok after ↔ states.length ≤ d.outputs.length ∧
    Range.signed32 (d.outputs.countP fun v => (capsOf d.outputs states v).isSome) = true ∧
    Range.signed32 (d.scalar.power - d.outputs.countP fun v => (capsOf d.outputs states v).isSome) = true ∧
    after = { d.capped (capsOf d.outputs states) with
      outputs := d.outputs.filter fun v => (capsOf d.outputs states v).isNone
      scalar := ⟨d.scalar.power - d.outputs.countP fun v => (capsOf d.outputs states v).isSome, d.scalar.phase⟩ } := by
  have sound := formed.toSound.listed d.inputs []
  have once := formed.distinct.of_append_right
  constructor
  · intro done
    obtain ⟨⟨closed, stillOpen⟩, plugged, done⟩ := bind_ok.mp done
    obtain ⟨few, counted, ranged, rfl, rfl⟩ := (plug_ok sound once fun v => formed.output_live).mp plugged
    exact ⟨few, counted, ranged, (pure_ok.mp done).symm⟩
  · rintro ⟨few, counted, ranged, rfl⟩
    exact bind_ok.mpr ⟨_, (plug_ok sound once fun v => formed.output_live).mpr ⟨few, counted, ranged, rfl, rfl⟩, rfl⟩

-- A cap is the spider of a state, on one of the wires.
theorem capsOf_state {closes : VertexKind × Phase} (caps : capsOf wires states u = some closes) :
    u ∈ wires ∧ ∃ state : BasisState, state.spider = some closes := by
  induction wires generalizing states with
  | nil => cases caps
  | cons v rest ih =>
    rw [capsOf] at caps
    split at caps
    · rename_i here
      obtain ⟨state, _, spider⟩ := Option.bind_eq_some_iff.mp caps
      exact ⟨here ▸ List.mem_cons_self, state, spider⟩
    · obtain ⟨later, known⟩ := ih caps
      exact ⟨List.mem_cons_of_mem _ later, known⟩

theorem capsOf_all (lengths : states.length = wires.length) (closing : ∀ state ∈ states, state.spider.isSome) (present : v ∈ wires) :
    (capsOf wires states v).isSome := by
  induction wires generalizing states with
  | nil => cases present
  | cons w rest ih =>
    cases states with
    | nil => cases lengths
    | cons state others =>
      obtain ⟨first, later⟩ := List.forall_mem_cons.mp closing
      rw [capsOf]
      split
      · exact first
      · rename_i different
        exact ih (Nat.succ.inj lengths) later ((List.mem_cons.mp present).resolve_left different)

theorem capsOf_closed (lengths : states.length = wires.length) (closing : ∀ state ∈ states, state.spider.isSome) :
    (wires.filter fun v => (capsOf wires states v).isNone) = [] ∧
      (wires.countP fun v => (capsOf wires states v).isSome) = states.length := by
  have all : ∀ v ∈ wires, (capsOf wires states v).isSome := fun v => capsOf_all lengths closing
  refine ⟨List.filter_eq_nil_iff.mpr fun v present => ?_, (List.countP_eq_length.mpr all).trans lengths.symm⟩
  simpa [Option.ne_none_iff_isSome] using all v present

section

variable (formed : d.WellFormed) (closing : ∀ state ∈ states, state.spider.isSome)
  (counted : Range.signed32 states.length = true) (ranged : Range.signed32 (d.scalar.power - states.length) = true)
include formed closing counted ranged

-- With a state for every wire and none of them open, all wires are closed.
theorem plugInputs_all (lengths : states.length = d.inputs.length) : d.plugInputs states =
    .ok { d.capped (capsOf d.inputs states) with inputs := [], scalar := ⟨d.scalar.power - states.length, d.scalar.phase⟩ } := by
  obtain ⟨none, many⟩ := capsOf_closed lengths closing
  exact (plugInputs_ok formed).mpr ⟨Nat.le_of_eq lengths, many.symm ▸ counted, many.symm ▸ ranged, by rw [many, none]⟩

theorem plugOutputs_all (lengths : states.length = d.outputs.length) : d.plugOutputs states =
    .ok { d.capped (capsOf d.outputs states) with outputs := [], scalar := ⟨d.scalar.power - states.length, d.scalar.phase⟩ } := by
  obtain ⟨none, many⟩ := capsOf_closed lengths closing
  exact (plugOutputs_ok formed).mpr ⟨Nat.le_of_eq lengths, many.symm ▸ counted, many.symm ▸ ranged, by rw [many, none]⟩

end

theorem plugInputs_wellFormed (formed : d.WellFormed) (done : d.plugInputs states = .ok after) : after.WellFormed := by
  obtain ⟨_, _, _, rfl⟩ := (plugInputs_ok formed).mp done
  refine formed.capped (fun _ _ _ => capsOf_inner) (List.filter_sublist.append_right _) (fun v present => ?_) _
  rw [List.mem_append, List.mem_filter, Option.isNone_iff_eq_none]
  rcases List.mem_append.mp present with input | output
  · have apart : v ∉ d.outputs := List.disjoint_of_nodup_append formed.distinct input
    simp [input, apart]
  · have apart : v ∉ d.inputs := fun input => List.disjoint_of_nodup_append formed.distinct input output
    simp [output, capsOf_outside apart]

theorem plugOutputs_wellFormed (formed : d.WellFormed) (done : d.plugOutputs states = .ok after) : after.WellFormed := by
  obtain ⟨_, _, _, rfl⟩ := (plugOutputs_ok formed).mp done
  refine formed.capped (fun _ _ _ => capsOf_inner) (List.filter_sublist.append_left _) (fun v present => ?_) _
  rw [List.mem_append, List.mem_filter, Option.isNone_iff_eq_none]
  rcases List.mem_append.mp present with input | output
  · have apart : v ∉ d.outputs := List.disjoint_of_nodup_append formed.distinct input
    simp [input, capsOf_outside apart]
  · have apart : v ∉ d.inputs := fun input => List.disjoint_of_nodup_append formed.distinct input output
    simp [output, apart]

end Diagram

end ToffoliBench

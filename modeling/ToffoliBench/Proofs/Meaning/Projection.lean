import Mathlib.LinearAlgebra.Matrix.ConjTranspose
import ToffoliBench.Proofs.Diagram.Upkeep
import ToffoliBench.Proofs.Meaning.Growth

namespace ToffoliBench

namespace BasisState

-- The state of unit length. An open wire has none.
noncomputable def ket : BasisState → Option (Bool → ℂ)
  | .zero => some fun b => if b then 0 else 1
  | .one => some fun b => if b then 1 else 0
  | .plus => some fun _ => rootTwo⁻¹
  | .minus => some fun b => if b then -rootTwo⁻¹ else rootTwo⁻¹
  | .open => none

variable {state : BasisState} {kind : VertexKind} {phase : Phase} {amplitude : Bool → ℂ}

theorem spider_ket : state.spider = some (kind, phase) → ∃ amplitude, state.ket = some amplitude ∧
    ∀ (x : Vertex) c, ({ x with kind, phase } : Vertex).weight (if c = false then 1 else 0) (if c = true then 1 else 0) =
      rootTwo * amplitude c := by
  have half : rootTwo⁻¹ * 2 = rootTwo := by
    rw [← rootTwo_sq, sq, inv_mul_cancel_left₀ rootTwo_ne_zero]
  cases state with
  | zero =>
    intro spider
    obtain ⟨rfl, rfl⟩ := Prod.mk.inj (Option.some.inj spider)
    refine ⟨_, rfl, fun x c => ?_⟩
    cases c <;> simp [Vertex.weight, Phase.turn_zero, one_add_one_eq_two, half]
  | one =>
    intro spider
    obtain ⟨rfl, rfl⟩ := Prod.mk.inj (Option.some.inj spider)
    refine ⟨_, rfl, fun x c => ?_⟩
    cases c <;> simp [Vertex.weight, Phase.turn_pi, one_add_one_eq_two, half]
  | plus =>
    intro spider
    obtain ⟨rfl, rfl⟩ := Prod.mk.inj (Option.some.inj spider)
    refine ⟨_, rfl, fun x c => ?_⟩
    cases c <;> simp [Vertex.weight, Phase.turn_zero, rootTwo_ne_zero]
  | minus =>
    intro spider
    obtain ⟨rfl, rfl⟩ := Prod.mk.inj (Option.some.inj spider)
    refine ⟨_, rfl, fun x c => ?_⟩
    cases c <;> simp [Vertex.weight, Phase.turn_pi, rootTwo_ne_zero]
  | «open» =>
    intro spider
    cases spider

theorem spider_open : state.spider = none → state = .open := by
  cases state <;> simp [spider]

end BasisState

namespace Diagram
open Meaning Outcome

variable {d after closed : Diagram} {wires stillOpen : List Nat} {states effects : List BasisState} {legs : Legs} {v w : Nat}
  {plugged total : Int}
  {x y : Vertex} {k : EdgeKind} {amplitude : Bool → ℂ}

theorem set_vertices (sound : d.Sound) (held : (v, x) ∈ d.vertices) :
    (d.set v y).vertices.Perm ((v, y) :: (d.drop v).vertices) := by
  refine ((drop_vertices sound.nodup held).map _).trans (.of_eq ?_)
  have others : ∀ entry ∈ (d.drop v).vertices, entry.1 ≠ v := fun entry listed => (mem_drop_vertices.mp listed).2
  rw [List.map_cons, if_pos rfl]
  refine congrArg _ ((List.map_congr_left fun entry listed => ?_).trans (List.map_id _))
  rw [if_neg (others entry listed), id]

-- A vertex with one wire is a sum over the bits at the two ends, whatever stands on the vertex.
theorem contract_hung (sound : d.Sound) (single : d.incident v = [(w, k)]) (bare : Bare legs v) (z : Vertex) {more : Legs}
    (own : ∀ u, u ≠ v → ∀ b, more.count (u, b) = 0) :
    contract ((v, z) :: (d.drop v).vertices) (.between v w k :: (d.drop v).edges) (more + legs) =
      ∑ c : Bool × Bool, k.weight c * (z.weight ((if c.1 = false then 1 else 0) + more.count (v, false))
        ((if c.1 = true then 1 else 0) + more.count (v, true)) * contract (d.drop v).vertices (d.drop v).edges ({(w, c.2)} + legs)) := by
  have dropped := sound.drop v
  have away : ∀ u ∈ (d.drop v).ids, u ≠ v := fun u live => by
    rw [drop_ids, List.mem_filter] at live
    simpa using live.2
  have clear : Apart [(v, z)] (d.drop v).edges := by
    intro e present entry listed
    obtain rfl := List.mem_singleton.mp listed
    obtain ⟨low, high⟩ := dropped.live e present
    exact ⟨(away _ low).symm, (away _ high).symm⟩
  have different : w ≠ v := (sound.adjacent_ne (sound.incident_adjacent single)).symm
  have rest : ∀ c : Bool × Bool, contract (d.drop v).vertices (d.drop v).edges ({(v, c.1), (w, c.2)} + (more + legs)) =
      contract (d.drop v).vertices (d.drop v).edges ({(w, c.2)} + legs) := by
    intro c
    refine contract_same fun entry listed b => ?_
    have other := away entry.1 (List.mem_map_of_mem listed)
    rw [count_pair, count_one, Multiset.count_add, own _ other, if_neg fun met => other met.1.symm]
    ring
  rw [contract_between]
  refine Finset.sum_congr rfl fun c _ => ?_
  rw [contract_cons clear, rest c, count_pair, count_pair]
  simp only [different, Multiset.count_add, bare _, true_and, false_and, if_false, add_zero]

-- One closed wire: the spider on it counts as its state.
theorem cap_meaning (sound : d.Sound) (held : (v, x) ∈ d.vertices) (bound : x.kind = .boundary) (single : d.incident v = [(w, k)])
    (bare : Bare legs v) (spider : ∀ c, y.weight (if c = false then 1 else 0) (if c = true then 1 else 0) = rootTwo * amplitude c) :
    rootTwo⁻¹ * contract (d.set v y).vertices d.edges legs =
      ∑ b : Bool, amplitude b * contract d.vertices d.edges ({(v, b)} + legs) := by
  have wires : d.edges.Perm (.between v w k :: (d.drop v).edges) := by
    rw [sound.drop_edges]
    exact lone_wire sound.ordered single
  have before : ∀ b, contract d.vertices d.edges ({(v, b)} + legs) = ∑ c : Bool × Bool, k.weight c * ((if c.1 = b then 1 else 0) *
      contract (d.drop v).vertices (d.drop v).edges ({(w, c.2)} + legs)) := by
    intro b
    rw [contract_perm (drop_vertices sound.nodup held) wires, contract_hung sound single bare x fun u away e => by simp [away]]
    refine Finset.sum_congr rfl fun c _ => ?_
    rw [← boundary_weight bound c.1 b]
    simp only [Multiset.count_singleton, Prod.mk.injEq, true_and, eq_comm (b := b)]
  have now : contract (d.set v y).vertices d.edges legs = ∑ c : Bool × Bool, k.weight c * ((rootTwo * amplitude c.1) *
      contract (d.drop v).vertices (d.drop v).edges ({(w, c.2)} + legs)) := by
    rw [contract_perm (set_vertices sound held) wires, ← zero_add legs, contract_hung sound single bare y fun _ _ _ => Multiset.count_zero _]
    simp only [Multiset.count_zero, add_zero, zero_add, spider]
  rw [now]
  simp only [before, Finset.mul_sum]
  rw [Finset.sum_comm]
  refine Finset.sum_congr rfl fun c _ => ?_
  simp only [ite_mul, one_mul, zero_mul, mul_ite, mul_zero, Finset.sum_ite_eq, Finset.mem_univ, if_true]
  have unit : rootTwo⁻¹ * rootTwo = 1 := inv_mul_cancel₀ rootTwo_ne_zero
  linear_combination k.weight c * amplitude c.1 * contract (d.drop v).vertices (d.drop v).edges ({(w, c.2)} + legs) * unit

-- The wires that no state closes, in their order.
def leftOpen : List BasisState → List Nat → List Nat
  | _, [] => []
  | states, v :: wires =>
    if states.headD .open = .open then v :: leftOpen states.tail wires else leftOpen states.tail wires

-- An entry of the tensor product of the states on the closed wires and the identity on the others.
noncomputable def closing : List BasisState → List Bool → List Bool → ℂ
  | _, [], rest => if rest = [] then 1 else 0
  | states, b :: full, rest =>
    match (states.headD .open).ket, rest with
    | some amplitude, rest => amplitude b * closing states.tail full rest
    | none, c :: rest => (if b = c then 1 else 0) * closing states.tail full rest
    | none, [] => 0

noncomputable def closingMatrix (states : List BasisState) (n k : Nat) : Matrix (Fin n → Bool) (Fin k → Bool) ℂ :=
  .of fun full rest => closing states (List.ofFn full) (List.ofFn rest)

theorem closing_open {b c : Bool} {full rest : List Bool} (isOpen : states.headD .open = .open) :
    closing states (b :: full) (c :: rest) = (if b = c then 1 else 0) * closing states.tail full rest := by
  rw [closing.eq_def]
  simp only [isOpen, BasisState.ket]

theorem closing_closed {b : Bool} {full rest : List Bool} (ket : (states.headD .open).ket = some amplitude) :
    closing states (b :: full) rest = amplitude b * closing states.tail full rest := by
  rw [closing.eq_def]
  simp only [ket]

theorem head_spider (states : List BasisState) : states.head?.bind BasisState.spider = (states.headD .open).spider := by
  cases states <;> rfl

theorem IsBoundary.set (bound : d.IsBoundary w) (different : w ≠ v) : (d.set v y).IsBoundary w := by
  obtain ⟨z, held, kind⟩ := bound
  exact ⟨z, List.mem_map.mpr ⟨(w, z), held, if_neg different⟩, kind⟩

-- The run, by induction on the wires: an open one passes its bit on, a closed one is summed with its state.
theorem plugWires_meaning (sound : d.Sound) (once : wires.Nodup) (bound : ∀ v ∈ wires, d.IsBoundary v ∧ d.degree v = 1)
    (bare : ∀ v ∈ wires, Bare legs v) (done : d.plugWires plugged wires states = .ok (closed, stillOpen, total)) {rest : List Bool}
    (fits : rest.length = stillOpen.length) : rootTwo ^ (plugged - total) * contract closed.vertices closed.edges (↑(stillOpen.zip rest) + legs) =
      sumBits wires.length fun full => closing states full rest * contract d.vertices d.edges (↑(wires.zip full) + legs) := by
  induction wires generalizing d states legs rest stillOpen plugged with
  | nil =>
    obtain ⟨rfl, rfl, rfl⟩ : d = closed ∧ [] = stillOpen ∧ plugged = total := by simpa [plugWires] using done
    obtain rfl := List.length_eq_zero_iff.mp fits
    simp [sumBits, closing]
  | cons v wires ih =>
    obtain ⟨new, others⟩ := List.nodup_cons.mp once
    obtain ⟨⟨here, single⟩, later⟩ := List.forall_mem_cons.mp bound
    obtain ⟨bareHere, bareLater⟩ := List.forall_mem_cons.mp bare
    have moved : ∀ (vs : List Nat) (b : Bool) (bits : List Bool),
        (↑((v :: vs).zip (b :: bits)) + legs : Legs) = ↑(vs.zip bits) + ({(v, b)} + legs) := by
      intro vs b bits
      rw [zip_legs]
      abel
    rw [plugWires, head_spider] at done
    cases spider : (states.headD .open).spider with
    | none =>
      have isOpen := BasisState.spider_open spider
      rw [spider] at done
      obtain ⟨⟨closed', stillOpen', total'⟩, run, same⟩ := bind_ok.mp done
      obtain ⟨rfl, rfl, rfl⟩ : closed' = closed ∧ v :: stillOpen' = stillOpen ∧ total' = total := by
        simpa using pure_ok.mp same
      obtain ⟨c, rest, rfl⟩ := List.exists_cons_of_length_eq_add_one fits
      have fresh : ∀ u ∈ wires, Bare ({(v, c)} + legs) u := fun u listed b => by
        have different : v ≠ u := fun same => new (same ▸ listed)
        rw [count_one, if_neg (fun met => different met.1), bareLater u listed b]
      have sums := ih sound others later fresh run (Nat.succ.inj fits)
      rw [moved, sums, List.length_cons, sumBits, sumBits_comm]
      refine sumBits_congr fun full _ => ?_
      simp only [closing_open isOpen, moved, ite_mul, one_mul, zero_mul, Finset.sum_ite_eq', Finset.mem_univ, if_true]
    | some closes =>
      obtain ⟨kind, phase⟩ := closes
      obtain ⟨amplitude, ket, weight⟩ := BasisState.spider_ket spider
      obtain ⟨x, held, kindHere⟩ := here
      obtain ⟨w, k, only⟩ := incident_single single
      rw [spider, (vertex_iff sound.nodup).mpr held] at done
      obtain ⟨_, counted, run⟩ := bind_ok.mp done
      obtain ⟨rfl, _⟩ := within_ok.mp (mapError_ok.mp counted)
      have stays : ∀ u ∈ wires, (d.set v { x with kind, phase }).IsBoundary u ∧ (d.set v { x with kind, phase }).degree u = 1 :=
        fun u listed => ⟨(later u listed).1.set fun same => new (same ▸ listed), (later u listed).2⟩
      have sums := ih (sound.set v _) others stays bareLater run fits
      have factor : rootTwo ^ (plugged - total) = rootTwo⁻¹ * rootTwo ^ (plugged + 1 - total) := by
        rw [show plugged + 1 - total = 1 + (plugged - total) by ring, zpow_add₀ rootTwo_ne_zero, zpow_one,
          inv_mul_cancel_left₀ rootTwo_ne_zero]
      rw [factor, mul_assoc, sums, ← sumBits_mul, List.length_cons, sumBits, sumBits_comm]
      refine sumBits_congr fun full _ => ?_
      have away : Bare (↑(wires.zip full) + legs) v := bare_add (bare_zip new) bareHere
      have step := cap_meaning sound held kindHere only away (weight x)
      have shifted : ∀ b : Bool, (↑(wires.zip full) + ({(v, b)} + legs) : Legs) = {(v, b)} + (↑(wires.zip full) + legs) := fun b =>
        add_left_comm ..
      rw [mul_left_comm, show (d.set v { x with kind, phase }).edges = d.edges from rfl, step, Finset.mul_sum]
      refine Finset.sum_congr rfl fun b _ => ?_
      rw [closing_closed ket, moved, shifted]
      ring

theorem head_open (states : List BasisState) : (states.head?.bind BasisState.spider).isNone = decide (states.headD .open = .open) := by
  rw [head_spider]
  cases states.headD .open <;> rfl

theorem capsOf_leftOpen (once : wires.Nodup) : (wires.filter fun v => (capsOf wires states v).isNone) = leftOpen states wires := by
  induction wires generalizing states with
  | nil => rfl
  | cons v rest ih =>
    obtain ⟨new, others⟩ := List.nodup_cons.mp once
    have tail : (rest.filter fun w => (capsOf (v :: rest) states w).isNone) = leftOpen states.tail rest :=
      (List.filter_congr fun w held => by rw [capsOf_tail new held]).trans (ih others)
    rw [List.filter_cons, tail, capsOf, if_pos rfl, head_open, leftOpen]
    simp only [decide_eq_true_eq]

theorem capsOf_count (once : wires.Nodup) (few : states.length ≤ wires.length) :
    (wires.countP fun v => (capsOf wires states v).isSome) = states.countP (· ≠ .open) := by
  induction wires generalizing states with
  | nil =>
    obtain rfl := List.length_eq_zero_iff.mp (Nat.le_zero.mp few)
    rfl
  | cons v rest ih =>
    obtain ⟨new, others⟩ := List.nodup_cons.mp once
    have shorter : states.tail.length ≤ rest.length := by
      rw [List.length_tail]
      exact Nat.sub_le_of_le_add few
    have tail : (rest.countP fun w => (capsOf (v :: rest) states w).isSome) = states.tail.countP (· ≠ .open) :=
      (List.countP_congr fun w held => by rw [capsOf_tail new held]).trans (ih others shorter)
    have head : (capsOf (v :: rest) states v).isSome = decide (states.headD .open ≠ .open) := by
      rw [capsOf, if_pos rfl, ← Option.not_isNone, head_open, decide_not]
    rw [List.countP_cons, tail, head]
    cases states with
    | nil => rfl
    | cons state states => rw [List.countP_cons]; rfl

theorem plug_meaning (sound : d.Sound) (once : wires.Nodup) (bound : ∀ v ∈ wires, d.IsBoundary v ∧ d.degree v = 1)
    (bare : ∀ v ∈ wires, Bare legs v) (done : d.plug wires states = .ok (closed, stillOpen)) (rest : List Bool)
    (fits : rest.length = stillOpen.length) : closed.scalar.value * contract closed.vertices closed.edges (↑(stillOpen.zip rest) + legs) =
      sumBits wires.length fun full => closing states full rest * (d.scalar.value * contract d.vertices d.edges (↑(wires.zip full) + legs)) := by
  unfold plug at done
  split at done
  · cases done
  obtain ⟨⟨plugged, stillOpen', count⟩, run, done⟩ := bind_ok.mp done
  obtain ⟨scalar, product, done⟩ := bind_ok.mp done
  obtain ⟨rfl, rfl⟩ := Prod.mk.inj (pure_ok.mp done)
  obtain ⟨power, ranged, made⟩ := bind_ok.mp (mapError_ok.mp product)
  obtain ⟨rfl, _⟩ := within_ok.mp ranged
  obtain rfl := pure_ok.mp made
  have kept : plugged.scalar = d.scalar := by
    obtain ⟨left, exact_⟩ := plugWires_exact states sound once (fun v listed => (bound v listed).1.live) (Int.le_refl 0) (by decide)
    rw [run] at exact_
    split at exact_
    · rw [(Prod.mk.inj (Except.ok.inj exact_)).1, capped]
    · cases exact_
  have value : Scalar.value ⟨plugged.scalar.power + -count, plugged.scalar.phase⟩ = d.scalar.value * rootTwo ^ (0 - count) := by
    rw [kept, Scalar.value, Scalar.value, zpow_add₀ rootTwo_ne_zero, zero_sub]
    ring
  simp only [value, mul_assoc, plugWires_meaning sound once bound bare run fits, ← sumBits_mul]
  exact sumBits_congr fun full _ => mul_left_comm ..

section

variable (formed : d.WellFormed)
include formed

theorem plugInputs_shape (few : states.length ≤ d.inputs.length) : d.plugInputs states = .ok after ↔
    Range.signed32 (states.countP (· ≠ .open)) = true ∧ Range.signed32 (d.scalar.power - states.countP (· ≠ .open)) = true ∧
      after = { d.capped (capsOf d.inputs states) with
        inputs := leftOpen states d.inputs
        scalar := ⟨d.scalar.power - states.countP (· ≠ .open), d.scalar.phase⟩ } := by
  have once := formed.distinct.of_append_left
  rw [plugInputs_ok formed, and_iff_right few, capsOf_count once few, capsOf_leftOpen once]

theorem plugOutputs_shape (few : effects.length ≤ d.outputs.length) : d.plugOutputs effects = .ok after ↔
    Range.signed32 (effects.countP (· ≠ .open)) = true ∧ Range.signed32 (d.scalar.power - effects.countP (· ≠ .open)) = true ∧
      after = { d.capped (capsOf d.outputs effects) with
        outputs := leftOpen effects d.outputs
        scalar := ⟨d.scalar.power - effects.countP (· ≠ .open), d.scalar.phase⟩ } := by
  have once := formed.distinct.of_append_right
  rw [plugOutputs_ok formed, and_iff_right few, capsOf_count once few, capsOf_leftOpen once]

theorem plugInputs_entry (done : d.plugInputs states = .ok after) {out inp : List Bool} (fits : inp.length = after.inputs.length) :
    after.entry out inp = sumBits d.inputs.length fun full => d.entry out full * closing states full inp := by
  have outputs : after.outputs = d.outputs := by
    obtain ⟨_, _, _, rfl⟩ := (plugInputs_ok formed).mp done
    rfl
  obtain ⟨⟨closed, stillOpen⟩, plugged, done⟩ := bind_ok.mp done
  obtain rfl := pure_ok.mp done
  have bare : ∀ v ∈ d.inputs, Bare ↑(d.outputs.zip out) v := fun v input =>
    bare_zip (List.disjoint_of_nodup_append formed.distinct input)
  have bound : ∀ v ∈ d.inputs, d.IsBoundary v ∧ d.degree v = 1 := fun v input =>
    ⟨(formed.covered v).mp (List.mem_append_left _ input), formed.single v (List.mem_append_left _ input)⟩
  rw [entry, openLegs, ← Multiset.coe_add, outputs]
  refine (plug_meaning (formed.toSound.listed [] d.outputs) formed.distinct.of_append_left bound bare plugged inp fits).trans ?_
  refine sumBits_congr fun full _ => ?_
  rw [entry, openLegs, ← Multiset.coe_add, mul_comm]

theorem plugOutputs_entry (done : d.plugOutputs effects = .ok after) {out inp : List Bool} (fits : out.length = after.outputs.length) :
    after.entry out inp = sumBits d.outputs.length fun full => closing effects full out * d.entry full inp := by
  have inputs : after.inputs = d.inputs := by
    obtain ⟨_, _, _, rfl⟩ := (plugOutputs_ok formed).mp done
    rfl
  obtain ⟨⟨closed, stillOpen⟩, plugged, done⟩ := bind_ok.mp done
  obtain rfl := pure_ok.mp done
  have bare : ∀ v ∈ d.outputs, Bare ↑(d.inputs.zip inp) v := fun v output =>
    bare_zip fun input => List.disjoint_of_nodup_append formed.distinct input output
  have bound : ∀ v ∈ d.outputs, d.IsBoundary v ∧ d.degree v = 1 := fun v output =>
    ⟨(formed.covered v).mp (List.mem_append_right _ output), formed.single v (List.mem_append_right _ output)⟩
  rw [entry, openLegs, ← Multiset.coe_add, add_comm, inputs]
  refine (plug_meaning (formed.toSound.listed d.inputs []) formed.distinct.of_append_right bound bare plugged out fits).trans ?_
  refine sumBits_congr fun full _ => ?_
  rw [entry, openLegs, ← Multiset.coe_add, add_comm (↑(d.inputs.zip inp) : Legs)]

-- Caps on different wires do not meet.
theorem plugs_commute (few : states.length ≤ d.inputs.length) (fewer : effects.length ≤ d.outputs.length)
    (counted : Range.signed32 (states.countP (· ≠ .open)) = true) (countedOuts : Range.signed32 (effects.countP (· ≠ .open)) = true)
    (ranged : Range.signed32 d.scalar.power = true)
    (low : Range.signed32 (d.scalar.power - states.countP (· ≠ .open) - effects.countP (· ≠ .open)) = true) :
    ∃ one two both, d.plugInputs states = .ok one ∧ one.plugOutputs effects = .ok both ∧
      d.plugOutputs effects = .ok two ∧ two.plugInputs states = .ok both := by
  have between : ∀ (p : Int) (a b : Nat), Range.signed32 p = true → Range.signed32 (p - a - b) = true →
      Range.signed32 (p - a) = true := fun p a b high low => by
    simp only [signed32_iff] at high low ⊢
    omega
  have swapped : d.scalar.power - effects.countP (· ≠ .open) - states.countP (· ≠ .open) =
      d.scalar.power - states.countP (· ≠ .open) - effects.countP (· ≠ .open) := sub_right_comm ..
  obtain ⟨one, oneDone⟩ : ∃ one, d.plugInputs states = .ok one :=
    ⟨_, (plugInputs_shape formed few).mpr ⟨counted, between _ _ _ ranged low, rfl⟩⟩
  obtain ⟨two, twoDone⟩ : ∃ two, d.plugOutputs effects = .ok two :=
    ⟨_, (plugOutputs_shape formed fewer).mpr ⟨countedOuts, between _ _ _ ranged (swapped ▸ low), rfl⟩⟩
  have oneFormed := plugInputs_wellFormed formed oneDone
  have twoFormed := plugOutputs_wellFormed formed twoDone
  obtain ⟨_, _, rfl⟩ := (plugInputs_shape formed few).mp oneDone
  obtain ⟨_, _, rfl⟩ := (plugOutputs_shape formed fewer).mp twoDone
  refine ⟨_, _, _, oneDone, (plugOutputs_shape oneFormed fewer).mpr ⟨countedOuts, low, rfl⟩, twoDone,
    (plugInputs_shape twoFormed few).mpr ⟨counted, swapped ▸ low, ?_⟩⟩
  have apart : ∀ v, capsOf d.inputs states v = none ∨ capsOf d.outputs effects v = none := fun v => by
    by_cases input : v ∈ d.inputs
    · exact .inr (capsOf_outside (List.disjoint_of_nodup_append formed.distinct input))
    · exact .inl (capsOf_outside input)
  have crossed : ∀ entry : Nat × Vertex, (entry.2.cap (capsOf d.inputs states entry.1)).cap (capsOf d.outputs effects entry.1) =
      (entry.2.cap (capsOf d.outputs effects entry.1)).cap (capsOf d.inputs states entry.1) := fun entry => by
    rcases apart entry.1 with none | none <;> simp [none]
  simp only [capped, List.map_map, Function.comp_def, crossed, swapped]

end

theorem ket_real {state : BasisState} (ket : state.ket = some amplitude) (b : Bool) : star (amplitude b) = amplitude b := by
  have real : star rootTwo⁻¹ = rootTwo⁻¹ := by
    rw [rootTwo, star_inv₀]
    exact congrArg _ (Complex.conj_ofReal _)
  cases state <;> cases ket <;> cases b <;> simp [real]

theorem closing_real (states : List BasisState) (full rest : List Bool) : star (closing states full rest) = closing states full rest := by
  induction full generalizing states rest with
  | nil => rw [closing]; split <;> simp
  | cons b full ih =>
    cases ket : (states.headD .open).ket with
    | some amplitude => rw [closing_closed ket, star_mul', ih, ket_real ket]
    | none =>
      have isOpen : states.headD .open = .open := by
        revert ket
        cases states.headD .open <;> simp [BasisState.ket]
      cases rest with
      | nil =>
        rw [closing.eq_def]
        simp only [ket, star_zero]
      | cons c rest => rw [closing_open isOpen, star_mul', ih]; split <;> simp

theorem leftOpen_sublist : (leftOpen states wires).Sublist wires := by
  induction wires generalizing states with
  | nil => exact List.Sublist.refl []
  | cons v rest ih =>
    rw [leftOpen]
    split
    · exact ih.cons_cons v
    · exact ih.cons v

-- Closing inputs puts the states before the linear map, and closing outputs their effects behind it.
theorem plugging_projects (formed : d.WellFormed) :
    (∀ states, states.length ≤ d.inputs.length → Range.signed32 (states.countP (· ≠ .open)) = true →
      Range.signed32 (d.scalar.power - states.countP (· ≠ .open)) = true →
        ∃ after, d.plugInputs states = .ok after ∧ after.inputs = leftOpen states d.inputs ∧ after.inputs.Sublist d.inputs ∧
          after.outputs = d.outputs ∧ after.matrix d.outputs.length after.inputs.length =
            d.matrix d.outputs.length d.inputs.length * closingMatrix states d.inputs.length after.inputs.length) ∧
    (∀ effects, effects.length ≤ d.outputs.length → Range.signed32 (effects.countP (· ≠ .open)) = true →
      Range.signed32 (d.scalar.power - effects.countP (· ≠ .open)) = true →
        ∃ after, d.plugOutputs effects = .ok after ∧ after.outputs = leftOpen effects d.outputs ∧ after.outputs.Sublist d.outputs ∧
          after.inputs = d.inputs ∧ after.matrix after.outputs.length d.inputs.length =
            (closingMatrix effects d.outputs.length after.outputs.length).conjTranspose * d.matrix d.outputs.length d.inputs.length) ∧
    ∀ states effects, states.length ≤ d.inputs.length → effects.length ≤ d.outputs.length →
      Range.signed32 (states.countP (· ≠ .open)) = true → Range.signed32 (effects.countP (· ≠ .open)) = true →
      Range.signed32 d.scalar.power = true →
      Range.signed32 (d.scalar.power - states.countP (· ≠ .open) - effects.countP (· ≠ .open)) = true →
        ∃ one two both, d.plugInputs states = .ok one ∧ one.plugOutputs effects = .ok both ∧
          d.plugOutputs effects = .ok two ∧ two.plugInputs states = .ok both := by
  refine ⟨fun states few counted ranged => ?_, fun effects few counted ranged => ?_,
    fun states effects few fewer counted countedOuts ranged low => plugs_commute formed few fewer counted countedOuts ranged low⟩
  · have done := (plugInputs_shape formed few).mpr ⟨counted, ranged, rfl⟩
    refine ⟨_, done, rfl, leftOpen_sublist, rfl, entry_eq_of_matrix.mpr fun out inp => ?_⟩
    rw [plugInputs_entry formed done (by simp), Matrix.mul_apply, ← sum_ofFn]
    rfl
  · have done := (plugOutputs_shape formed few).mpr ⟨counted, ranged, rfl⟩
    refine ⟨_, done, rfl, leftOpen_sublist, rfl, entry_eq_of_matrix.mpr fun out inp => ?_⟩
    rw [plugOutputs_entry formed done (by simp), Matrix.mul_apply, ← sum_ofFn]
    simp only [Matrix.conjTranspose_apply, closingMatrix, Matrix.of_apply, closing_real]
    rfl

-- Two inputs on one spider, one of them by a Hadamard wire.
def joint : Diagram where
  vertices := [(0, .boundary), (1, .boundary), (2, .boundary), (3, .z)]
  edges := [⟨0, 3, .hadamard⟩, ⟨1, 3, .simple⟩, ⟨2, 3, .simple⟩]
  next := 4
  inputs := [0, 1]
  outputs := [2]

theorem plugging_projects_joint : joint.WellFormed ∧ (∃ after, joint.plugInputs [.open, .minus] = .ok after ∧ after.inputs = [0] ∧
      after.scalar = ⟨-1, .zero⟩ ∧ after.matrix 1 1 = joint.matrix 1 2 * closingMatrix [.open, .minus] 2 1) ∧
    (∃ after, joint.plugOutputs [.one] = .ok after ∧ after.outputs = [] ∧
      after.matrix 0 2 = (closingMatrix [.one] 1 0).conjTranspose * joint.matrix 1 2) ∧
    ∃ one two both, joint.plugInputs [.zero] = .ok one ∧ one.plugOutputs [.one] = .ok both ∧
      joint.plugOutputs [.one] = .ok two ∧ two.plugInputs [.zero] = .ok both := by
  have formed : joint.WellFormed := by decide
  obtain ⟨ins, outs, commute⟩ := plugging_projects formed
  obtain ⟨one, oneDone, _, _, _, oneMatrix⟩ := ins [.open, .minus] (by decide) (by decide) (by decide)
  obtain ⟨two, twoDone, _, _, _, twoMatrix⟩ := outs [.one] (by decide) (by decide) (by decide)
  obtain rfl := Except.ok.inj ((show joint.plugInputs [.open, .minus] = .ok _ from rfl).symm.trans oneDone)
  obtain rfl := Except.ok.inj ((show joint.plugOutputs [.one] = .ok _ from rfl).symm.trans twoDone)
  exact ⟨formed, ⟨_, rfl, rfl, rfl, oneMatrix⟩, ⟨_, rfl, rfl, twoMatrix⟩,
    commute [.zero] [.one] (by decide) (by decide) (by decide) (by decide) (by decide) (by decide)⟩

-- The power of the scalar has a least value, and below it there is none.
def faintWire : Diagram := { identity 1 with scalar := ⟨-2147483648, .zero⟩ }

theorem plugInputs_overflows : faintWire.WellFormed ∧ Range.signed32 faintWire.scalar.power = true ∧
    [BasisState.zero].length ≤ faintWire.inputs.length ∧ ¬∃ after, faintWire.plugInputs [.zero] = .ok after := by
  refine ⟨by decide, by decide, by decide, ?_⟩
  rintro ⟨after, done⟩
  cases done

end Diagram

end ToffoliBench

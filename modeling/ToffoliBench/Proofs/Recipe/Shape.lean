import ToffoliBench.Proofs.Circuit.Contents
import ToffoliBench.Proofs.Diagram.Resolution
import ToffoliBench.Proofs.Recipe.Placement

namespace ToffoliBench

open Diagram Fragment Outcome

namespace Recipe

variable {r : Recipe} {d : Diagram} {s : Sequence} {size stars count : Nat}

theorem projection_length (r : Recipe) : r.projection.length = r.qubits := by
  rw [projection, List.length_map, register, List.length_range]

theorem projection_closes (r : Recipe) : ∀ state ∈ r.projection, state.spider.isSome := by
  intro state listed
  obtain ⟨q, _, rfl⟩ := List.mem_map.mp listed
  split <;> rfl

theorem close_resolved (formed : d.WellFormed) (stocked : Stocked d (size + stars) stars (count + stars))
    (inputs : d.inputs.length = r.qubits) (outputs : d.outputs.length = r.qubits) (low : d.scalar.power ≤ 0)
    (ranged : Range.signed32 (d.scalar.power - 2 * r.qubits) = true) :
    ∃ after, r.close d = .ok (stars, after) ∧ after.WellFormed ∧ (after.inputs = [] ∧ after.outputs = []) ∧
      Resolved after size stars count ∧ after.scalar = ⟨d.scalar.power - 2 * r.qubits, d.scalar.phase⟩ := by
  have long := r.projection_length
  have bounds := formed.covered
  simp only [signed32_iff] at ranged
  have counted : Range.signed32 r.projection.length = true := by
    simp only [signed32_iff]
    omega
  have half : Range.signed32 (d.scalar.power - r.projection.length) = true := by
    simp only [signed32_iff]
    omega
  obtain ⟨opened, first, noInputs, kept, scalar, stock⟩ : ∃ opened, d.plugInputs r.projection = .ok opened ∧ opened.inputs = [] ∧
      opened.outputs = d.outputs ∧ opened.scalar = ⟨d.scalar.power - r.projection.length, d.scalar.phase⟩ ∧
      Stocked opened (size + stars) stars (count + stars) :=
    ⟨_, plugInputs_all formed r.projection_closes counted half (long.trans inputs.symm), rfl, rfl, rfl,
      stocked.plugged formed.toSound fun v listed => (bounds v).mp (List.mem_append_left _ listed)⟩
  have openedFormed := plugInputs_wellFormed formed first
  have whole : Range.signed32 (opened.scalar.power - r.projection.length) = true := by
    simp only [signed32_iff, scalar]
    omega
  obtain ⟨closed, second, stillNone, none, product, stock⟩ : ∃ closed, opened.plugOutputs r.projection = .ok closed ∧
      closed.inputs = opened.inputs ∧ closed.outputs = [] ∧
      closed.scalar = ⟨opened.scalar.power - r.projection.length, opened.scalar.phase⟩ ∧
      Stocked closed (size + stars) stars (count + stars) :=
    ⟨_, plugOutputs_all openedFormed r.projection_closes counted whole (long.trans (outputs.symm.trans (congrArg _ kept.symm))), rfl, rfl, rfl,
      stock.plugged openedFormed.toSound fun v listed => (openedFormed.covered v).mp (List.mem_append_right _ listed)⟩
  have closedFormed := plugOutputs_wellFormed openedFormed second
  obtain ⟨after, third, resolved, beside⟩ := stock.resolves closedFormed.toSound
  refine ⟨after, ?_, resolveMarkers_wellFormed closedFormed third, ⟨?_, ?_⟩, resolved, ?_⟩
  · refine bind_ok.mpr ⟨opened, mapError_ok.mpr first, bind_ok.mpr ⟨closed, mapError_ok.mpr second, mapError_ok.mpr third⟩⟩
  · exact List.sublist_nil.mp (noInputs ▸ stillNone ▸ beside.inputs)
  · exact List.sublist_nil.mp (none ▸ beside.outputs)
  · rw [beside.scalar, product, scalar, long]
    refine congrArg (Scalar.mk · d.scalar.phase) ?_
    dsimp only
    omega

theorem Column.boxes_le {n : Nat} {column : Column} (sits : column.Sits n) : column.boxes ≤ n := by
  cases column with
  | not q => exact Nat.zero_le _
  | cnot c t => exact Nat.zero_le _
  | toffoli controls t =>
    obtain ⟨target, _, each, once⟩ := sits
    have apart : (t :: controls).Nodup := List.nodup_cons.mpr ⟨fun held => (each t held).2 rfl, once⟩
    have inside : (t :: controls) ⊆ List.range n := by
      intro q held
      rcases List.mem_cons.mp held with rfl | control
      · exact List.mem_range.mpr target
      · exact List.mem_range.mpr (each q control).1
    have short := (List.subperm_of_subset apart inside).length_le
    rwa [List.length_cons, List.length_range] at short

theorem Follows.boxes_le (follows : r.Follows s) : s.boxes ≤ s.columns.length * r.qubits := by
  have each : ∀ m ∈ s.columns.map Column.boxes, m ≤ r.qubits := by
    intro m listed
    obtain ⟨column, held, rfl⟩ := List.mem_map.mp listed
    exact Column.boxes_le (Column.validate_ok.mp (follows.valid column held))
  have total := List.sum_le_card_nsmul _ _ each
  rwa [List.length_map, smul_eq_mul] at total

end Recipe

-- The shape of a benchmark circuit, read off its gates.
structure BenchmarkCircuit.Shaped (c : BenchmarkCircuit) : Prop where
  formed : c.diagram.WellFormed
  closed : c.diagram.inputs = [] ∧ c.diagram.outputs = []
  inner : ∀ entry ∈ c.diagram.vertices, entry.2.kind ≠ .boundary ∧ entry.2.kind ≠ .hBox ∧ entry.2.marker = none
  resolved : c.resolved = (c.sequence.controlCounts.map fun n => n + 1).sum
  thirds : c.diagram.vertices.countP (fun entry => entry.2.phase == .third) = c.resolved
  vertices : c.diagram.vertices.length = 2 * c.sequence.qubits + c.sequence.count .not + 2 * c.sequence.count .cnot +
    (c.sequence.controlCounts.map fun n => 3 * (n + 1) + 2).sum
  edges : c.diagram.edges.length = c.sequence.qubits + c.sequence.count .not + 3 * c.sequence.count .cnot +
    (c.sequence.controlCounts.map fun n => 4 * (n + 1) + 1).sum
  simple : ∀ e ∈ c.diagram.edges, e.kind = .simple
  scalar : c.diagram.scalar = ⟨-2 * c.resolved - 2 * c.sequence.qubits, .zero⟩

namespace Recipe

variable {r : Recipe} {s : Sequence}

-- From the circuit on, nothing is left to chance.
theorem closed_shaped (follows : r.Follows s) (ranged : Range.signed32 (hBoxPower * s.boxes - 2 * r.qubits) = true) :
    ∃ d closed resolved, s.diagram = .ok d ∧ r.close d = .ok (resolved, closed) ∧ BenchmarkCircuit.Shaped ⟨s, closed, resolved⟩ := by
  have pushed : s.Pushed := Sequence.pushed_iff.mpr (follows.qubits ▸ follows.valid)
  have few : s.boxes ≤ 1073741824 := by
    rw [signed32_iff, hBoxPower] at ranged
    omega
  obtain ⟨d, made, realizes⟩ := pushed.realizes few
  have stocked := pushed.stocked few made
  obtain ⟨boxes, spiders, wires⟩ := s.contents_sum
  rw [spiders, wires, ← Nat.add_assoc (2 * s.qubits), ← Nat.add_assoc s.qubits] at stocked
  have low : d.scalar.power ≤ 0 := by
    rw [realizes.scalar, hBoxPower]
    dsimp only
    omega
  have power : Range.signed32 (d.scalar.power - 2 * r.qubits) = true := by
    rw [realizes.scalar]
    exact ranged
  obtain ⟨after, done, formed, closed, resolved, scalar⟩ := close_resolved realizes.tidy.toWellFormed stocked
    (realizes.inputs.trans follows.qubits) (realizes.outputs.trans follows.qubits) low power
  refine ⟨d, after, s.boxes, made, done, formed, closed, fun entry held => ⟨fun bound => ?_, resolved.boxless entry held,
    resolved.unmarked entry held⟩, boxes, resolved.thirds, ?_, ?_, resolved.simple, ?_⟩
  · have listed := (formed.covered entry.1).mpr ⟨entry.2, held, bound⟩
    rw [closed.1, closed.2] at listed
    cases listed
  · rw [resolved.size]
    simp only [Nat.add_assoc]
  · rw [resolved.count]
    simp only [Nat.add_assoc]
  · rw [scalar, realizes.scalar, follows.qubits, hBoxPower]

-- A recipe gives a benchmark circuit exactly when it validates, with the gates it asks for and the
-- shape that follows from them.
theorem benchmark_shaped (r : Recipe) (entropy : Nat)
    (ranged : ∀ s, r.generate entropy = .ok s → Range.signed32 (hBoxPower * s.boxes - 2 * r.qubits) = true) :
    ((∃ c, r.benchmark entropy = .ok c) ↔ r.validate = .ok ()) ∧
      (∀ e, r.validate = .error e → r.benchmark entropy = .error e) ∧
      ∀ c, r.benchmark entropy = .ok c → r.generate entropy = .ok c.sequence ∧ r.Follows c.sequence ∧ c.Shaped := by
  have drawn : r.Drawn (r.generate entropy) := r.generateFrom_drawn _
  have shaped : ∀ s, r.generate entropy = .ok s → ∃ c, r.benchmark entropy = .ok c ∧ c.sequence = s ∧ c.Shaped := by
    intro s generated
    obtain ⟨d, closed, resolved, made, done, shape⟩ := closed_shaped (drawn.follows s generated) (ranged s generated)
    refine ⟨⟨s, closed, resolved⟩, ?_, rfl, shape⟩
    exact bind_ok.mpr ⟨s, generated, bind_ok.mpr ⟨d, made, bind_ok.mpr ⟨_, mapError_ok.mpr done, rfl⟩⟩⟩
  refine ⟨⟨?_, fun valid => ?_⟩, fun e refused => ?_, fun c done => ?_⟩
  · rintro ⟨c, done⟩
    obtain ⟨s, generated, _⟩ := bind_ok.mp done
    exact drawn.accepted.mp ⟨s, generated⟩
  · obtain ⟨s, generated⟩ := drawn.accepted.mpr valid
    obtain ⟨c, done, _⟩ := shaped s generated
    exact ⟨c, done⟩
  · rw [benchmark, drawn.refused e refused]
    rfl
  · obtain ⟨s, generated, _⟩ := bind_ok.mp done
    obtain ⟨same, again, rfl, shape⟩ := shaped s generated
    obtain rfl := Except.ok.inj (again.symm.trans done)
    exact ⟨generated, drawn.follows _ generated, shape⟩

-- One gate of each kind on three qubits, whatever is drawn for them.
def oneOfEach : Recipe := { qubits := 3, nots := 1, cnots := 1, toffolis := 1, targetRange := ⟨2, 3⟩ }

theorem benchmark_shaped_each :
    (∀ s, oneOfEach.generate 7 = .ok s → Range.signed32 (hBoxPower * s.boxes - 2 * oneOfEach.qubits) = true) ∧
      ∃ c, oneOfEach.benchmark 7 = .ok c ∧ oneOfEach.Follows c.sequence ∧ c.Shaped := by
  have ranged : ∀ s, oneOfEach.generate 7 = .ok s → Range.signed32 (hBoxPower * s.boxes - 2 * oneOfEach.qubits) = true := by
    intro s generated
    have follows := (oneOfEach.generateFrom_drawn _).follows s generated
    have few := follows.boxes_le
    rw [follows.size] at few
    rw [signed32_iff, hBoxPower]
    simp only [oneOfEach] at few ⊢
    omega
  obtain ⟨accepted, _, shaped⟩ := benchmark_shaped oneOfEach 7 ranged
  obtain ⟨c, done⟩ := accepted.mpr (by decide)
  exact ⟨ranged, c, done, (shaped c done).2⟩

end Recipe

end ToffoliBench

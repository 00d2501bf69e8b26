import ToffoliBench.Proofs.Circuit.Calls
import ToffoliBench.Proofs.Diagram.Lanes

namespace ToffoliBench

open Diagram Outcome Decimal

variable {n t : Nat} {d : Diagram} {controls : List Nat} {column : Column}

namespace Fragment

theorem Laid.lanes {length : Float} {spiderOn : Nat → Option Vertex} {lines : List Line}
    (laid : Laid length spiderOn empty d (List.range n) lines) :
    d.lanes (lines.map (·.start)) = ownLanes n ∧ d.lanes (lines.map (·.stop)) = ownLanes n := by
  have once := laid.grown.sound.nodup
  have along : ∀ f : Line → Nat, (∀ line ∈ lines, ∃ x, (f line, x) ∈ d.vertices ∧ x.qubit = line.qubit.toFloat) →
      d.lanes (lines.map f) = ownLanes n := by
    intro f drawn
    rw [Diagram.lanes, ownLanes, ← laid.qubits, List.map_map, List.map_map]
    refine List.map_congr_left fun line present => ?_
    obtain ⟨x, listed, own⟩ := drawn line present
    simp only [Function.comp_apply, (vertex_iff once).mpr listed, Option.map_some, own]
  exact ⟨along _ fun line present => ⟨_, laid.listed present List.mem_cons_self, rfl⟩,
    along _ fun line present => ⟨_, laid.listed present (List.mem_cons_of_mem _ List.mem_cons_self), rfl⟩⟩

theorem register_laned {spiderOn : Nat → Option Vertex} (inner : ∀ q x, spiderOn q = some x → x.kind ≠ .boundary) (length : Float) :
    (withEnds (register n length spiderOn).1 (register n length spiderOn).2).Laned n :=
  ⟨(register_laid inner n length).lanes.1, (register_laid inner n length).lanes.2⟩

theorem identity_laned (n : Nat) : (identity n).Laned n := by
  rw [identity_register]
  exact register_laned (by nofun) 1

theorem not_laned (n t : Nat) : (not n t).Laned n := by
  refine register_laned (fun q x asked => ?_) 2
  split at asked <;> cases asked
  simp [Vertex.withPhase, Vertex.x]

theorem cnot_laned (n c t : Nat) : (cnot n c t).Laned n := by
  have lanes := (register_laid (cnotSpider_inner c t) n 2).lanes
  have vertices : (cnot n c t).vertices = (register n 2 (cnotSpider c t)).1.vertices := by
    unfold cnot withEnds
    dsimp only
    split
    · rfl
    · split <;> rfl
  have drawn : ∀ vs, (cnot n c t).lanes vs = (register n 2 (cnotSpider c t)).1.lanes vs := fun vs => by
    simp only [Diagram.lanes, vertex?, vertices]
  exact ⟨(drawn _).trans lanes.1, (drawn _).trans lanes.2⟩

theorem Legged.laned {after : Diagram} {lines : List Line} {stops : List Nat} {stop x : Nat}
    (legged : Legged controls n t d after lines stops stop x) :
    (legDiagram after lines stops stop).lanes (legDiagram after lines stops stop).inputs = ownLanes n := by
  obtain ⟨middle, legs, ⟨_, _, _, _, _, grown⟩, _⟩ := legged.middle
  obtain ⟨_, _, more⟩ := legs.more
  have live : ∀ v ∈ lines.map (·.start), v ∈ d.ids := by
    intro v listed
    obtain ⟨line, present, rfl⟩ := List.mem_map.mp listed
    exact (legged.laid.ends_bound present).1.live
  exact ((more.trans grown).lanes legged.laid.grown.sound live).trans legged.laid.lanes.1

theorem masterRow_halves {legs : Nat} (few : legs ≤ 1073741824) :
    ∃ k : ℤ, legs ≤ k ∧ k ≤ legs + 1 ∧ Halves (masterRow legs) k := by
  have middle : Halves (legs.toFloat / 2) legs := (toFloat_halves (by omega)).half
  unfold masterRow
  dsimp only
  split
  · exact ⟨_, by omega, le_refl _, middle.add halves_half (by omega)⟩
  · exact ⟨_, le_refl _, by omega, middle⟩

theorem addInputs_entry {legs master last : Nat} {is : List Nat} {entry : Nat × Vertex}
    (listed : entry ∈ (addInputs legs master last d is).vertices) :
    entry ∈ d.vertices ∨ ∃ i ∈ is, entry.2.qubit = i.toFloat - legs.toFloat := by
  induction is generalizing d with
  | nil => exact .inl listed
  | cons i rest ih =>
    rcases ih listed with old | ⟨j, later, place⟩
    · rcases List.mem_cons.mp ((add_vertices d _).mem_iff.mp old) with rfl | old
      · exact .inr ⟨i, List.mem_cons_self, rfl⟩
      · exact .inl old
    · exact .inr ⟨j, List.mem_cons_of_mem _ later, place⟩

-- The collector is drawn at negative qubits only, so nothing below it is pushed down.
theorem collector_above {k : Nat} (some_ : 0 < k) (few : k + 1 ≤ 1073741824) : Halves (collector k).qubitCount 0 := by
  refine qubitCount_none fun entry listed => ?_
  rcases addInputs_entry listed with core | ⟨i, inside, place⟩
  · rcases List.mem_cons.mp ((add_vertices _ _).mem_iff.mp core) with rfl | first
    · exact ⟨_, by decide, halves_one.neg.add halves_one (by decide)⟩
    · obtain rfl := List.mem_singleton.mp ((add_vertices _ _).mem_iff.mp first)
      obtain ⟨row, least, greatest, middle⟩ := masterRow_halves few
      exact ⟨_, by omega, middle.neg.add halves_one (by omega)⟩
  · have small := List.mem_range.mp inside
    have legs := toFloat_halves (n := k + 1) (by omega)
    have own := toFloat_halves (n := i) (by omega)
    rw [place]
    exact ⟨_, by omega, (own.sub legs (by omega)).add halves_one (by omega)⟩

theorem controlledNot_laned (target : t < n) (outside : t ∉ controls) (some_ : 0 < (present controls n).length)
    (done : controlledNot n controls t = .ok d) : d.Laned n := by
  obtain ⟨_, _, _, _, _, _, _, legged, size, ranged, closing_, composed⟩ := controlledNot_parts target outside done
  have few := boxes_ranged.mp (size ▸ ranged)
  have gathered := (collector_tidy (present controls n).length).1.toWellFormed.ended
  have gone := (collector_tidy (present controls n).length).2.1
  have below := (identity_realizes n).tidy.toWellFormed.ended
  obtain ⟨closed, total, tidy, _⟩ := closing_total n (present controls n).length
  obtain rfl := Except.ok.inj (total.symm.trans closing_)
  have outputs : closed.lanes closed.outputs = ownLanes n := by
    rw [gathered.tensor_lanes below closing_, gone, (identity_laned n).outputs, ownLanes_moved (collector_above some_ few)]
    rfl
  obtain ⟨lengths, _⟩ := compose_arity legged.tidy.toWellFormed tidy.toWellFormed composed
  obtain ⟨ins, outs⟩ := legged.tidy.toWellFormed.ended.compose_lanes tidy.toWellFormed.ended lengths composed
  exact ⟨ins.trans legged.laned, by rw [outs, outputs, ownLanes_moved halves_zero]⟩

theorem ofColumn_laned (done : ofColumn n column = .ok d) : d.Laned n := by
  obtain ⟨valid, made⟩ := check_ok.mp done
  have sits := Column.validate_ok.mp valid
  cases column with
  | not q =>
    obtain rfl := pure_ok.mp made
    exact not_laned n q
  | cnot c t =>
    obtain rfl := pure_ok.mp made
    exact cnot_laned n c t
  | toffoli controls t =>
    obtain ⟨target, two, each, once⟩ := sits
    have size := present_length (fun c held => (each c held).1) once
    exact controlledNot_laned target (fun held => (each t held).2 rfl) (by omega) (mapError_ok.mp made)

end Fragment

-- The H-boxes that a request for a column brings to a register: none unless it is granted.
def Column.brings (column : Column) (n : Nat) : Nat :=
  match column.validate n with
  | .ok _ => column.boxes
  | .error _ => 0

namespace Builder
open Fragment

inductive Request where
  | apply (column : Column)
  | not (qubit : Nat)
  | cnot (control target : Nat)
  | toffoli (controls : List Nat) (target : Nat)

def Request.run (b : Builder) : Request → Except Refused Builder
  | .apply column => b.apply column
  | .not q => b.not q
  | .cnot c t => b.cnot c t
  | .toffoli controls t => b.toffoli controls t

def Request.wanted : Request → Column
  | .apply column => column
  | .not q => .not q
  | .cnot c t => .cnot c t
  | .toffoli controls t => .sortedToffoli controls t

-- The builder as a request leaves it, granted or not.
def left (b : Builder) (request : Request) : Builder :=
  match request.run b with
  | .ok after => after
  | .error refused => refused.left

-- The builder after any requests to a new one.
def reached (n : Nat) (requests : List Request) : Builder := requests.foldl left (start n)

def demand (n : Nat) (requests : List Request) : Nat := (requests.map (·.wanted.brings n)).sum

variable {b : Builder} {boxes : Nat} {request : Request} {requests : List Request}

theorem Request.run_wanted : request.run b = b.apply request.wanted := by cases request <;> rfl

-- What no request breaks.
structure Held (n boxes : Nat) (b : Builder) : Prop where
  qubits : b.qubits = n
  realizes : ∃ missing U, Realizes b.diagram n boxes missing U
  laned : b.diagram.Laned n

theorem start_held (n : Nat) : Held n 0 (start n) := ⟨rfl, ⟨_, _, identity_realizes n⟩, identity_laned n⟩

theorem Held.granted (held : Held n boxes b) (valid : column.validate n = .ok ()) (few : boxes + column.boxes ≤ 1073741824) :
    ∃ after, b.apply column = .ok after ∧ Held n (boxes + column.boxes) after := by
  obtain ⟨rfl, ⟨missing, U, realizes⟩, laned⟩ := held
  obtain ⟨after, done, whole⟩ := apply_realizes realizes valid few
  obtain ⟨fragment, made, composed⟩ := apply_ok.mp done
  exact ⟨_, done, rfl, ⟨_, _, whole⟩,
    laned.compose (ofColumn_laned made) realizes.tidy.toWellFormed.ended (ofColumn_wellFormed made).ended composed⟩

theorem apply_refused {cause : CircuitError} (invalid : column.validate b.qubits = .error cause) :
    b.apply column = .error ⟨cause, b⟩ := by
  have unmade : ofColumn b.qubits column = .error cause := by
    unfold ofColumn
    rw [invalid]
    rfl
  unfold apply
  rw [unmade]
  rfl

theorem Held.left (held : Held n boxes b) (few : boxes + request.wanted.brings n ≤ 1073741824) :
    Held n (boxes + request.wanted.brings n) (b.left request) := by
  unfold Builder.left Column.brings at *
  rw [Request.run_wanted]
  cases checked : request.wanted.validate n with
  | ok =>
    simp only [checked] at few
    obtain ⟨after, done, more⟩ := held.granted checked few
    rw [done]
    exact more
  | error cause =>
    rw [apply_refused (held.qubits.symm ▸ checked)]
    exact held

theorem Held.all (held : Held n boxes b) (few : boxes + demand n requests ≤ 1073741824) :
    Held n (boxes + demand n requests) (requests.foldl Builder.left b) := by
  induction requests generalizing b boxes with
  | nil => exact held
  | cons request rest ih =>
    rw [demand, List.map_cons, List.sum_cons, ← Nat.add_assoc] at few ⊢
    exact ih (held.left (by omega)) few

-- Whatever was asked before, a request is granted exactly if its column is valid. A refused one leaves the
-- builder alone; a granted one leaves every input and every output of the register on its lane.
theorem apply_total_atomic (n : Nat) (requests : List Request) (column : Column)
    (ranged : Range.signed32 (hBoxPower * (demand n requests + column.brings n : Nat)) = true) :
    ((∃ after, (reached n requests).apply column = .ok after) ↔ column.validate n = .ok ()) ∧
    (∀ refused, (reached n requests).apply column = .error refused →
      refused.left = reached n requests ∧ column.validate n = .error refused.cause) ∧
    ∀ after, (reached n requests).apply column = .ok after →
      after.qubits = n ∧ after.diagram.inputs.length = n ∧ after.diagram.outputs.length = n ∧ after.diagram.Laned n := by
  have few := boxes_ranged.mp ranged
  have all : Held n (0 + demand n requests) (reached n requests) := (start_held n).all (by omega)
  have held := Nat.zero_add (demand n requests) ▸ all
  cases checked : column.validate n with
  | ok =>
    have room : demand n requests + column.boxes ≤ 1073741824 := by simpa only [Column.brings, checked] using few
    obtain ⟨granted, done, more⟩ := held.granted checked room
    obtain ⟨_, _, realizes⟩ := more.realizes
    rw [done]
    refine ⟨⟨fun _ => rfl, fun _ => ⟨granted, rfl⟩⟩, nofun, ?_⟩
    rintro after ⟨⟩
    exact ⟨more.qubits, realizes.inputs, realizes.outputs, more.laned⟩
  | error cause =>
    rw [apply_refused (held.qubits.symm ▸ checked)]
    refine ⟨⟨nofun, nofun⟩, ?_, nofun⟩
    rintro refused ⟨⟩
    exact ⟨rfl, rfl⟩

-- One qubit is outside the register, and one control is named twice.
def mixedRequests : List Request := [.toffoli [1, 0] 2, .not 3, .cnot 2 0, .apply (.toffoli [0, 0] 1)]

theorem apply_total_atomic_mixed :
    Range.signed32 (hBoxPower * (demand 3 mixedRequests + (Column.toffoli [0, 2] 1).brings 3 : Nat)) = true ∧
    (∃ after, (reached 3 mixedRequests).apply (.toffoli [0, 2] 1) = .ok after ∧ after.diagram.Laned 3) ∧
    ∃ cause, (reached 3 mixedRequests).apply (.cnot 1 1) = .error ⟨cause, reached 3 mixedRequests⟩ := by
  have few : demand 3 mixedRequests = 3 := by cbv
  have ranged : Range.signed32 (hBoxPower * (demand 3 mixedRequests + (Column.toffoli [0, 2] 1).brings 3 : Nat)) = true := by
    rw [few]
    decide
  obtain ⟨total, _, laned⟩ := apply_total_atomic 3 mixedRequests (.toffoli [0, 2] 1) ranged
  obtain ⟨total', atomic, _⟩ := apply_total_atomic 3 mixedRequests (.cnot 1 1) (by rw [few]; decide)
  obtain ⟨after, done⟩ := total.mpr rfl
  refine ⟨ranged, ⟨after, done, (laned after done).2.2.2⟩, ?_⟩
  cases stopped : (reached 3 mixedRequests).apply (.cnot 1 1) with
  | ok other => cases total'.mp ⟨other, stopped⟩
  | error refused =>
    obtain ⟨kept, _⟩ := atomic refused stopped
    exact ⟨refused.cause, by rw [← kept]⟩

end Builder

end ToffoliBench

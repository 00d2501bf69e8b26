import ToffoliBench.Proofs.Recipe.Placement

namespace ToffoliBench.Recipe

open Outcome

variable {r : Recipe} {s : Sequence} {c t : Nat}

theorem controlsLeft_least (inside : r.targetRange.stop ≤ r.qubits) :
    r.controlsLeft = (r.targetRange.toList.map fun t => (r.controlPool t).length).min?.getD 0 := by
  have same : r.targetRange.toList.map (fun t => (r.controlPool t).length) =
      List.replicate r.targetRange.toList.length r.controlsLeft :=
    List.map_eq_replicate_iff.mpr fun t listed => controlPool_length inside (mem_targets.mp listed)
  rw [same]
  cases listed : r.targetRange.toList with
  | nil => simp [controlsLeft, listed]
  | cons first rest => simp

-- The rules of placement for one gate; a valid column may name its controls in any order.
def Permits (r : Recipe) : Column → Prop
  | .not q => r.allowNotInTargetRange = false → r.targetRange.contains q = false
  | .cnot c t => r.allowCnotInTargetRange = false → r.targetRange.contains c = false ∧ r.targetRange.contains t = false
  | .toffoli controls t => r.targetRange.contains t = true ∧ 2 ≤ controls.length ∧ t ∉ controls ∧
      (r.allowControlInTargetRange = false → ∀ c ∈ controls, r.targetRange.contains c = false)

-- A circuit with the gates of the recipe, every one valid and where the rules let it sit.
structure Placed (r : Recipe) (s : Sequence) : Prop where
  qubits : s.qubits = r.qubits
  nots : s.count .not = r.nots
  cnots : s.count .cnot = r.cnots
  toffolis : s.count .toffoli = r.toffolis
  valid : ∀ column ∈ s.columns, column.validate r.qubits = .ok ()
  permitted : ∀ column ∈ s.columns, r.Permits column

theorem Allows.permits {column : Column} (allowed : r.Allows column) : r.Permits column := by
  cases column with
  | not q => exact allowed
  | cnot c t => exact allowed.2
  | toffoli controls t => exact ⟨allowed.1, allowed.2.2⟩

theorem placed_of_follows (follows : r.Follows s) : r.Placed s :=
  ⟨follows.qubits, follows.nots, follows.cnots, follows.toffolis, follows.valid, fun column listed =>
    Allows.permits (follows.placed column listed)⟩

theorem exists_gate {kind : GateKind} (some_ : 0 < s.count kind) : ∃ column ∈ s.columns, column.kind = kind := by
  obtain ⟨column, listed, same⟩ := List.countP_pos_iff.mp some_
  exact ⟨column, listed, by simpa using same⟩

theorem notPool_of_gate {q : Nat} (sits : (Column.not q).Sits r.qubits) (permitted : r.Permits (.not q)) : 1 ≤ r.notPool.length :=
  List.length_pos_of_mem (mem_notPool.mpr ⟨sits, permitted⟩)

theorem cnotPool_of_gate (sits : (Column.cnot c t).Sits r.qubits) (permitted : r.Permits (.cnot c t)) : 2 ≤ r.cnotPool.length := by
  obtain ⟨control, target, apart⟩ := sits
  have both : [c, t] ⊆ r.cnotPool := List.cons_subset.mpr ⟨mem_cnotPool.mpr ⟨control, fun refused => (permitted refused).1⟩,
    List.cons_subset.mpr ⟨mem_cnotPool.mpr ⟨target, fun refused => (permitted refused).2⟩, List.nil_subset _⟩⟩
  have once : [c, t].Nodup := by simpa using apart
  exact once.length_le_of_subset both

theorem controls_of_gate {controls : List Nat} (inside : r.targetRange.stop ≤ r.qubits)
    (sits : (Column.toffoli controls t).Sits r.qubits) (permitted : r.Permits (.toffoli controls t)) : 2 ≤ r.controlsLeft := by
  obtain ⟨_, enough, each, once⟩ := sits
  obtain ⟨target, _, _, out⟩ := permitted
  have pooled : controls ⊆ r.controlPool t := fun c listed =>
    (mem_controlPool target).mpr ⟨(each c listed).1, (each c listed).2, fun refused => out refused c listed⟩
  rw [← controlPool_length inside target]
  exact Nat.le_trans enough (once.length_le_of_subset pooled)

theorem Placed.feasible (placed : r.Placed s)
    (range : r.targetRange.start ≤ r.targetRange.stop ∧ r.targetRange.stop ≤ r.qubits) : r.Feasible := by
  have gate : ∀ kind, 0 < s.count kind → ∃ column : Column, column.kind = kind ∧ column.Sits r.qubits ∧ r.Permits column := by
    intro kind some_
    obtain ⟨column, listed, same⟩ := exists_gate some_
    exact ⟨column, same, Column.validate_ok.mp (placed.valid column listed), placed.permitted column listed⟩
  have toffoli : 0 < r.toffolis → ∃ controls t, (Column.toffoli controls t).Sits r.qubits ∧ r.Permits (.toffoli controls t) := by
    intro asked
    obtain ⟨column, kind, sits, permitted⟩ := gate .toffoli (placed.toffolis ▸ asked)
    cases column with
    | toffoli controls t => exact ⟨controls, t, sits, permitted⟩
    | _ => cases kind
  refine ⟨range, fun asked => ?_, fun asked => ?_, fun asked => ?_, fun asked => ?_⟩
  · obtain ⟨column, kind, sits, permitted⟩ := gate .not (placed.nots ▸ asked)
    cases column with
    | not q => exact notPool_of_gate sits permitted
    | _ => cases kind
  · obtain ⟨column, kind, sits, permitted⟩ := gate .cnot (placed.cnots ▸ asked)
    cases column with
    | cnot c t => exact cnotPool_of_gate sits permitted
    | _ => cases kind
  · obtain ⟨controls, t, _, target, _⟩ := toffoli asked
    simp only [QubitRange.contains, Bool.and_eq_true, decide_eq_true_iff] at target
    omega
  · obtain ⟨controls, t, sits, permitted⟩ := toffoli asked
    exact controls_of_gate range.2 sits permitted

-- A recipe validates exactly if there is a circuit for it; one that is drawn will do.
theorem validate_exact (range : r.targetRange.start ≤ r.targetRange.stop ∧ r.targetRange.stop ≤ r.qubits) :
    r.validate = .ok () ↔ ∃ s, r.Placed s := by
  constructor
  · intro valid
    have drawn := r.generateFrom_drawn default
    obtain ⟨s, made⟩ := drawn.accepted.mpr valid
    exact ⟨s, placed_of_follows (drawn.follows s made)⟩
  · rintro ⟨s, placed⟩
    exact validate_ok.mpr (placed.feasible range)

def tightRecipe : Recipe where
  qubits := 3
  nots := 1
  cnots := 1
  toffolis := 2
  targetRange := ⟨2, 3⟩

def widenedRecipe : Recipe := { tightRecipe with targetRange := ⟨1, 3⟩ }

-- Once the range takes one of the two there is no such circuit, and the recipe is refused.
theorem validate_exact_tight :
    (tightRecipe.targetRange.start ≤ tightRecipe.targetRange.stop ∧ tightRecipe.targetRange.stop ≤ tightRecipe.qubits) ∧
    (∃ s, tightRecipe.Placed s) ∧
    (widenedRecipe.targetRange.start ≤ widenedRecipe.targetRange.stop ∧ widenedRecipe.targetRange.stop ≤ widenedRecipe.qubits) ∧
    ¬∃ s, widenedRecipe.Placed s := by
  have range : tightRecipe.targetRange.start ≤ tightRecipe.targetRange.stop ∧ tightRecipe.targetRange.stop ≤ tightRecipe.qubits := by decide
  have wide : widenedRecipe.targetRange.start ≤ widenedRecipe.targetRange.stop ∧
      widenedRecipe.targetRange.stop ≤ widenedRecipe.qubits := by decide
  refine ⟨range, (validate_exact range).mp rfl, wide, fun some_ => ?_⟩
  have valid := (validate_exact wide).mpr some_
  cases valid

end ToffoliBench.Recipe

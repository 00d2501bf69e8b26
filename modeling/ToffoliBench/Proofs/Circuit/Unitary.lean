import ToffoliBench.Circuit.Builder
import ToffoliBench.Proofs.Circuit.Toffoli
import ToffoliBench.Proofs.Circuit.Validity

namespace ToffoliBench

open Diagram Outcome

variable {n : Nat}

namespace Column

-- The H-boxes of a gate's fragment, one on each of its legs.
def boxes : Column → Nat
  | .toffoli controls _ => controls.length + 1
  | _ => 0

-- The factors of `√2` by which a gate's fragment falls short.
def missing : Column → Nat
  | .not _ => 0
  | _ => 1

end Column

theorem Fragment.present_length {controls : List Nat} (inside : ∀ c ∈ controls, c < n) (once : controls.Nodup) :
    (present controls n).length = controls.length := by
  refine List.Perm.length_eq ((List.perm_ext_iff_of_nodup (present_nodup controls n) once).mpr fun q => ?_)
  rw [mem_present]
  exact ⟨And.right, fun held => ⟨inside q held, held⟩⟩

-- A power that only H-boxes add to stays in range when there are not too many of them.
theorem Fragment.boxes_ranged {boxes : Nat} : Range.signed32 (hBoxPower * boxes) = true ↔ boxes ≤ 1073741824 := by
  rw [signed32_iff, hBoxPower]
  omega

namespace Fragment

variable {d other : Diagram} {boxes more missing less : Nat} {U V : Matrix (Fin n → Bool) (Fin n → Bool) ℂ}

theorem ofColumn_realizes {column : Column} (valid : column.validate n = .ok ()) (few : column.boxes ≤ 1073741824) :
    ∃ d, ofColumn n column = .ok d ∧ Realizes d n column.boxes column.missing (column.permutation n) := by
  cases column with
  | not q =>
    have inside := Column.checkQubit_ok.mp valid
    exact ⟨not n q, check_ok.mpr ⟨valid, rfl⟩, not_realizes inside⟩
  | cnot c t =>
    obtain ⟨control, rest⟩ := check_ok.mp valid
    obtain ⟨target, rest⟩ := check_ok.mp rest
    have different : c ≠ t := by
      rintro rfl
      rw [if_pos rfl] at rest
      cases rest
    exact ⟨cnot n c t, check_ok.mpr ⟨valid, rfl⟩,
      cnot_realizes (Column.checkQubit_ok.mp control) (Column.checkQubit_ok.mp target) different⟩
  | toffoli controls t =>
    obtain ⟨target, rest⟩ := check_ok.mp valid
    split at rest
    · cases rest
    obtain ⟨each, once⟩ := Column.checkControls_ok.mp rest
    have inside : ∀ c ∈ controls, c < n := fun c held => (each c held).1
    have size := present_length inside once
    obtain ⟨d, made, realizes⟩ := controlledNot_realizes (Column.checkQubit_ok.mp target) (fun held => (each t held).2.1 rfl) inside
      (boxes_ranged.mpr (size.symm ▸ few))
    rw [size] at realizes
    exact ⟨d, check_ok.mpr ⟨valid, mapError_ok.mpr made⟩, realizes⟩

theorem Realizes.compose (first : Realizes d n boxes missing U) (second : Realizes other n more less V)
    (few : boxes + more ≤ 1073741824) :
    ∃ after, d.compose other = .ok after ∧ Realizes after n (boxes + more) (missing + less) (V * U) := by
  have product : d.scalar.mul other.scalar = .ok ⟨hBoxPower * (boxes + more : Nat), .zero⟩ := by
    have total : hBoxPower * (boxes + more : Nat) = hBoxPower * boxes + hBoxPower * more := by push_cast; ring
    rw [first.scalar, second.scalar, total]
    exact Scalar.mul_plain (total ▸ boxes_ranged.mpr few)
  obtain ⟨after, done, tidy, scalar⟩ := first.tidy.compose second.tidy (first.outputs.trans second.inputs.symm) product
  obtain ⟨_, inputs, outputs⟩ := compose_arity first.tidy.toWellFormed second.tidy.toWellFormed done
  refine ⟨after, done, tidy, inputs.trans first.inputs, outputs.trans second.outputs, scalar, ?_⟩
  rw [compose_matrix first.tidy.toWellFormed second.tidy.toWellFormed done, first.outputs, second.matrix, first.matrix,
    Matrix.smul_mul, Matrix.mul_smul, smul_smul, pow_add, mul_comm]

end Fragment

namespace Builder
open Fragment

variable {d after : Diagram} {boxes missing : Nat} {U : Matrix (Fin n → Bool) (Fin n → Bool) ℂ}

theorem apply_ok {column : Column} : apply ⟨n, d⟩ column = .ok ⟨n, after⟩ ↔
    ∃ fragment, ofColumn n column = .ok fragment ∧ d.compose fragment = .ok after := by
  refine bind_ok.trans (exists_congr fun fragment => and_congr mapError_ok ?_)
  cases done : d.compose fragment with
  | ok whole => exact pure_ok.trans (by simp)
  | error stop => exact ⟨nofun, nofun⟩

theorem apply_realizes (before : Realizes d n boxes missing U) {column : Column} (valid : column.validate n = .ok ())
    (few : boxes + column.boxes ≤ 1073741824) :
    ∃ after, apply ⟨n, d⟩ column = .ok ⟨n, after⟩ ∧
      Realizes after n (boxes + column.boxes) (missing + column.missing) (column.permutation n * U) := by
  obtain ⟨fragment, made, realizes⟩ := ofColumn_realizes valid (by omega)
  obtain ⟨after, done, whole⟩ := before.compose realizes few
  exact ⟨after, apply_ok.mpr ⟨fragment, made, done⟩, whole⟩

theorem applyAll_realizes {columns : List Column} (before : Realizes d n boxes missing U)
    (valid : ∀ column ∈ columns, column.validate n = .ok ()) (few : boxes + (columns.map Column.boxes).sum ≤ 1073741824) :
    ∃ after, applyAll ⟨n, d⟩ columns = .ok ⟨n, after⟩ ∧
      Realizes after n (boxes + (columns.map Column.boxes).sum) (missing + (columns.map Column.missing).sum)
        (columns.foldl (fun U column => column.permutation n * U) U) := by
  induction columns generalizing d boxes missing U with
  | nil => exact ⟨d, rfl, by simpa using before⟩
  | cons column rest ih =>
    obtain ⟨first, others⟩ := List.forall_mem_cons.mp valid
    rw [List.map_cons, List.sum_cons, ← Nat.add_assoc] at few
    obtain ⟨middle, stepped, between_⟩ := apply_realizes before first (by omega)
    obtain ⟨after, ran, realizes⟩ := ih between_ others few
    refine ⟨after, bind_ok.mpr ⟨⟨n, middle⟩, stepped, ran⟩, ?_⟩
    rwa [List.map_cons, List.map_cons, List.sum_cons, List.sum_cons, ← Nat.add_assoc, ← Nat.add_assoc]

end Builder

theorem Fragment.Realizes.exact_iff {d : Diagram} {boxes missing : Nat} {U : Matrix (Fin n → Bool) (Fin n → Bool) ℂ}
    (realizes : Realizes d n boxes missing U) (nonzero : U ≠ 0) : d.matrix n n = U ↔ missing = 0 := by
  rw [realizes.matrix]
  constructor
  · intro exact_
    have unit : rootTwo⁻¹ ^ missing = 1 := by
      by_contra other
      have gone : (rootTwo⁻¹ ^ missing - 1) • U = 0 := by rw [sub_smul, exact_, one_smul, sub_self]
      rcases smul_eq_zero.mp gone with same | zero
      · exact other (sub_eq_zero.mp same)
      · exact nonzero zero
    have square : (2 : ℂ) ^ missing = 1 := by
      rw [← rootTwo_sq, ← pow_mul, mul_comm, pow_mul]
      rw [inv_pow, inv_eq_one] at unit
      rw [unit, one_pow]
    by_contra some_
    have natural : 2 ^ missing = 1 := by exact_mod_cast square
    exact some_ (Nat.pow_eq_one.mp natural |>.resolve_left (by decide))
  · rintro rfl
    rw [pow_zero, one_smul]

namespace Sequence
open Fragment

variable {s : Sequence}

-- The sequences that can be built: column after column, each of them accepted.
inductive Pushed : Sequence → Prop
  | start (qubits : Nat) : Pushed ⟨qubits, []⟩
  | push {s after : Sequence} {column : Column} (before : Pushed s) (done : s.push column = .ok after) : Pushed after

theorem pushed_iff : s.Pushed ↔ ∀ column ∈ s.columns, column.validate s.qubits = .ok () := by
  constructor
  · intro pushed
    induction pushed with
    | start qubits => nofun
    | push before done ih =>
      obtain ⟨accepted, rest⟩ := check_ok.mp done
      obtain rfl := pure_ok.mp rest
      intro column listed
      rcases List.mem_append.mp listed with early | last
      · exact ih column early
      · obtain rfl := List.mem_singleton.mp last
        exact accepted
  · obtain ⟨qubits, columns⟩ := s
    intro valid
    induction columns using List.reverseRecOn with
    | nil => exact .start qubits
    | append_singleton early last ih =>
      have before := ih fun column listed => valid column (List.mem_append_left _ listed)
      have accepted := valid last (List.mem_append_right _ List.mem_cons_self)
      exact .push before (check_ok.mpr ⟨accepted, rfl⟩)

def boxes (s : Sequence) : Nat := (s.columns.map Column.boxes).sum

theorem sum_missing (columns : List Column) : (columns.map Column.missing).sum =
    columns.countP (·.kind == .cnot) + columns.countP (·.kind == .toffoli) := by
  induction columns with
  | nil => rfl
  | cons column rest ih =>
    rw [List.map_cons, List.sum_cons, ih, List.countP_cons, List.countP_cons]
    cases column with
    | not q => simp [Column.missing, Column.kind]
    | cnot c t =>
      simp only [Column.missing, Column.kind, beq_self_eq_true, if_true]
      simp
      omega
    | toffoli cs t =>
      simp only [Column.missing, Column.kind, beq_self_eq_true, if_true]
      simp
      omega

theorem Pushed.realizes (pushed : s.Pushed) (few : s.boxes ≤ 1073741824) :
    ∃ d, s.diagram = .ok d ∧ Realizes d s.qubits s.boxes (s.count .cnot + s.count .toffoli) s.unitary := by
  obtain ⟨d, ran, realizes⟩ := Builder.applyAll_realizes (identity_realizes s.qubits) (pushed_iff.mp pushed) (by simpa [boxes] using few)
  rw [sum_missing, Nat.zero_add, Nat.zero_add] at realizes
  refine ⟨d, ?_, realizes⟩
  rw [diagram, Builder.start, ran]

-- What the power of the scalar has to hold is the H-boxes of the whole sequence.
theorem diagram_unitary (pushed : s.Pushed) (ranged : Range.signed32 (hBoxPower * s.boxes) = true) :
    ∃ d, s.diagram = .ok d ∧ d.inputs.length = s.qubits ∧ d.outputs.length = s.qubits ∧
      d.matrix s.qubits s.qubits = rootTwo ^ (-(s.count .cnot + s.count .toffoli : ℤ)) • s.unitary := by
  obtain ⟨d, made, realizes⟩ := pushed.realizes (boxes_ranged.mp ranged)
  refine ⟨d, made, realizes.inputs, realizes.outputs, ?_⟩
  rw [realizes.matrix, ← Nat.cast_add, zpow_neg, zpow_natCast, inv_pow]

def mixed : Sequence := ⟨3, [.toffoli [0, 1] 2, .not 1, .cnot 2 0]⟩

theorem mixed_pushed : mixed.Pushed  := by
  rw [pushed_iff, mixed]
  simp only [List.forall_mem_cons]
  exact ⟨rfl, rfl, rfl, nofun⟩

theorem diagram_unitary_mixed : mixed.Pushed ∧ Range.signed32 (hBoxPower * mixed.boxes) = true ∧ ∃ d, mixed.diagram = .ok d ∧
    d.inputs.length = 3 ∧ d.outputs.length = 3 ∧ d.matrix 3 3 = rootTwo ^ (-(1 + 1 : ℤ)) • mixed.unitary :=
  ⟨mixed_pushed, rfl, diagram_unitary mixed_pushed rfl⟩

-- The tracked scalar leaves the factors of CNOT and Toffoli gates out.
theorem diagram_exact_iff (pushed : s.Pushed) (ranged : Range.signed32 (hBoxPower * s.boxes) = true) :
    ∃ d, s.diagram = .ok d ∧ d.scalar = ⟨hBoxPower * s.boxes, .zero⟩ ∧
      d.matrix s.qubits s.qubits = rootTwo ^ (-(s.count .cnot + s.count .toffoli : ℤ)) • s.unitary ∧
      (d.matrix s.qubits s.qubits = s.unitary ↔ s.count .cnot = 0 ∧ s.count .toffoli = 0) := by
  obtain ⟨d, made, realizes⟩ := pushed.realizes (boxes_ranged.mp ranged)
  refine ⟨d, made, realizes.scalar, ?_, (realizes.exact_iff s.unitary_ne_zero).trans Nat.add_eq_zero_iff⟩
  rw [realizes.matrix, ← Nat.cast_add, zpow_neg, zpow_natCast, inv_pow]

theorem diagram_exact_iff_mixed : mixed.Pushed ∧ Range.signed32 (hBoxPower * mixed.boxes) = true ∧ ∃ d, mixed.diagram = .ok d ∧
    d.scalar = ⟨-6, .zero⟩ ∧ d.matrix 3 3 = rootTwo ^ (-(1 + 1 : ℤ)) • mixed.unitary ∧
    (d.matrix 3 3 = mixed.unitary ↔ mixed.count .cnot = 0 ∧ mixed.count .toffoli = 0) :=
  ⟨mixed_pushed, rfl, diagram_exact_iff mixed_pushed rfl⟩

-- One CNOT is enough to leave a factor over.
def copied : Sequence := ⟨2, [.cnot 0 1]⟩

theorem copied_inexact : copied.Pushed ∧ ∃ d, copied.diagram = .ok d ∧ d.matrix 2 2 ≠ copied.unitary := by
  have pushed : copied.Pushed := pushed_iff.mpr fun column listed => List.mem_singleton.mp listed ▸ rfl
  obtain ⟨d, made, realizes⟩ := pushed.realizes (by decide)
  refine ⟨pushed, d, made, fun same => ?_⟩
  have none := (realizes.exact_iff copied.unitary_ne_zero).mp same
  exact absurd none (by decide)

end Sequence

end ToffoliBench

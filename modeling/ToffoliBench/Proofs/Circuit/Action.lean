import Mathlib.Data.List.OfFn
import Mathlib.Data.Matrix.Mul
import Mathlib.Data.Complex.Basic
import Mathlib.Data.Fintype.Pi
import ToffoliBench.Circuit.Sequence

namespace ToffoliBench

variable {n : Nat}

-- The bit of a qubit; outside the register it is zero.
def bit (bits : Fin n → Bool) (q : Nat) : Bool := if inside : q < n then bits ⟨q, inside⟩ else false

theorem ofFn_bits (bits : Fin n → Bool) : List.ofFn bits = (List.range n).map (bit bits) := by
  rw [← List.map_coe_finRange_eq_range, List.map_map, List.ofFn_eq_map]
  refine List.map_congr_left fun q _ => ?_
  simp [bit]

namespace Column

def target : Column → Nat
  | .not q => q
  | .cnot _ t => t
  | .toffoli _ t => t

def controls : Column → List Nat
  | .not _ => []
  | .cnot c _ => [c]
  | .toffoli cs _ => cs

def act (column : Column) (bits : Fin n → Bool) : Fin n → Bool := fun q =>
  if q = column.target then bits q ^^ column.controls.all (bit bits) else bits q

theorem eq_act {column : Column} {out inp : Fin n → Bool} : out = column.act inp ↔
    ∀ q < n, bit out q = if q = column.target then bit inp q ^^ column.controls.all (bit inp) else bit inp q := by
  constructor
  · rintro rfl q inside
    simp [act, bit, inside]
  · intro each
    funext q
    have here := each q q.isLt
    simpa [act, bit] using here

def permutation (column : Column) (n : Nat) : Matrix (Fin n → Bool) (Fin n → Bool) ℂ :=
  .of fun out inp => if out = column.act inp then 1 else 0

end Column

namespace Sequence

def unitary (s : Sequence) : Matrix (Fin s.qubits → Bool) (Fin s.qubits → Bool) ℂ :=
  s.columns.foldl (fun U column => column.permutation s.qubits * U) 1

-- The bits after all gates.
def run (s : Sequence) (bits : Fin s.qubits → Bool) : Fin s.qubits → Bool :=
  s.columns.foldl (fun bits column => column.act bits) bits

theorem foldl_permutation (columns : List Column) (f : (Fin n → Bool) → Fin n → Bool) :
    columns.foldl (fun U column => column.permutation n * U) (.of fun out inp => if out = f inp then (1 : ℂ) else 0) =
      .of fun out inp => if out = columns.foldl (fun bits column => column.act bits) (f inp) then 1 else 0 := by
  induction columns generalizing f with
  | nil => rfl
  | cons column rest ih =>
    have step : (column.permutation n * .of fun out inp => if out = f inp then (1 : ℂ) else 0) =
        .of fun out inp => if out = column.act (f inp) then 1 else 0 := by
      ext out inp
      simp [Matrix.mul_apply, Column.permutation]
    rw [List.foldl_cons, step, ih]
    rfl

theorem unitary_eq_run (s : Sequence) : s.unitary = .of fun out inp => if out = s.run inp then 1 else 0 := by
  have one : (1 : Matrix (Fin s.qubits → Bool) (Fin s.qubits → Bool) ℂ) = .of fun out inp => if out = id inp then 1 else 0 := by
    ext out inp
    simp [Matrix.one_apply]
  rw [unitary, one, foldl_permutation]
  rfl

theorem unitary_ne_zero (s : Sequence) : s.unitary ≠ 0 := by
  intro zero
  have entry := congrFun (congrFun zero (s.run fun _ => false)) fun _ => false
  simp [unitary_eq_run] at entry

end Sequence

end ToffoliBench

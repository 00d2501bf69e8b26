import Mathlib.Algebra.BigOperators.Ring.Finset
import Mathlib.Data.Complex.Basic
import Mathlib.Data.Fintype.BigOperators
import Mathlib.Data.List.OfFn
import Mathlib.Logic.Equiv.Fin.Basic

namespace ToffoliBench.Meaning

noncomputable def sumBits : Nat → (List Bool → ℂ) → ℂ
  | 0, f => f []
  | n + 1, f => ∑ b : Bool, sumBits n fun bits => f (b :: bits)

variable {f g : List Bool → ℂ}

theorem sum_ofFn (n : Nat) (f : List Bool → ℂ) : ∑ bits : Fin n → Bool, f (List.ofFn bits) = sumBits n f := by
  induction n generalizing f with
  | zero => simp [sumBits]
  | succ n ih =>
    rw [sumBits, ← (Fin.consEquiv fun _ : Fin (n + 1) => Bool).sum_comp, Fintype.sum_prod_type]
    refine Finset.sum_congr rfl fun b _ => ?_
    rw [← ih]
    refine Finset.sum_congr rfl fun bits _ => ?_
    simp [Fin.consEquiv, List.ofFn_succ]

theorem sumBits_congr {n : Nat} (same : ∀ bits, bits.length = n → f bits = g bits) : sumBits n f = sumBits n g := by
  induction n generalizing f g with
  | zero => exact same [] rfl
  | succ n ih =>
    exact Finset.sum_congr rfl fun b _ => ih fun bits length => same (b :: bits) (by rw [List.length_cons, length])

theorem sumBits_comm (n : Nat) (f : Bool → List Bool → ℂ) :
    ∑ b : Bool, sumBits n (f b) = sumBits n fun bits => ∑ b : Bool, f b bits := by
  induction n generalizing f with
  | zero => rfl
  | succ n ih =>
    simp only [sumBits]
    rw [Finset.sum_comm]
    exact Finset.sum_congr rfl fun c _ => ih _

theorem sumBits_mul (n : Nat) (c : ℂ) (f : List Bool → ℂ) : (sumBits n fun bits => c * f bits) = c * sumBits n f := by
  induction n generalizing f with
  | zero => rfl
  | succ n ih => simp only [sumBits, ih, Finset.mul_sum]

theorem sumBits_add (m n : Nat) (f : List Bool → ℂ) :
    sumBits (m + n) f = sumBits m fun first => sumBits n fun second => f (first ++ second) := by
  induction m generalizing f with
  | zero => simp [sumBits]
  | succ m ih =>
    rw [Nat.succ_add]
    simp only [sumBits, ih, List.cons_append]

theorem sumBits_sub (n : Nat) (f g : List Bool → ℂ) :
    (sumBits n fun bits => f bits - g bits) = sumBits n f - sumBits n g := by
  induction n generalizing f g with
  | zero => rfl
  | succ n ih => simp only [sumBits, ih, Finset.sum_sub_distrib]

-- Only one string counts.
theorem sumBits_single {n : Nat} {chosen : List Bool} (length : chosen.length = n) (f : List Bool → ℂ) :
    (sumBits n fun bits => if bits = chosen then f bits else 0) = f chosen := by
  induction chosen generalizing n f with
  | nil =>
    subst length
    simp [sumBits]
  | cons b rest ih =>
    subst length
    have zero : ∀ n, (sumBits n fun _ => (0 : ℂ)) = 0 := fun n => by
      simpa using sumBits_mul n 0 fun _ => 0
    cases b <;> simp [sumBits, zero, ih rfl]

end ToffoliBench.Meaning

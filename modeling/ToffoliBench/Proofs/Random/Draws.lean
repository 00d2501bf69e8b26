import Mathlib.Data.List.Perm.Basic
import ToffoliBench.Random.Draw

namespace ToffoliBench.Draw

variable {α β : Type}

-- Every source makes the draw give something of this kind.
def Always (m : Draw α) (P : α → Prop) : Prop := ∀ s, P (m s).1

theorem Always.pure {a : α} {P : α → Prop} (holds : P a) : Always (pure a) P := fun _ => holds

theorem Always.bind {m : Draw α} {f : α → Draw β} {P : α → Prop} {Q : β → Prop} (first : Always m P)
    (rest : ∀ a, P a → Always (f a) Q) : Always (m >>= f) Q :=
  fun s => rest _ (first s) _

theorem Always.mono {m : Draw α} {P Q : α → Prop} (always : Always m P) (weaker : ∀ a, P a → Q a) : Always m Q :=
  fun s => weaker _ (always s)

theorem bind_run (m : Draw α) (f : α → Draw β) (s : Source) : (m >>= f) s = f (m s).1 (m s).2 := rfl

-- What a draw gives after it was made `i` times before.
def nth (m : Draw α) (s : Source) : Nat → α
  | 0 => (m s).1
  | i + 1 => nth m (m s).2 i

theorem Always.nth {m : Draw α} {P : α → Prop} (always : Always m P) (s : Source) (i : Nat) : P (m.nth s i) := by
  induction i generalizing s with
  | zero => exact always s
  | succ i ih => exact ih _

theorem word_lt (width : Width) : Always (word width) (· < width.size) := by
  intro s
  cases width with
  | w32 => exact UInt32.toNat_lt s.next32.1
  | w64 => exact UInt64.toNat_lt s.next64.1

-- The upper half of a word times a length is below the length.
theorem upper_lt {width : Width} {w length : Nat} (small : w < width.size) (positive : 0 < length) :
    w * length / width.size < length := by
  refine Nat.div_lt_of_lt_mul ?_
  exact Nat.mul_lt_mul_of_pos_right small positive

theorem scaled_lt (width : Width) {length : Nat} (positive : 0 < length) (zone fuel : Nat) :
    Always (scaled width length zone fuel) (· < length) := by
  induction fuel with
  | zero => exact .pure positive
  | succ fuel ih =>
    refine .bind (word_lt width) fun w small => ?_
    split
    · exact .pure (upper_lt small positive)
    · exact ih

theorem between_range (width : Width) {lo hi : Nat} (ordered : lo ≤ hi) :
    Always (between width lo hi) fun k => lo ≤ k ∧ k ≤ hi := by
  unfold between
  dsimp only
  split
  · rename_i whole
    refine .bind (word_lt width) fun k small => .pure ⟨Nat.le_add_right .., ?_⟩
    omega
  · refine .bind (scaled_lt width (Nat.succ_pos _) _ _) fun k small => .pure ⟨Nat.le_add_right .., ?_⟩
    omega

theorem index_lt {n : Nat} (positive : 0 < n) : Always (index n) (· < n) :=
  (between_range .w32 (Nat.zero_le _)).mono fun k inside => by omega

theorem choose_mem {xs : List α} (some_ : xs ≠ []) : Always (choose? xs) fun chosen => ∃ x ∈ xs, chosen = some x := by
  have positive : 0 < xs.length := List.length_pos_iff.mpr some_
  have filled : ¬xs.isEmpty = true := by simpa using some_
  rw [choose?, if_neg filled]
  refine .bind (index_lt positive) fun i small => .pure ?_
  exact ⟨xs[i], List.getElem_mem small, List.getElem?_eq_getElem small⟩

theorem swap_perm (xs : Array α) (i j : Nat) : (xs.swapIfInBounds i j).toList.Perm xs.toList := by
  unfold Array.swapIfInBounds
  split
  · split
    · exact (Array.swap_perm _ _).toList
    · exact .refl _
  · exact .refl _

theorem shuffleFrom_perm (xs : Array α) (n : Nat) : Always (shuffleFrom xs n) (·.toList.Perm xs.toList) := by
  induction xs, n using shuffleFrom.induct with
  | case1 xs => exact .pure (.refl _)
  | case2 xs => exact .pure (.refl _)
  | case3 xs n ih =>
    refine .bind (index_lt (Nat.succ_pos _)) fun j _ => ?_
    exact (ih j).mono fun ys same => same.trans (swap_perm xs _ _)

theorem shuffle_perm (xs : List α) : Always (shuffle xs) (·.Perm xs) :=
  .bind (shuffleFrom_perm xs.toArray xs.length) fun _ same => .pure same

end ToffoliBench.Draw

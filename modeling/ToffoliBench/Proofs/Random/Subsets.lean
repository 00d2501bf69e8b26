import Mathlib.Data.List.Perm.Subperm
import Mathlib.Data.List.Nodup
import ToffoliBench.Proofs.Random.Draws
import ToffoliBench.Random.Subset

namespace ToffoliBench.Draw

variable {α : Type}

-- So many different numbers below `length`.
structure Places (length amount : Nat) (ps : List Nat) : Prop where
  once : ps.Nodup
  below : ∀ p ∈ ps, p < length
  size : ps.length = amount

theorem Places.perm {length amount : Nat} {ps qs : List Nat} (places : Places length amount ps) (same : qs.Perm ps) :
    Places length amount qs :=
  ⟨same.nodup_iff.mpr places.once, fun q listed => places.below q (same.mem_iff.mp listed), same.length_eq.trans places.size⟩

theorem swapForward_perm (length : Nat) (xs : Array Nat) (i count : Nat) :
    Always (swapForward length xs i count) (·.toList.Perm xs.toList) := by
  induction count generalizing xs i with
  | zero => exact .pure (.refl _)
  | succ count ih =>
    -- a swap within or out of bounds moves nothing out of the list
    have any : Always (between .w32 i (length - 1)) fun _ => True := fun _ => trivial
    exact any.bind fun j _ => (ih _ _).mono fun ys same => same.trans (swap_perm xs _ _)

theorem inPlace_places {length amount : Nat} (enough : amount ≤ length) : Always (inPlace length amount) (Places length amount) := by
  refine .bind (swapForward_perm length (Array.range length) 0 amount) fun xs same => .pure ?_
  rw [Array.toList_range] at same
  have all : Places length length xs.toList :=
    Places.perm ⟨List.nodup_range, fun p listed => List.mem_range.mp listed, List.length_range⟩ same
  refine ⟨all.once.sublist (List.take_sublist ..), fun p listed => all.below p (List.mem_of_mem_take listed), ?_⟩
  rw [List.length_take, all.size, Nat.min_eq_left enough]

theorem insertBefore_perm {t j : Nat} {xs : List Nat} (held : t ∈ xs) : (insertBefore t j xs).Perm (j :: xs) := by
  induction xs with
  | nil => cases held
  | cons x rest ih =>
    unfold insertBefore
    split
    · exact .refl _
    · rename_i other
      have later : t ∈ rest := (List.mem_cons.mp held).resolve_left fun same => other same.symm
      exact ((ih later).cons x).trans (.swap ..)

theorem lastPosition_perm (keepsOrder : Bool) (chosen : List Nat) (j t : Nat) :
    (lastPosition keepsOrder chosen j t).Perm ((if t ∈ chosen then j else t) :: chosen) := by
  unfold lastPosition
  by_cases held : t ∈ chosen
  · rw [if_pos (by simpa using held), if_pos held]
    split
    · exact insertBefore_perm held
    · exact List.perm_append_singleton ..
  · rw [if_neg (by simpa using held), if_neg held]
    exact List.perm_append_singleton ..

-- All positions drawn so far are below the next one.
theorem lastPositionsFrom_places (keepsOrder : Bool) {chosen : List Nat} {j amount : Nat} (places : Places j amount chosen) (count : Nat) :
    Always (lastPositionsFrom keepsOrder chosen j count) (Places (j + count) (amount + count)) := by
  induction count generalizing chosen j amount with
  | zero => exact .pure places
  | succ count ih =>
    refine .bind (between_range .w32 (Nat.zero_le j)) fun t inside => ?_
    have fresh : (if t ∈ chosen then j else t) ∉ chosen := by
      split
      · exact fun again => Nat.lt_irrefl _ (places.below j again)
      · assumption
    have small : (if t ∈ chosen then j else t) < j + 1 := by split <;> omega
    have one : Places (j + 1) (amount + 1) (lastPosition keepsOrder chosen j t) := by
      refine Places.perm ⟨List.nodup_cons.mpr ⟨fresh, places.once⟩, fun p listed => ?_, by rw [List.length_cons, places.size]⟩
        (lastPosition_perm keepsOrder chosen j t)
      rcases List.mem_cons.mp listed with rfl | early
      · exact small
      · exact Nat.lt_succ_of_lt (places.below p early)
    have all := ih one
    rwa [Nat.add_assoc, Nat.add_assoc, Nat.add_comm 1 count] at all

theorem shuffleRange_perm (xs : Array Nat) (n : Nat) : Always (lastPositions.shuffleRange xs n) (·.toList.Perm xs.toList) := by
  induction xs, n using lastPositions.shuffleRange.induct with
  | case1 xs => exact .pure (.refl _)
  | case2 xs => exact .pure (.refl _)
  | case3 xs n ih =>
    refine .bind (between_range .w32 (Nat.zero_le _)) fun j _ => ?_
    exact (ih j).mono fun ys same => same.trans (swap_perm xs _ _)

theorem lastPositions_places {length amount : Nat} (enough : amount ≤ length) :
    Always (lastPositions length amount) (Places length amount) := by
  have start : Places (length - amount) 0 [] := ⟨List.nodup_nil, nofun, rfl⟩
  have drawn := lastPositionsFrom_places (decide (amount < 50)) start amount
  rw [Nat.sub_add_cancel enough, Nat.zero_add] at drawn
  refine .bind drawn fun chosen places => ?_
  split
  · exact .pure places
  · exact .bind (shuffleRange_perm chosen.toArray amount) fun xs same => .pure (places.perm same)

-- While not all positions are taken there is one left.
theorem exists_new {length : Nat} {chosen : List Nat} (short : chosen.length < length) : ∃ p < length, p ∉ chosen := by
  by_contra none
  have all : List.range length ⊆ chosen := fun p listed =>
    by_contra fun absent => none ⟨p, List.mem_range.mp listed, absent⟩
  have bound := (List.subperm_of_subset List.nodup_range all).length_le
  rw [List.length_range] at bound
  omega

theorem newPosition_new {length : Nat} {chosen : List Nat} (short : chosen.length < length) (fuel : Nat) :
    Always (newPosition length chosen fuel) fun p => p < length ∧ p ∉ chosen := by
  induction fuel with
  | zero =>
    refine .pure ?_
    obtain ⟨p, small, absent⟩ := exists_new short
    cases found : (List.range length).find? (!chosen.contains ·) with
    | none =>
      have taken := List.find?_eq_none.mp found p (List.mem_range.mpr small)
      exact absurd (by simpa using taken) absent
    | some q =>
      have inside := List.mem_range.mp (List.mem_of_find?_eq_some found)
      have new := List.find?_some found
      exact ⟨inside, by simpa using new⟩
  | succ fuel ih =>
    refine .bind (scaled_lt .w32 (by omega) _ _) fun t small => ?_
    split
    · exact ih
    · rename_i absent
      exact .pure ⟨small, by simpa using absent⟩

theorem untilNewFrom_places {length amount : Nat} {chosen : List Nat} (places : Places length amount chosen) {count : Nat}
    (enough : amount + count ≤ length) : Always (untilNewFrom length chosen count) (Places length (amount + count)) := by
  induction count generalizing chosen amount with
  | zero => exact .pure places
  | succ count ih =>
    have size := places.size
    refine .bind (newPosition_new (by omega) _) fun t fresh => ?_
    have one : Places length (amount + 1) (chosen ++ [t]) := by
      refine Places.perm ⟨List.nodup_cons.mpr ⟨fresh.2, places.once⟩, fun p listed => ?_, by rw [List.length_cons, size]⟩
        (List.perm_append_singleton ..)
      rcases List.mem_cons.mp listed with rfl | early
      · exact fresh.1
      · exact places.below p early
    have all := ih one (by omega)
    rwa [Nat.add_assoc, Nat.add_comm 1 count] at all

theorem positions_places {length amount : Nat} (enough : amount ≤ length) : Always (positions length amount) (Places length amount) := by
  unfold positions
  split
  · exact inPlace_places enough
  · exact lastPositions_places enough
  · have start : Places length 0 [] := ⟨List.nodup_nil, nofun, rfl⟩
    have room : 0 + amount ≤ length := by omega
    have all := untilNewFrom_places start room
    rwa [Nat.zero_add] at all

theorem subset_drawn {xs : List α} (once : xs.Nodup) {amount : Nat} (enough : amount ≤ xs.length) :
    Always (subset xs amount) fun ys => ys.Nodup ∧ (∀ y ∈ ys, y ∈ xs) ∧ ys.length = amount := by
  unfold subset
  rw [Nat.min_eq_left enough]
  refine .bind (positions_places enough) fun chosen places => .pure ?_
  simp only [List.getElem?_toArray]
  have found : ∀ p ∈ chosen, (xs[p]?).isSome := fun p listed => by simpa using places.below p listed
  refine ⟨?_, ?_, ?_⟩
  · refine List.Nodup.filterMap (fun i j x first second => ?_) places.once
    obtain ⟨small, _⟩ := List.getElem?_eq_some_iff.mp first
    exact (List.getElem?_inj small once).mp (first.trans second.symm)
  · intro y listed
    obtain ⟨p, _, held⟩ := List.mem_filterMap.mp listed
    exact List.mem_of_getElem? held
  · rw [List.length_filterMap_eq_countP, List.countP_eq_length.mpr found, places.size]

end ToffoliBench.Draw

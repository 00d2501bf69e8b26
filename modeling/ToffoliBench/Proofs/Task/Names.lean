import ToffoliBench.Proofs.Files.Naming
import ToffoliBench.Proofs.Text.Numerals
import ToffoliBench.Task.Basic

namespace ToffoliBench

namespace Text

variable {xs ys : List String} {mark : String} {c : Char}

theorem mem_joined (listed : c ∈ (joined mark xs).toList) : c ∈ mark.toList ∨ ∃ s ∈ xs, c ∈ s.toList := by
  induction xs with
  | nil => cases listed
  | cons x rest ih =>
    cases rest with
    | nil => exact .inr ⟨x, List.mem_cons_self, listed⟩
    | cons y more =>
      rw [joined, String.toList_append, String.toList_append, List.append_assoc, List.mem_append, List.mem_append] at listed
      rcases listed with first | between | later
      · exact .inr ⟨x, List.mem_cons_self, first⟩
      · exact .inl between
      · rcases ih later with inMark | ⟨s, held, inside⟩
        · exact .inl inMark
        · exact .inr ⟨s, List.mem_cons_of_mem _ held, inside⟩

-- As many texts are told apart where they are joined by a character that none of them has.
theorem joined_injective (single : mark.toList = [c]) (left : ∀ s ∈ xs, c ∉ s.toList) (right : ∀ s ∈ ys, c ∉ s.toList)
    (lengths : xs.length = ys.length) (same : joined mark xs = joined mark ys) : xs = ys := by
  induction xs generalizing ys with
  | nil => exact (List.length_eq_zero_iff.mp lengths.symm).symm
  | cons x xs ih =>
    obtain ⟨y, ys, rfl⟩ := List.exists_cons_of_length_pos (lengths ▸ Nat.succ_pos _ : 0 < ys.length)
    obtain ⟨first, others⟩ := List.forall_mem_cons.mp left
    obtain ⟨first', others'⟩ := List.forall_mem_cons.mp right
    match xs, ys, lengths with
    | [], [], _ => exact congrArg (· :: []) same
    | x' :: xs, y' :: ys, lengths =>
      have cut : ∀ s t : String, (s ++ mark ++ t).toList = s.toList ++ c :: t.toList := by simp [single]
      have chars := congrArg String.toList same
      rw [joined, joined, cut, cut] at chars
      have parts := congrArg (splitAt? c) chars
      rw [splitAt?_append first, splitAt?_append first'] at parts
      obtain ⟨head, tail⟩ := Prod.mk.inj (Option.some.inj parts)
      rw [String.toList_inj.mp head, ih others others' (Nat.succ.inj lengths) (String.toList_inj.mp tail)]

theorem ofNat_injective {m n : Nat} (same : String.ofList (ofNat m) = String.ofList (ofNat n)) : m = n := by
  rw [← digitsValue_ofNat m, String.ofList_injective same, digitsValue_ofNat]

end Text

namespace Task

variable {t u : Task}

theorem number_digits {ns : List Nat} : ∀ s ∈ ns.map fun n => String.ofList (Text.ofNat n), ∀ c ∈ s.toList, c.isDigit = true := by
  intro s listed c held
  obtain ⟨n, _, rfl⟩ := List.mem_map.mp listed
  rw [String.toList_ofList] at held
  exact Text.ofNat_digits c held

def numbers (t : Task) : List Nat := [t.qubits, t.nots, t.cnots, t.toffolis, t.seed]

theorem stem_injective (same : t.stem = u.stem) : t = u := by
  have clean : ∀ ns : List Nat, ∀ s ∈ ns.map fun n => String.ofList (Text.ofNat n), '_' ∉ s.toList := fun ns s listed underscore =>
    nomatch number_digits s listed _ underscore
  have texts := Text.joined_injective rfl (clean t.numbers) (clean u.numbers) rfl same
  have numbers : t.numbers = u.numbers := (List.map_injective_iff.mpr fun _ _ => Text.ofNat_injective) texts
  obtain ⟨qubits, nots, cnots, toffolis, seed⟩ := t
  obtain ⟨qubits', nots', cnots', toffolis', seed'⟩ := u
  simpa [Task.numbers] using numbers

theorem fileName_injective (same : t.fileName = u.fileName) : t = u := by
  refine stem_injective (String.toList_inj.mp ?_)
  have chars := congrArg String.toList same
  rw [fileName, fileName, String.toList_append, String.toList_append] at chars
  exact List.append_cancel_right chars

theorem fileName_ordinary (t : Task) : Files.Ordinary t.fileName := by
  have chars : t.fileName.toList = t.stem.toList ++ ['.', 't', 'x', 't'] := String.toList_append
  have long : 4 ≤ t.fileName.toList.length := by simp [chars]
  refine ⟨?_, fun slash => ?_, ?_, ?_⟩
  · exact fun same => absurd (same ▸ long) (by decide)
  · rw [chars, List.mem_append] at slash
    rcases slash with number | ending
    · rcases Text.mem_joined number with mark | ⟨s, listed, held⟩
      · exact absurd mark (by decide)
      · cases number_digits s listed _ held
    · exact absurd ending (by decide)
  · exact fun same => absurd (same ▸ long) (by decide)
  · exact fun same => absurd (same ▸ long) (by decide)

end Task

end ToffoliBench

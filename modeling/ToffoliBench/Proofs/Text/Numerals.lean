import ToffoliBench.Text.Blank
import ToffoliBench.Text.Integer

namespace ToffoliBench.Text

theorem splitAt?_append {sep : Char} {left right : List Char} (absent : sep ∉ left) :
    splitAt? sep (left ++ sep :: right) = some (left, right) := by
  induction left with
  | nil => simp [splitAt?]
  | cons c rest ih =>
    obtain ⟨different, later⟩ := List.ne_and_not_mem_of_not_mem_cons absent
    simp [splitAt?, different.symm, ih later]

theorem splitAt?_absent {sep : Char} {cs : List Char} (absent : sep ∉ cs) : splitAt? sep cs = none := by
  induction cs with
  | nil => rfl
  | cons c rest ih =>
    obtain ⟨different, later⟩ := List.ne_and_not_mem_of_not_mem_cons absent
    simp [splitAt?, different.symm, ih later]

theorem splitAt?_none_iff {sep : Char} {cs : List Char} : splitAt? sep cs = none ↔ sep ∉ cs := by
  constructor
  · intro none listed
    obtain ⟨left, right, shape, absent⟩ := List.eq_append_cons_of_mem listed
    rw [shape, splitAt?_append absent] at none
    cases none
  · exact splitAt?_absent

-- Only the last run of characters to be dropped goes.
theorem dropEnd_append {drops : Char → Bool} {kept dropped : List Char} (all : ∀ c ∈ dropped, drops c = true)
    (last : ∀ c ∈ kept.getLast?, drops c = false) : dropEnd drops (kept ++ dropped) = kept := by
  have front : (dropped.reverse ++ kept.reverse).dropWhile drops = kept.reverse.dropWhile drops :=
    List.dropWhile_append_of_pos fun c listed => all c (List.mem_reverse.mp listed)
  have stays : kept.reverse.dropWhile drops = kept.reverse := by
    rw [← List.head?_reverse] at last
    cases reversed : kept.reverse with
    | nil => rfl
    | cons c rest => simp [last c (by simp [reversed])]
  rw [dropEnd, List.reverse_append, front, stays, List.reverse_reverse]

theorem dropEnd_split (drops : Char → Bool) (cs : List Char) : ∃ dropped, cs = dropEnd drops cs ++ dropped ∧
    (∀ c ∈ dropped, drops c = true) ∧ ∀ c ∈ (dropEnd drops cs).getLast?, drops c = false := by
  refine ⟨(cs.reverse.takeWhile drops).reverse, ?_, ?_, ?_⟩
  · rw [dropEnd, ← List.reverse_append, List.takeWhile_append_dropWhile, List.reverse_reverse]
  · intro c listed
    exact List.all_eq_true.mp List.all_takeWhile c (List.mem_reverse.mp listed)
  · intro c last
    rw [dropEnd, List.getLast?_reverse] at last
    have stopped := List.head?_dropWhile_not drops cs.reverse
    rw [last] at stopped
    exact stopped

theorem trim_unblank {cs : List Char} (unblank : ∀ c ∈ cs, isBlank c = false) : trim cs = cs := by
  have front : trimStart cs = cs := by
    cases cs with
    | nil => rfl
    | cons c rest => simp [trimStart, unblank c List.mem_cons_self]
  have back : dropEnd isBlank (cs ++ []) = cs := dropEnd_append nofun fun c last => unblank c (List.mem_of_getLast? last)
  rw [trim, front, trimEnd]
  rwa [List.append_nil] at back

-- What numbers are written with.
def Numeral (c : Char) : Prop := c.isDigit = true ∨ c = '-' ∨ c = '.'

theorem digit_bounds {c : Char} (digit : c.isDigit = true) : 48 ≤ c.toNat ∧ c.toNat ≤ 57 := by
  rw [Char.isDigit, Bool.and_eq_true, decide_eq_true_iff, decide_eq_true_iff] at digit
  exact ⟨UInt32.le_iff_toNat_le.mp digit.1, UInt32.le_iff_toNat_le.mp digit.2⟩

theorem Numeral.unblank {c : Char} (numeral : Numeral c) : isBlank c = false := by
  rcases numeral with digit | rfl | rfl
  · obtain ⟨low, high⟩ := digit_bounds digit
    simp [isBlank]
    omega
  · rfl
  · rfl

theorem ofNat_digits {n : Nat} : ∀ c ∈ ofNat n, c.isDigit = true := fun _ listed =>
  Nat.isDigit_of_mem_toDigits (by decide) (by decide) listed

theorem ofNat_ne_nil {n : Nat} : ofNat n ≠ [] := Nat.toDigits_ne_nil

theorem digitsValue_ofNat (n : Nat) : digitsValue (ofNat n) = n := by
  have same : digitsValue (ofNat n) = Nat.ofDigitChars 10 (Nat.toDigits 10 n) 0 := by
    rw [Nat.ofDigitChars_eq_foldl]
    rfl
  rw [same, Nat.ofDigitChars_ten_toDigits]

theorem digits?_ofNat (n : Nat) : digits? (ofNat n) = some n := by
  rw [digits?, if_pos ⟨ofNat_ne_nil, List.all_eq_true.mpr ofNat_digits⟩, digitsValue_ofNat]

-- The first character of a number is a digit, so it is no sign.
theorem ofNat_cons (n : Nat) : ∃ c rest, ofNat n = c :: rest ∧ c.isDigit = true := by
  obtain ⟨c, rest, shape⟩ := List.exists_cons_of_ne_nil (ofNat_ne_nil (n := n))
  exact ⟨c, rest, shape, ofNat_digits c (shape ▸ List.mem_cons_self)⟩

theorem nat?_ofNat (n : Nat) : nat? (ofNat n) = some n := by
  have read := digits?_ofNat n
  obtain ⟨c, rest, shape, digit⟩ := ofNat_cons n
  rw [shape] at read ⊢
  unfold nat?
  split
  · rename_i plus
    obtain ⟨rfl, _⟩ := List.cons.inj plus
    cases digit
  · exact read

theorem natUpTo?_ofNat {n limit : Nat} (small : n ≤ limit) : natUpTo? limit (ofNat n) = some n := by
  rw [natUpTo?, nat?_ofNat]
  simp [small]

theorem natUpTo?_le {n limit : Nat} {cs : List Char} (read : natUpTo? limit cs = some n) : n ≤ limit :=
  of_decide_eq_true (Option.filter_eq_some_iff.mp read).2

theorem int?_ofNat (n : Nat) : int? (ofNat n) = some (n : Int) := by
  have read := nat?_ofNat n
  obtain ⟨c, rest, shape, digit⟩ := ofNat_cons n
  rw [shape] at read ⊢
  unfold int?
  split
  · rename_i minus
    obtain ⟨rfl, _⟩ := List.cons.inj minus
    cases digit
  · rw [read]
    rfl

theorem intIn?_ofNat {n : Nat} {range : Int → Bool} (inside : range n = true) : intIn? range (ofNat n) = some (n : Int) := by
  rw [intIn?, int?_ofNat]
  simp [inside]

theorem int?_ofInt : ∀ n : Int, int? (ofInt n) = some n
  | .ofNat n => int?_ofNat n
  | .negSucc n => by
    rw [ofInt, int?, digits?_ofNat]
    rfl

theorem intIn?_ofInt {n : Int} {range : Int → Bool} (inside : range n = true) : intIn? range (ofInt n) = some n := by
  rw [intIn?, int?_ofInt, Option.filter_some, if_pos inside]

end ToffoliBench.Text

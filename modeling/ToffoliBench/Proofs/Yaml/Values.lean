import Mathlib
import ToffoliBench.Proofs.Text.Marked
import ToffoliBench.Proofs.Yaml.Mapping
import ToffoliBench.Settings.Writing

namespace ToffoliBench.Yaml

open Text

variable {cs : List Char} {n : ℕ} {x : Float} {s : String}

theorem digitsValue_lt (digits : ∀ c ∈ cs, c.isDigit = true) : digitsValue cs < 10 ^ cs.length := by
  induction cs using List.reverseRecOn with
  | nil => exact Nat.one_pos
  | append_singleton cs c ih =>
    obtain ⟨others, last⟩ := List.forall_mem_append.mp digits
    obtain ⟨low, high⟩ := digit_bounds (last c List.mem_cons_self)
    have small := ih others
    have value : digitsValue [c] = c.toNat - 48 := by simp [digitsValue, digitValue]
    rw [Decimal.digitsValue_append, value, List.length_append, List.length_singleton, pow_succ, pow_zero, one_mul, pow_succ]
    omega

-- A number of several digits does not start with a zero.
theorem ofNat_zero {rest : List Char} (shape : ofNat n = '0' :: rest) : rest = [] := by
  have value := digitsValue_ofNat n
  have digits : ∀ c ∈ ofNat n, c.isDigit = true := ofNat_digits
  rw [shape] at digits
  have below := digitsValue_lt (List.forall_mem_cons.mp digits).2
  have same : digitsValue ('0' :: rest) = digitsValue rest := by
    rw [← List.singleton_append, Decimal.digitsValue_append]
    simp [digitsValue, digitValue]
  rw [shape, same] at value
  rw [value] at below
  cases rest with
  | nil => rfl
  | cons c rest =>
    have positive : 0 < n := by
      rw [Nat.pos_iff_ne_zero]
      rintro rfl
      cases shape
    have count : Decimal.digitCount n = rest.length + 2 := by
      rw [Decimal.digitCount]
      exact congrArg List.length shape
    obtain ⟨-, least, -⟩ := Decimal.digits_bounds positive
    rw [count] at least
    rw [List.length_cons] at below
    exact absurd least (Nat.not_le.mpr below)

theorem isPadded_ofNat (n : ℕ) : isPadded (ofNat n) = false := by
  obtain ⟨c, rest, shape, digit⟩ := ofNat_cons n
  have other {d : Char} (wild : d.isDigit = false) : c ≠ d := by
    rintro rfl
    rw [digit] at wild
    cases wild
  have single {rest : List Char} (zero : ofNat n = '0' :: rest) : rest = [] := ofNat_zero zero
  rw [shape] at single ⊢
  unfold isPadded
  dsimp only
  split
  · rename_i zero
    split at zero
    · exact absurd (List.cons.inj ‹_›).1 (other rfl)
    · exact absurd (List.cons.inj ‹_›).1 (other rfl)
    · cases single zero
  · rfl

-- No digit is the mark of a base.
theorem anyNat?_ofNat (n : ℕ) : anyNat? (String.ofList (ofNat n)) = some n := by
  have unpadded := isPadded_ofNat n
  have read := digits?_ofNat n
  have other {d : Char} (wild : d.isDigit = false) : d ∉ ofNat n := by
    intro listed
    rw [ofNat_digits d listed] at wild
    cases wild
  obtain ⟨c, rest, shape, -⟩ := ofNat_cons n
  rw [shape] at unpadded read other
  have unsigned {front d : Char} {tail : List Char} (wild : d.isDigit = false) : c :: rest ≠ front :: d :: tail := fun same =>
    other wild (by rw [same]; exact List.mem_cons_of_mem _ List.mem_cons_self)
  have plus {tail : List Char} : c :: rest ≠ '+' :: tail := fun same => other rfl (by rw [same]; exact List.mem_cons_self)
  unfold anyNat?
  rw [String.toList_ofList, shape]
  dsimp only
  split
  · rename_i based
    split at based
    · exact absurd ‹_› plus
    · exact absurd based (unsigned rfl)
  · rename_i based
    split at based
    · exact absurd ‹_› plus
    · exact absurd based (unsigned rfl)
  · rename_i based
    split at based
    · exact absurd ‹_› plus
    · exact absurd based (unsigned rfl)
  · rw [if_neg (by simp [unpadded])]
    split
    · exact absurd ‹_› plus
    · exact read

theorem nat?_word (small : n ≤ Range.maxWord) : nat? (String.ofList (ofNat n)) = some n := by
  rw [nat?, anyNat?_ofNat, Option.filter_some, if_pos]
  exact decide_eq_true (Nat.lt_succ_of_le small)

theorem isTame_digit {c : Char} (digit : c.isDigit = true) : isTame c = true := by
  simp [isTame, Char.isAlphanum, digit]

theorem number_line (n : ℕ) : OneLine (ofNat n) := by
  refine .of_tame ofNat_ne_nil (fun c listed => isTame_digit (ofNat_digits c listed)) fun dash => ?_
  have digit := ofNat_digits '-' (List.mem_of_head? dash)
  cases digit

theorem fraction_tame (finite : x.isFinite = true) (positive : 0 < x) : ∀ d ∈ (Decimal.marked x).toList, isTame d = true := by
  intro d listed
  rw [Decimal.marked_positive finite positive, String.toList_ofList] at listed
  rcases Decimal.marked_chars _ d listed with (digit | rfl) | rfl | rfl
  · exact isTame_digit digit
  · rfl
  · rfl
  · rfl

theorem fraction_line (finite : x.isFinite = true) (positive : 0 < x) : OneLine (Decimal.marked x).toList := by
  have tame := fraction_tame finite positive
  obtain ⟨c, rest, shape, digit⟩ := Decimal.marked_digit (Decimal.shortest x.abs)
  rw [Decimal.marked_positive finite positive, String.toList_ofList, shape] at tame ⊢
  refine .of_tame (List.cons_ne_nil c rest) tame fun dash => ?_
  obtain rfl := Option.some.inj dash
  cases digit

def textStyle (s : String) : Style :=
  if s.toList.contains '\n' then (if literalAllowed s.toList then .literal else .quoted)
  else if !isAmbiguous s && plainAllowed s.toList then .plain
  else .quoted

-- A text behind its colon, and the end of its last line.
def textWritten (s : String) : List Char :=
  ' ' :: (textChars s ++ if (textChars s).getLast?.any isBreak then [] else ['\n'])

theorem literalLines_last {deep : Bool} (some_ : cs ≠ []) : (literalLines deep cs).getLast? = cs.getLast? := by
  induction cs generalizing deep with
  | nil => exact absurd rfl some_
  | cons c cs ih =>
    cases cs with
    | nil =>
      rw [literalLines]
      split
      · rfl
      · split <;> rfl
    | cons d cs =>
      have others {deep : Bool} : literalLines deep (d :: cs) ≠ [] := by
        have long := literalLines_length deep (d :: cs)
        rintro none
        rw [none] at long
        cases long
      have last {deep : Bool} (front : List Char) : (front ++ literalLines deep (d :: cs)).getLast? = (c :: d :: cs).getLast? := by
        rw [List.getLast?_append_of_ne_nil _ others, ih (List.cons_ne_nil d cs), List.getLast?_cons_cons]
      rw [literalLines]
      split
      · exact last [c]
      · split
        · exact last [' ', ' ', c]
        · exact last [c]

theorem literal_closed (some_ : cs ≠ []) : literal cs ++ (if (literal cs).getLast?.any isBreak then [] else ['\n']) = blockChars cs := by
  have long := literalLines_length true cs
  have lines : literalLines true cs ≠ [] := by
    rintro none
    rw [none] at long
    exact some_ (List.length_eq_zero_iff.mp (Nat.le_zero.mp long))
  have last : (literal cs).getLast? = cs.getLast? := by
    rw [literal, List.append_cons, List.getLast?_append_of_ne_nil _ lines, literalLines_last some_]
  rw [last, blockChars, closedLines, literal]
  split
  · simp
  · rw [literalLines_close]
    simp

-- What ends on its own line is closed behind it.
theorem line_closed (last : ∀ d ∈ cs.getLast?, isBreak d = false) : cs ++ (if cs.getLast?.any isBreak then [] else ['\n']) = cs ++ ['\n'] := by
  have open_ : cs.getLast?.any isBreak = false := by
    cases final : cs.getLast? with
    | none => rfl
    | some d => exact last d final
  rw [open_, if_neg Bool.false_ne_true]

theorem inDouble_last : ∀ d ∈ (inDouble cs).getLast?, isBreak d = false := by
  intro d final
  rw [inDouble, List.getLast?_concat] at final
  obtain rfl := Option.some.inj final
  rfl

theorem inSingle_last : ∀ d ∈ (inSingle cs).getLast?, isBreak d = false := by
  intro d final
  rw [inSingle, List.getLast?_concat] at final
  obtain rfl := Option.some.inj final
  rfl

theorem text_stands (s : String) : Stands (.scalar (textStyle s) s) (textWritten s) := by
  have double := Stands.double s.toList
  rw [String.ofList_toList] at double
  unfold textWritten textStyle textChars
  dsimp only
  by_cases lines : s.toList.contains '\n' = true
  · rw [if_pos lines, if_pos lines]
    have listed := List.contains_iff_mem.mp lines
    by_cases allowed : literalAllowed s.toList = true
    · have block := Stands.literal allowed (List.ne_nil_of_mem listed)
      rw [String.ofList_toList] at block
      rw [if_pos allowed, if_pos allowed, literal_closed (List.ne_nil_of_mem listed)]
      exact block
    · rw [if_neg allowed, if_neg allowed, line_closed inDouble_last]
      exact double
  · rw [if_neg lines, if_neg lines]
    have unlisted : '\n' ∉ s.toList := fun listed => lines (List.contains_iff_mem.mpr listed)
    by_cases plain : (!isAmbiguous s && plainAllowed s.toList) = true
    · rw [if_pos plain, if_pos plain]
      rw [Bool.and_eq_true, Bool.not_eq_true'] at plain
      obtain ⟨clear, allowed⟩ := plain
      have some_ : s.toList ≠ [] := by
        intro none
        rw [String.toList_eq_nil_iff] at none
        subst none
        cases clear
      have line := OneLine.of_allowed some_ allowed
      have written := Stands.plain line fun d listed => isAllowed_shown (plainAllowed_shown allowed d listed)
      rw [String.ofList_toList] at written
      rw [line_closed fun d final => (line.inside d (List.mem_of_getLast? final)).1]
      exact written
    · rw [if_neg plain, if_neg plain]
      by_cases allowed : singleAllowed s.toList = true
      · have single := Stands.single allowed unlisted
        rw [String.ofList_toList] at single
        rw [if_pos allowed, line_closed inSingle_last]
        exact single
      · rw [if_neg allowed, line_closed inDouble_last]
        exact double

end ToffoliBench.Yaml

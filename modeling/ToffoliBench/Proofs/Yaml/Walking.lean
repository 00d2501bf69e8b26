import Mathlib.Data.List.Basic
import ToffoliBench.Yaml.Reading

namespace ToffoliBench.Yaml

variable {α β : Type} {c c' : Cursor} {cs more word breaks : List Char} {l k n fuel : Nat}
  {a : List (String × Node)} {h : List (String × String)}

@[simp] theorem bind_apply (first : Reader α) (next : α → Reader β) (c : Cursor) :
    (first >>= next) c = (first c).bind fun done => next done.1 done.2 := rfl

@[simp] theorem pure_apply (a : α) (c : Cursor) : (pure a : Reader α) c = some (a, c) := rfl

@[simp] theorem get_apply (c : Cursor) : (get : Reader Cursor) c = some (c, c) := rfl

@[simp] theorem set_apply (c c' : Cursor) : (set c' : Reader Unit) c = some ((), c') := rfl

@[simp] theorem ahead_apply (c : Cursor) : ahead c = some (c.rest, c) := rfl

@[simp] theorem move_apply (n : Nat) (c : Cursor) : move n c = some ((), c.steps n) := rfl

@[simp] theorem steps_zero (c : Cursor) : c.steps 0 = c := rfl

theorem step_inside {d : Char} (inside : isBreak d = false) :
    Cursor.step ⟨d :: more, l, k, a, h⟩ = ⟨more, l, k + 1, a, h⟩ := by
  simp [Cursor.step, inside]

theorem step_break {d : Char} (ends : isBreak d = true) : Cursor.step ⟨d :: more, l, k, a, h⟩ = ⟨more, l + 1, 0, a, h⟩ := by
  simp [Cursor.step, ends]

theorem steps_add (c : Cursor) (m n : Nat) : c.steps (m + n) = (c.steps m).steps n := by
  induction m generalizing c with
  | zero => rw [Nat.zero_add, steps_zero]
  | succ m ih => rw [Nat.succ_add, Cursor.steps, ih, Cursor.steps]

theorem steps_word (inside : ∀ d ∈ word, isBreak d = false) :
    Cursor.steps ⟨word ++ more, l, k, a, h⟩ word.length = ⟨more, l, k + word.length, a, h⟩ := by
  induction word generalizing k with
  | nil => rfl
  | cons d word ih =>
    obtain ⟨first, others⟩ := List.forall_mem_cons.mp inside
    rw [List.length_cons, Cursor.steps, List.cons_append, step_inside first, ih others]
    congr 1
    omega

theorem steps_breaks (ends : ∀ d ∈ breaks, isBreak d = true) :
    ∃ l' k', Cursor.steps ⟨breaks ++ more, l, k, a, h⟩ breaks.length = ⟨more, l', k', a, h⟩ ∧ (k' = 0 ∨ breaks = []) := by
  induction breaks generalizing l k with
  | nil => exact ⟨l, k, rfl, Or.inr rfl⟩
  | cons d breaks ih =>
    obtain ⟨first, others⟩ := List.forall_mem_cons.mp ends
    obtain ⟨l', k', moved, start⟩ := ih (l := l + 1) (k := 0) others
    rw [List.length_cons, Cursor.steps, List.cons_append, step_break first]
    cases breaks with
    | nil => exact ⟨l + 1, 0, rfl, Or.inl rfl⟩
    | cons e breaks => exact ⟨l', k', moved, Or.inl (start.resolve_right (List.cons_ne_nil e breaks))⟩

theorem takeWhile_front {p : Char → Bool} (all : ∀ d ∈ word, p d = true) (stops : ∀ d ∈ more.head?, p d = false) :
    (word ++ more).takeWhile p = word := by
  rw [List.takeWhile_append_of_pos all]
  cases more with
  | nil => simp
  | cons d more => simp [stops d rfl]

theorem leading_run (p : Char → Bool) (cs : List Char) :
    ∃ front tail, cs = front ++ tail ∧ (∀ d ∈ front, p d = true) ∧ ∀ d ∈ tail.head?, p d = false := by
  refine ⟨cs.takeWhile p, cs.dropWhile p, List.takeWhile_append_dropWhile.symm, List.all_eq_true.mp List.all_takeWhile, fun d first => ?_⟩
  have stopped := List.head?_dropWhile_not p cs
  rw [first] at stopped
  exact stopped

theorem first_run {p : Char → Bool} (some_ : cs ≠ []) (starts : ∀ d ∈ cs.head?, p d = true) :
    ∃ run rest, cs = run ++ rest ∧ run ≠ [] ∧ (∀ d ∈ run, p d = true) ∧ ∀ d ∈ rest.head?, p d = false := by
  obtain ⟨run, rest, rfl, inside, stop⟩ := leading_run p cs
  refine ⟨run, rest, rfl, ?_, inside, stop⟩
  rintro rfl
  obtain ⟨d, others, rfl⟩ := List.exists_cons_of_ne_nil some_
  have ends := stop d rfl
  rw [starts d rfl] at ends
  cases ends

theorem skipWhile_front {p : Char → Bool} (all : ∀ d ∈ word, p d = true) (inside : ∀ d ∈ word, isBreak d = false)
    (stops : ∀ d ∈ more.head?, p d = false) :
    skipWhile p ⟨word ++ more, l, k, a, h⟩ = some (word.length, ⟨more, l, k + word.length, a, h⟩) := by
  simp only [skipWhile, bind_apply, ahead_apply, Option.bind_some, move_apply, pure_apply, takeWhile_front all stops, steps_word inside]

theorem skipWhile_none {p : Char → Bool} (stops : ∀ d ∈ more.head?, p d = false) :
    skipWhile p ⟨more, l, k, a, h⟩ = some (0, ⟨more, l, k, a, h⟩) := by
  have none : skipWhile p ⟨[] ++ more, l, k, a, h⟩ = some (0, ⟨more, l, k, a, h⟩) := skipWhile_front nofun nofun stops
  exact none

theorem isTabOrSpace_iff {d : Char} : isTabOrSpace d = true ↔ d = ' ' ∨ d = '\t' := by
  simp [isTabOrSpace]

theorem lineEnds_break : lineEnds ('\n' :: more) = true := rfl

-- Something to read stands ahead, or the text is over.
def Content (more : List Char) : Prop :=
  ∀ d ∈ more.head?, isTabOrSpace d = false ∧ isBreak d = false ∧ d ≠ '#' ∧ isOrderMark d = false

theorem Content.solid (content : Content more) : ∀ d ∈ more.head?, (isTabOrSpace d || isBreak d) = false := by
  intro d first
  obtain ⟨blank, ends, -⟩ := content d first
  rw [blank, ends, Bool.or_self]

theorem toContent_stays {inFlow tabs : Bool} (content : Content more) :
    toContent inFlow tabs (fuel + 1) ⟨more, l, k, a, h⟩ = some ((), ⟨more, l, k, a, h⟩) := by
  unfold toContent
  cases more with
  | nil => rfl
  | cons d more =>
    obtain ⟨blank, ends, comment, mark⟩ := content d rfl
    have space : d ≠ ' ' ∧ d ≠ '\t' := by
      rw [← not_or, ← isTabOrSpace_iff, blank]
      exact Bool.false_ne_true
    simp only [bind_apply, get_apply, Option.bind_some]
    rw [if_neg (by simp [space, mark]), if_neg comment, if_neg (by simp [ends])]
    rfl

theorem nextContent_stays {inFlow tabs : Bool} (content : Content more) :
    nextContent inFlow tabs ⟨more, l, k, a, h⟩ = some ((), ⟨more, l, k, a, h⟩) := toContent_stays content

theorem nextContent_break {inFlow tabs : Bool} (content : Content more) :
    nextContent inFlow tabs ⟨'\n' :: more, l, k, a, h⟩ = some ((), ⟨more, l + 1, 0, a, h⟩) := by
  simp only [nextContent, bind_apply, ahead_apply, Option.bind_some, List.length_cons]
  unfold toContent
  simp only [bind_apply, get_apply, Option.bind_some]
  rw [if_neg (by simp [isOrderMark]), if_neg (by decide), if_pos (by decide)]
  exact toContent_stays content

-- The next entry stands ahead, or there is none.
def Fresh (more : List Char) : Prop := ∀ d ∈ more.head?, d.isLower = true

theorem code_bounds {d : Char} {low high : UInt32} (between : (decide (d.val ≥ low) && decide (d.val ≤ high)) = true) :
    low.toNat ≤ d.toNat ∧ d.toNat ≤ high.toNat := by
  rw [Bool.and_eq_true, decide_eq_true_iff, decide_eq_true_iff] at between
  exact ⟨UInt32.le_iff_toNat_le.mp between.1, UInt32.le_iff_toNat_le.mp between.2⟩

theorem lower_bounds {d : Char} (lower : d.isLower = true) : 97 ≤ d.toNat ∧ d.toNat ≤ 122 := code_bounds lower

theorem ne_of_code {d e : Char} (other : d.toNat ≠ e.toNat) : d ≠ e := fun same => other (congrArg Char.toNat same)

theorem Fresh.content (fresh : Fresh more) : Content more := by
  intro d first
  obtain ⟨low, high⟩ := lower_bounds (fresh d first)
  have other {e : Char} (outside : e.toNat < 97) : d ≠ e := ne_of_code (by omega)
  refine ⟨?_, ?_, other (by decide), ?_⟩
  · simp [isTabOrSpace, other (e := ' ') (by decide), other (e := '\t') (by decide)]
  · simp [isBreak, other (e := '\n') (by decide), other (e := '\r') (by decide)]
    omega
  · simp [isOrderMark]
    omega

-- No document ends before an entry.
theorem Fresh.not_atBound (fresh : Fresh more) : Cursor.atBound ⟨more, l, k, a, h⟩ = false := by
  cases more with
  | nil => simp [Cursor.atBound]
  | cons d more =>
    obtain ⟨low, high⟩ := lower_bounds (fresh d rfl)
    have other {e : Char} (outside : e.toNat < 97) : d ≠ e := ne_of_code (by omega)
    rw [Cursor.atBound]
    split
    · rename_i dashes
      exact absurd (List.cons.inj dashes).1 (other (by decide))
    · rename_i dots
      exact absurd (List.cons.inj dots).1 (other (by decide))
    · exact Bool.and_false _

-- Nothing is declared before a node that starts with neither mark.
theorem properties_none {inFlow : Bool} {p : Properties} (anchor : more.head? ≠ some '&') (tag : more.head? ≠ some '!') :
    properties inFlow p fuel ⟨more, l, k, a, h⟩ = some (p, ⟨more, l, k, a, h⟩) := by
  cases fuel with
  | zero => rfl
  | succ fuel =>
    unfold properties
    simp only [bind_apply, ahead_apply, Option.bind_some]
    split
    · exact absurd rfl anchor
    · exact absurd rfl tag
    · rfl

end ToffoliBench.Yaml

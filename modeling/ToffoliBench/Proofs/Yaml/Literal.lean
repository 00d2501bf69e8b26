import ToffoliBench.Proofs.Text.Numerals
import ToffoliBench.Proofs.Yaml.Plain

namespace ToffoliBench.Yaml

variable {cs more text body tail line breaks : List Char} {l k n fuel deepest : Nat} {pending : Pending} {afterBlank : Bool}
  {a : List (String × Node)} {h : List (String × String)}

theorem literalLines_line (inside : ∀ d ∈ line, isBreak d = false) : literalLines false (line ++ cs) = line ++ literalLines false cs := by
  induction line with
  | nil => rfl
  | cons d line ih =>
    obtain ⟨first, others⟩ := List.forall_mem_cons.mp inside
    rw [List.cons_append, literalLines, if_neg (by simp [first]), if_neg Bool.false_ne_true, ih others, List.cons_append]

theorem literalLines_break {d : Char} {deep : Bool} (ends : isBreak d = true) : literalLines deep (d :: cs) = d :: literalLines true cs := by
  rw [literalLines, if_pos ends]

theorem literalLines_start (some_ : cs ≠ []) (first : ∀ d ∈ cs.head?, isBreak d = false) :
    literalLines true cs = ' ' :: ' ' :: literalLines false cs := by
  obtain ⟨d, rest, rfl⟩ := List.exists_cons_of_ne_nil some_
  have inside := first d rfl
  simp [literalLines, inside]

theorem literalLines_close {deep : Bool} : literalLines deep (cs ++ ['\n']) = literalLines deep cs ++ ['\n'] := by
  induction cs generalizing deep with
  | nil => exact literalLines_break rfl
  | cons d cs ih =>
    rw [List.cons_append, literalLines, literalLines]
    split
    · rw [ih, List.cons_append]
    · split
      · rw [ih]
        rfl
      · rw [ih, List.cons_append]

theorem literalLines_length (deep : Bool) (cs : List Char) : cs.length ≤ (literalLines deep cs).length := by
  induction cs generalizing deep with
  | nil => exact Nat.le_refl 0
  | cons d cs ih =>
    have same := ih true
    have other := ih false
    rw [literalLines]
    split
    · simpa using same
    · split
      · simp only [List.length_cons]
        omega
      · simpa using other

-- Lines go on at the column of the block, and end at the start of what follows it.
def resumed (tail : List Char) : Nat := if tail = [] then 0 else 2

theorem leadingBreaks_content {limit : Option Nat} (content : Content more) (read : List Char) :
    leadingBreaks limit read deepest (fuel + 1) ⟨more, l, k, a, h⟩ = some ((read, max deepest k), ⟨more, l, k, a, h⟩) := by
  have blanks : ([] ++ more).takeWhile (· == ' ') = [] := takeWhile_front nofun fun d first => by
    have blank := (content d first).1
    rw [isTabOrSpace, Bool.or_eq_false_iff] at blank
    exact blank.1
  have still : limit.elim 0 (min · 0) = 0 := by cases limit <;> simp
  rw [List.nil_append] at blanks
  rw [leadingBreaks]
  simp only [bind_apply, ahead_apply, Option.bind_some, move_apply, get_apply, blanks, List.length_nil, still, steps_zero]
  cases more with
  | nil => rfl
  | cons d more =>
    obtain ⟨blank, ends, -⟩ := content d rfl
    have tab : d ≠ '\t' := by
      rintro rfl
      cases blank
    simp only
    rw [if_neg (fun found => tab found.1), if_neg (by simp [ends])]
    rfl

-- Where no depth is known, the line shows it by the first character that is no blank.
theorem leadingBreaks_line {d : Char} {limit : Option Nat} (depth : limit = some 2 ∨ limit = none ∧ d ≠ ' ') (inside : isBreak d = false)
    (tab : d ≠ '\t') (read : List Char) :
    leadingBreaks limit read deepest (fuel + 1) ⟨' ' :: ' ' :: d :: more, l, 0, a, h⟩ = some ((read, max deepest 2), ⟨d :: more, l, 2, a, h⟩) := by
  have count : limit.elim ((' ' :: ' ' :: d :: more).takeWhile (· == ' ')).length
      (min · ((' ' :: ' ' :: d :: more).takeWhile (· == ' ')).length) = 2 := by
    rcases depth with rfl | ⟨rfl, space⟩
    · simp
    · simp [space]
  have moved : Cursor.steps ⟨' ' :: ' ' :: d :: more, l, 0, a, h⟩ 2 = ⟨d :: more, l, 2, a, h⟩ := rfl
  rw [leadingBreaks]
  simp only [bind_apply, ahead_apply, Option.bind_some, move_apply, get_apply, count, moved]
  rw [if_neg (fun found => tab found.1), if_neg (by simp [inside])]
  rfl

theorem leadingBreaks_break {d : Char} {limit : Option Nat} (ends : isBreak d = true) (read : List Char) :
    leadingBreaks limit read deepest (fuel + 1) ⟨d :: more, l, 0, a, h⟩ =
      leadingBreaks limit (read ++ [d]) (max deepest 0) fuel ⟨more, l + 1, 0, a, h⟩ := by
  have space : d ≠ ' ' := by
    rintro rfl
    cases ends
  have tab : d ≠ '\t' := by
    rintro rfl
    cases ends
  have still : limit.elim ((d :: more).takeWhile (· == ' ')).length (min · ((d :: more).takeWhile (· == ' ')).length) = 0 := by
    cases limit <;> simp [space]
  rw [leadingBreaks]
  simp only [bind_apply, ahead_apply, Option.bind_some, move_apply, get_apply, still, steps_zero]
  rw [if_neg (fun found => tab found.1), if_pos ends]
  simp only [bind_apply, move_apply, Option.bind_some, Cursor.steps, step_break ends]

-- The empty lines before a line, or at the end.
theorem leadingBreaks_written (long : breaks.length < fuel) (ends : ∀ d ∈ breaks, isBreak d = true) (first : ∀ d ∈ tail.head?, isBreak d = false)
    (tabs : '\t' ∉ tail) (content : Content more) (read : List Char) :
    ∃ l' deepest', leadingBreaks (some 2) read deepest fuel ⟨literalLines true (breaks ++ tail) ++ more, l, 0, a, h⟩ =
      some ((read ++ breaks, deepest'), ⟨literalLines false tail ++ more, l', resumed tail, a, h⟩) := by
  induction breaks generalizing l read deepest fuel with
  | nil =>
    obtain ⟨fuel, rfl⟩ := Nat.exists_eq_add_one_of_ne_zero (Nat.ne_zero_of_lt long)
    rw [List.nil_append, List.append_nil]
    cases tail with
    | nil => exact ⟨l, _, leadingBreaks_content content read⟩
    | cons d tail =>
      have inside := first d rfl
      have tab : d ≠ '\t' := fun same => tabs (same ▸ List.mem_cons_self)
      have line : literalLines false (d :: tail) = d :: literalLines false tail := by simp [literalLines, inside]
      rw [literalLines_start (List.cons_ne_nil d tail) first, line]
      exact ⟨l, _, leadingBreaks_line (Or.inl rfl) inside tab read⟩
  | cons d breaks ih =>
    obtain ⟨fuel, rfl⟩ := Nat.exists_eq_add_one_of_ne_zero (Nat.ne_zero_of_lt long)
    obtain ⟨now, others⟩ := List.forall_mem_cons.mp ends
    have whole : read ++ d :: breaks = read ++ [d] ++ breaks := by simp
    rw [List.cons_append, literalLines_break now, List.cons_append, leadingBreaks_break now, whole]
    exact ih (Nat.lt_of_succ_lt_succ long) others (read ++ [d])

-- A line goes over into the text, with the breaks before it; the empty lines after it wait.
theorem blockLines_line {e : Char} (inside : ∀ d ∈ line, isBreak d = false) (closed : isBreak e = true)
    (ends : ∀ d ∈ breaks, isBreak d = true) (first : ∀ d ∈ tail.head?, isBreak d = false) (tabs : '\t' ∉ tail) (content : Content more) :
    ∃ l' afterBlank', blockLines false 2 text pending afterBlank (fuel + 1) ⟨line ++ e :: (literalLines true (breaks ++ tail) ++ more), l, 2, a, h⟩ =
      blockLines false 2 (text ++ pending.all ++ line) ⟨[e], breaks⟩ afterBlank' fuel ⟨literalLines false tail ++ more, l', resumed tail, a, h⟩ := by
  have front : (line ++ e :: (literalLines true (breaks ++ tail) ++ more)).takeWhile (fun d => !isBreak d) = line :=
    takeWhile_front (fun d listed => by simp [inside d listed]) (by simp [closed])
  have open_ : Cursor.atEnd ⟨line ++ e :: (literalLines true (breaks ++ tail) ++ more), l, 2, a, h⟩ = false := by
    simp [Cursor.atEnd, Cursor.atBound]
  have long : breaks.length < (literalLines true (breaks ++ tail) ++ more).length + 1 := by
    have shorter := literalLines_length true (breaks ++ tail)
    rw [List.length_append] at shorter ⊢
    omega
  obtain ⟨l', deepest', read⟩ : ∃ l' deepest', leadingBreaks (some 2) [] 0 _ ⟨literalLines true (breaks ++ tail) ++ more, l + 1, 0, a, h⟩ =
    some ((breaks, deepest'), ⟨literalLines false tail ++ more, l', resumed tail, a, h⟩) := leadingBreaks_written long ends first tabs content []
  refine ⟨l', (line ++ e :: (literalLines true (breaks ++ tail) ++ more)).head?.any isTabOrSpace, ?_⟩
  rw [blockLines]
  simp only [bind_apply, get_apply, Option.bind_some]
  rw [if_neg (by simp [open_])]
  simp only [bind_apply, move_apply, Option.bind_some, ahead_apply, front, steps_word inside, step_break closed, Cursor.steps,
    Bool.false_eq_true, false_and, if_false]
  rw [read]
  rfl

-- What a block has read: the text up to its last line, and the breaks behind it.
structure Finished (text : List Char) (pending : Pending) (whole : List Char) : Prop where
  whole : text ++ pending.all = whole
  last : ∀ d ∈ text.getLast?, isBreak d = false
  ends : ∀ d ∈ pending.all, isBreak d = true
  one : text ≠ [] → pending.first.length = 1

theorem Finished.longer {e : Char} (before : Finished text pending cs) (some_ : line ≠ [])
    (inside : ∀ d ∈ line, isBreak d = false) (close : isBreak e = true) (ends : ∀ d ∈ breaks, isBreak d = true) :
    Finished (text ++ pending.all ++ line) ⟨[e], breaks⟩ (cs ++ (line ++ e :: breaks)) := by
  refine ⟨?_, ?_, List.forall_mem_cons.mpr ⟨close, ends⟩, fun _ => rfl⟩
  · rw [before.whole, List.append_assoc]
    rfl
  · rw [List.getLast?_append_of_ne_nil _ some_]
    exact fun f final => inside f (List.mem_of_getLast? final)

-- The first line of a text whose lines are all closed, its break, and the empty lines behind it.
theorem first_line (some_ : tail ≠ []) (first : ∀ d ∈ tail.head?, isBreak d = false) (closed : ∀ d ∈ tail.getLast?, isBreak d = true) :
    ∃ line e breaks rest, tail = line ++ e :: (breaks ++ rest) ∧ line ≠ [] ∧ (∀ d ∈ line, isBreak d = false) ∧ isBreak e = true ∧
      (∀ d ∈ breaks, isBreak d = true) ∧ (∀ d ∈ rest.head?, isBreak d = false) ∧ ∀ d ∈ rest.getLast?, isBreak d = true := by
  have starts : ∀ d ∈ tail.head?, (!isBreak d) = true := fun d front => by rw [first d front]; rfl
  obtain ⟨line, after, shape, line_, inside, stop⟩ := first_run some_ starts
  have inside : ∀ d ∈ line, isBreak d = false := by simpa using inside
  cases after with
  | nil =>
    rw [List.append_nil] at shape
    obtain ⟨e, final⟩ := Option.isSome_iff_exists.mp (List.getLast?_isSome.mpr line_)
    have ends := closed e (by rw [shape]; exact final)
    rw [inside e (List.mem_of_getLast? final)] at ends
    cases ends
  | cons e after =>
    obtain ⟨breaks, rest, rfl, ends, next⟩ := leading_run isBreak after
    refine ⟨line, e, breaks, rest, shape, line_, inside, by simpa using stop e rfl, ends, next, fun f final => ?_⟩
    obtain ⟨front, rfl⟩ := List.getLast?_eq_some_iff.mp final
    have whole : tail = line ++ e :: (breaks ++ front) ++ [f] := by
      rw [shape]
      simp
    exact closed f (by rw [whole, List.getLast?_concat]; rfl)

theorem blockLines_written (afterBlank : Bool) (long : tail.length < fuel) (first : ∀ d ∈ tail.head?, isBreak d = false)
    (closed : ∀ d ∈ tail.getLast?, isBreak d = true) (tabs : '\t' ∉ tail) (content : Content more) (before : Finished text pending cs) :
    ∃ text' pending' l', blockLines false 2 text pending afterBlank fuel ⟨literalLines false tail ++ more, l, resumed tail, a, h⟩ =
      some ((text', pending'), ⟨more, l', 0, a, h⟩) ∧ Finished text' pending' (cs ++ tail) := by
  induction fuel generalizing text pending afterBlank tail l cs with
  | zero => exact absurd long (Nat.not_lt_zero _)
  | succ fuel ih =>
    by_cases none : tail = []
    · subst none
      refine ⟨text, pending, l, ?_, by rwa [List.append_nil]⟩
      rw [blockLines]
      simp only [bind_apply, get_apply, Option.bind_some]
      rw [if_pos (Or.inl (by decide))]
      rfl
    · obtain ⟨line, e, breaks, rest, rfl, some_, inside, close, ends, next, closed'⟩ := first_line none first closed
      have written : literalLines false (line ++ e :: (breaks ++ rest)) ++ more = line ++ e :: (literalLines true (breaks ++ rest) ++ more) := by
        rw [literalLines_line inside, literalLines_break close, List.append_assoc, List.cons_append]
      have start : resumed (line ++ e :: (breaks ++ rest)) = 2 := by
        obtain ⟨d, others, rfl⟩ := List.exists_cons_of_ne_nil some_
        rfl
      have tabs' : '\t' ∉ rest := fun listed => tabs (by simp [listed])
      have shorter : rest.length < fuel := by
        simp only [List.length_append, List.length_cons] at long
        omega
      have whole : cs ++ (line ++ e :: (breaks ++ rest)) = cs ++ (line ++ e :: breaks) ++ rest := by simp
      obtain ⟨l', blank, step⟩ : ∃ l' blank, blockLines false 2 text pending afterBlank (fuel + 1)
          ⟨line ++ e :: (literalLines true (breaks ++ rest) ++ more), l, 2, a, h⟩ =
            blockLines false 2 (text ++ pending.all ++ line) ⟨[e], breaks⟩ blank fuel ⟨literalLines false rest ++ more, l', resumed rest, a, h⟩ :=
        blockLines_line inside close ends next tabs' content
      rw [written, start, step, whole]
      exact ih blank shorter next closed' tabs' (before.longer some_ inside close ends)

def Chomp.mark : Chomp → List Char
  | .clip => []
  | .strip => ['-']
  | .keep => ['+']

-- The lines of a block are closed, whether the text ends with a break or not.
def closedLines (cs : List Char) : List Char := if cs.getLast?.any isBreak then cs else cs ++ ['\n']

theorem closedLines_last : ∀ d ∈ (closedLines cs).getLast?, isBreak d = true := by
  intro d final
  unfold closedLines at final
  split at final
  · rename_i ends
    rw [final] at ends
    exact ends
  · rw [List.getLast?_concat] at final
    obtain rfl := Option.some.inj final
    rfl

-- The last line is where the breaks at the end begin.
theorem Finished.parts {front : List Char} (finished : Finished text pending (front ++ breaks)) (ends : ∀ d ∈ breaks, isBreak d = true)
    (last : ∀ d ∈ front.getLast?, isBreak d = false) : text = front ∧ pending.all = breaks := by
  have same : text = front := by
    rw [← Text.dropEnd_append finished.ends finished.last, finished.whole, Text.dropEnd_append ends last]
  exact ⟨same, List.append_cancel_left (same ▸ finished.whole)⟩

theorem chompMark_concat (front : List Char) (c : Char) : chompMark (front ++ [c]) =
    if !isBreak c then ['-'] else if front.getLast?.all isBreak then ['+'] else [] := by
  rw [chompMark, List.reverse_append, List.reverse_singleton, List.singleton_append]
  simp only [List.head?_reverse]

-- The mark in front of a block says which of the breaks behind its last line belong to the text.
theorem chompMark_kept (cs : List Char) : ∃ chomp, chompMark cs = chomp.mark ∧
    ∀ text pending, Finished text pending (closedLines cs) → text ++ pending.kept chomp = cs := by
  have newline : ∀ d ∈ ['\n'], isBreak d = true := List.forall_mem_singleton.mpr rfl
  rcases List.eq_nil_or_concat' cs with rfl | ⟨front, c, rfl⟩
  · refine ⟨.strip, rfl, fun text pending finished => ?_⟩
    have none : Finished text pending ([] ++ ['\n']) := finished
    rw [(none.parts newline nofun).1]
    rfl
  · rw [chompMark_concat, closedLines, List.getLast?_concat]
    cases ends : isBreak c with
    | false =>
      refine ⟨.strip, rfl, fun text pending finished => ?_⟩
      rw [if_neg (by simp [ends])] at finished
      obtain ⟨rfl, -⟩ := finished.parts newline fun d final => by
        rw [List.getLast?_concat] at final
        obtain rfl := Option.some.inj final
        exact ends
      exact List.append_nil _
    | true =>
      have closed : Option.any isBreak (some c) = true := ends
      rw [Bool.not_true, if_neg Bool.false_ne_true, if_pos closed]
      cases all : front.getLast?.all isBreak with
      | true => exact ⟨.keep, rfl, fun text pending finished => finished.whole⟩
      | false =>
        refine ⟨.clip, rfl, fun text pending finished => ?_⟩
        obtain ⟨d, final⟩ : ∃ d, front.getLast? = some d := Option.ne_none_iff_exists'.mp fun none => by simp [none] at all
        have inside : isBreak d = false := by rwa [final] at all
        obtain ⟨rfl, only⟩ := finished.parts (List.forall_mem_singleton.mpr ends) fun e same => by
          rw [final] at same
          obtain rfl := Option.some.inj same
          exact inside
        obtain ⟨e, one⟩ := List.length_eq_one_iff.mp (finished.one fun none => by simp [none] at final)
        rw [Pending.all, one, List.singleton_append] at only
        rw [Pending.kept, one, (List.cons.inj only).1]

theorem blockHeader_written (deep : Bool) (chomp : Chomp) : blockHeader {} 3
    ⟨(if deep then ['2'] else []) ++ chomp.mark ++ '\n' :: more, l, k, a, h⟩ =
      some (⟨chomp, if deep then some 2 else none⟩, ⟨'\n' :: more, l, k + ((if deep then ['2'] else []) ++ chomp.mark).length, a, h⟩) := by
  cases deep <;> cases chomp <;> rfl

theorem closedLines_cons (d : Char) (cs : List Char) : ∃ rest, closedLines (d :: cs) = d :: rest := by
  unfold closedLines
  split
  · exact ⟨cs, rfl⟩
  · exact ⟨cs ++ ['\n'], rfl⟩

theorem closedLines_tabs (tabs : '\t' ∉ cs) : '\t' ∉ closedLines cs := by
  unfold closedLines
  split
  · exact tabs
  · simp [tabs]

-- The first line of a block shows how deep it is, or the hint before it says so.
theorem leadingBreaks_first {deep : Bool} (long : breaks.length < fuel) (ends : ∀ d ∈ breaks, isBreak d = true)
    (first : ∀ d ∈ tail.head?, isBreak d = false) (tabs : '\t' ∉ tail) (content : Content more)
    (shallow : deep = false → breaks = [] ∧ ∃ d rest, tail = d :: rest ∧ d ≠ ' ') :
    ∃ l' deepest', leadingBreaks (if deep then some 2 else none) [] 0 fuel ⟨literalLines true (breaks ++ tail) ++ more, l, 0, a, h⟩ =
        some ((breaks, deepest'), ⟨literalLines false tail ++ more, l', resumed tail, a, h⟩) ∧
      (if deep then some 2 else none).getD (max deepest' (max (0 + 1 : Int) 1).toNat) = 2 := by
  cases deep with
  | true =>
    obtain ⟨l', deepest', read⟩ : ∃ l' deepest', leadingBreaks (some 2) [] 0 fuel ⟨literalLines true (breaks ++ tail) ++ more, l, 0, a, h⟩ =
      some ((breaks, deepest'), ⟨literalLines false tail ++ more, l', resumed tail, a, h⟩) := leadingBreaks_written long ends first tabs content []
    exact ⟨l', deepest', read, rfl⟩
  | false =>
    obtain ⟨rfl, d, rest, rfl, space⟩ := shallow rfl
    obtain ⟨fuel, rfl⟩ := Nat.exists_eq_add_one_of_ne_zero (Nat.ne_zero_of_lt long)
    have inside := first d rfl
    have tab : d ≠ '\t' := fun same => tabs (same ▸ List.mem_cons_self)
    have line : literalLines false (d :: rest) = d :: literalLines false rest := by simp [literalLines, inside]
    rw [List.nil_append, literalLines_start (List.cons_ne_nil d rest) first, line]
    exact ⟨l, _, leadingBreaks_line (Or.inr ⟨rfl, space⟩) inside tab [], rfl⟩

-- Without a hint the block starts with something that shows how deep it stands.
theorem closedLines_solid (some_ : cs ≠ []) (ends : ∀ d ∈ breaks, isBreak d = true) (shape : closedLines cs = breaks ++ tail)
    (solid : cs.head?.any (fun c => isSpace c || isBreak c) = false) : breaks = [] ∧ ∃ d rest, tail = d :: rest ∧ d ≠ ' ' := by
  obtain ⟨d, cs, rfl⟩ := List.exists_cons_of_ne_nil some_
  obtain ⟨space, inside⟩ : isSpace d = false ∧ isBreak d = false := by simpa using solid
  obtain ⟨rest, same⟩ := closedLines_cons d cs
  rw [same] at shape
  cases breaks with
  | nil =>
    refine ⟨rfl, d, rest, shape.symm, ?_⟩
    rintro rfl
    cases space
  | cons e breaks =>
    rw [(List.cons.inj shape).1, ends e List.mem_cons_self] at inside
    cases inside

theorem blockScalar_literal (allowed : literalAllowed cs = true) (some_ : cs ≠ []) (content : Content more) :
    ∃ l', blockScalar 0 ⟨'|' :: (hintMark cs ++ chompMark cs ++ '\n' :: (literalLines true (closedLines cs) ++ more)), l, k, a, h⟩ =
      some (.scalar .literal (String.ofList cs), ⟨more, l', 0, a, h⟩) := by
  rw [literalAllowed, Bool.not_eq_true', Bool.or_eq_false_iff] at allowed
  have tabs : '\t' ∉ cs := fun listed => absurd (needsEscapes_printable allowed.1 '\t' listed) (by decide)
  obtain ⟨chomp, mark, kept⟩ := chompMark_kept cs
  obtain ⟨breaks, tail, shape, ends, first⟩ := leading_run isBreak (closedLines cs)
  have tabs' : '\t' ∉ tail := fun listed => closedLines_tabs tabs (by rw [shape]; exact List.mem_append_right _ listed)
  have closed : ∀ d ∈ tail.getLast?, isBreak d = true := by
    intro d final
    obtain ⟨front, rfl⟩ := List.getLast?_eq_some_iff.mp final
    exact closedLines_last d (by rw [shape, ← List.append_assoc, List.getLast?_concat]; rfl)
  have begun : Finished [] ⟨[], breaks⟩ breaks := ⟨rfl, nofun, ends, fun none => absurd rfl none⟩
  have shallow := closedLines_solid some_ ends shape
  rw [shape] at kept ⊢
  have longer := literalLines_length true (breaks ++ tail)
  rw [List.length_append] at longer
  rw [hintMark, mark]
  generalize cs.head?.any (fun c => isSpace c || isBreak c) = deep at shallow ⊢
  have long : breaks.length < ('\n' :: (literalLines true (breaks ++ tail) ++ more)).length + 1 := by
    simp only [List.length_cons, List.length_append]
    omega
  have long' : tail.length < ('\n' :: (literalLines true (breaks ++ tail) ++ more)).length + 1 := by
    simp only [List.length_cons, List.length_append]
    omega
  have wanted : (if deep then some 2 else none).map (fun n => if (0 : Int) < 0 then n else (max (0 : Int) 0).toNat + n) =
      if deep then some 2 else none := by
    cases deep <;> rfl
  obtain ⟨l₁, deepest, begins, column⟩ := leadingBreaks_first (l := l + 1) (a := a) (h := h) long ends first tabs' content shallow
  obtain ⟨text, pending, l', lines, finished⟩ := blockLines_written (l := l₁) (a := a) (h := h) false long' first closed tabs' content begun
  refine ⟨l', ?_⟩
  unfold blockScalar
  simp only [bind_apply, ahead_apply, Option.bind_some, move_apply, Cursor.steps, step_inside (d := '|') rfl, blockHeader_written]
  rw [skipWhile_none (by simp [isTabOrSpace])]
  simp only [Option.bind_some, wanted, List.head?_cons, Option.some.injEq, Char.reduceEq, decide_false]
  rw [if_pos lineEnds_break]
  simp only [bind_apply]
  rw [skipWhile_none (by simp [isBreak])]
  simp only [Option.bind_some, move_apply, Cursor.steps, step_break (d := '\n') rfl]
  rw [begins]
  simp only [Option.bind_some, column, lines]
  rw [if_neg (by simp), kept text pending finished]
  rfl

end ToffoliBench.Yaml

import ToffoliBench.Proofs.Yaml.Literal
import ToffoliBench.Proofs.Yaml.Quoted

namespace ToffoliBench.Yaml

variable {cs more key written word : List Char} {node : Node} {l k fuel : Nat} {a : List (String × Node)} {h : List (String × String)}

theorem apply_none (r : Reader Node) : (r >>= fun node => ({} : Properties).apply node) = r := bind_pure r

-- No other kind of node starts like a plain one.
theorem leaf_plain {indent : Int} (starts : startsPlain false cs = true) :
    leaf indent {} ⟨cs, l, k, a, h⟩ = plain false indent ⟨cs, l, k, a, h⟩ := by
  unfold leaf
  simp only [bind_apply, ahead_apply, Option.bind_some]
  split
  all_goals try cases starts
  exact congrFun (apply_none _) _

theorem leaf_quoted {indent : Int} {mark : Char} (quote : mark = '\'' ∨ mark = '"') :
    leaf indent {} ⟨mark :: cs, l, k, a, h⟩ = quoted ⟨mark :: cs, l, k, a, h⟩ := by
  rcases quote with rfl | rfl <;> exact congrFun (apply_none quoted) _

theorem leaf_block {indent : Int} : leaf indent {} ⟨'|' :: cs, l, k, a, h⟩ = blockScalar indent ⟨'|' :: cs, l, k, a, h⟩ :=
  congrFun (apply_none (blockScalar indent)) _

-- What stands behind a colon, up to the next entry, is read as the node.
structure Stands (node : Node) (written : List Char) : Prop where
  apart : ∀ more, blankNext (written ++ more) = true
  allowed : ∀ d ∈ written, isAllowed d = true
  read : ∀ more fuel l k a h, Fresh more → written.length + 4 ≤ fuel → ∃ l' c,
    blockValue 0 true fuel ⟨written ++ more, l, k, a, h⟩ = some (node, c) ∧ nextContent false true c = some ((), ⟨more, l', 0, a, h⟩)

-- What may come behind a blank for a value to start there.
def Opens (cs : List Char) : Prop :=
  ∀ d ∈ cs.head?, isTabOrSpace d = false ∧ isBreak d = false ∧ d ≠ '#' ∧ d ≠ '&' ∧ d ≠ '!'

theorem Stands.inline (some_ : cs ≠ []) (opens : Opens cs) (allowed : ∀ d ∈ cs, isAllowed d = true)
    (read : ∀ more l k a h, Fresh more → ∃ l' c, leaf 0 {} ⟨cs ++ more, l, k, a, h⟩ = some (node, c) ∧
      nextContent false true c = some ((), ⟨more, l', 0, a, h⟩)) : Stands node (' ' :: cs) := by
  refine ⟨fun _ => rfl, List.forall_mem_cons.mpr ⟨rfl, allowed⟩, fun more fuel l k a h fresh enough => ?_⟩
  obtain ⟨fuel, rfl⟩ := Nat.exists_eq_add_one_of_ne_zero (by omega : fuel ≠ 0)
  obtain ⟨l', c, value, after⟩ := read more l (k + 1) a h fresh
  obtain ⟨d, rest, rfl⟩ := List.exists_cons_of_ne_nil some_
  obtain ⟨blank, ends, comment, anchor, tag⟩ := opens d rfl
  have skipped : skipWhile isTabOrSpace ⟨[' '] ++ (d :: rest ++ more), l, k, a, h⟩ = some (1, ⟨d :: rest ++ more, l, k + 1, a, h⟩) :=
    skipWhile_front (by simp [isTabOrSpace]) (by simp [isBreak]) (by simpa using blank)
  have open_ : lineEnds (d :: rest ++ more) = false := by simp [lineEnds, breakNext, ends, comment]
  refine ⟨l', c, ?_, after⟩
  rw [blockValue]
  simp only [bind_apply]
  rw [List.cons_append, ← List.singleton_append, skipped]
  simp only [Option.bind_some]
  rw [properties_none (by simp [anchor]) (by simp [tag])]
  simp only [Option.bind_some, ahead_apply]
  rw [open_, if_neg Bool.false_ne_true, value]

theorem OneLine.opens (line : OneLine cs) : Opens (cs ++ more) := by
  obtain ⟨d, rest, rfl⟩ := List.exists_cons_of_ne_nil line.some_
  obtain ⟨ends, tab⟩ := line.inside d List.mem_cons_self
  have starts : startsPlain false (d :: rest ++ []) = true := line.starts
  have other {e : Char} (mark : startsPlain false (e :: rest ++ []) = false) : d ≠ e := by
    rintro rfl
    rw [starts] at mark
    cases mark
  rintro e ⟨⟩
  have space : d ≠ ' ' := fun same => line.first (congrArg some same)
  exact ⟨by simp [isTabOrSpace, space, tab], ends, other rfl, other rfl, other rfl⟩

theorem Stands.plain (line : OneLine cs) (allowed : ∀ d ∈ cs, isAllowed d = true) :
    Stands (.scalar .plain (String.ofList cs)) (' ' :: (cs ++ ['\n'])) := by
  refine Stands.inline (by simp) line.opens (List.forall_mem_append.mpr ⟨allowed, List.forall_mem_singleton.mpr rfl⟩) fun more l k a h fresh => ?_
  refine ⟨l + 1, ⟨more, l + 1, 0, a, h⟩, ?_, nextContent_stays fresh.content⟩
  rw [List.append_assoc, List.singleton_append, leaf_plain line.starts, plain_line line (Int.le_refl 0) fresh.content.solid]

theorem isAllowed_shown {d : Char} (shown : isPrintable d = true) : isAllowed d = true := by
  simp only [isPrintable, Bool.and_eq_true] at shown
  exact shown.1.1

theorem singleChars_allowed {deep : Bool} (shown : ∀ d ∈ cs, isPrintable d = true) : ∀ d ∈ singleChars deep cs, isAllowed d = true := by
  induction cs generalizing deep with
  | nil => cases deep <;> exact List.all_eq_true.mp rfl
  | cons c cs ih =>
    obtain ⟨first, others⟩ := List.forall_mem_cons.mp shown
    have allowed := isAllowed_shown first
    rw [singleChars]
    split
    · exact List.forall_mem_cons.mpr ⟨allowed, ih others⟩
    · refine List.forall_mem_append.mpr ⟨List.forall_mem_append.mpr ⟨?_, ?_⟩, ih others⟩
      · cases deep <;> exact List.all_eq_true.mp rfl
      · split
        · exact List.all_eq_true.mp rfl
        · exact List.forall_mem_singleton.mpr allowed

theorem escapeChar_allowed (c : Char) : ∀ d ∈ escapeChar c, isAllowed d = true := by
  cases escapeChar_escaping c with
  | itself same shown =>
    rw [same]
    exact List.forall_mem_singleton.mpr (isAllowed_shown shown)
  | escape rest same shown =>
    rw [same]
    exact List.forall_mem_cons.mpr ⟨rfl, fun d listed => isAllowed_shown (shown d listed).1⟩

theorem literalLines_allowed {deep : Bool} (allowed : ∀ d ∈ cs, isAllowed d = true) : ∀ d ∈ literalLines deep cs, isAllowed d = true := by
  induction cs generalizing deep with
  | nil => nofun
  | cons c cs ih =>
    obtain ⟨first, others⟩ := List.forall_mem_cons.mp allowed
    rw [literalLines]
    split
    · exact List.forall_mem_cons.mpr ⟨first, ih others⟩
    · split
      · exact List.forall_mem_cons.mpr ⟨rfl, List.forall_mem_cons.mpr ⟨rfl, List.forall_mem_cons.mpr ⟨first, ih others⟩⟩⟩
      · exact List.forall_mem_cons.mpr ⟨first, ih others⟩

theorem Stands.single (allowed : singleAllowed cs = true) (lines : '\n' ∉ cs) :
    Stands (.scalar .quoted (String.ofList cs)) (' ' :: (inSingle cs ++ ['\n'])) := by
  have plain := allowed
  rw [singleAllowed, Bool.not_eq_true', Bool.or_eq_false_iff] at plain
  have inside : ∀ d ∈ singleChars false cs, isAllowed d = true := singleChars_allowed (needsEscapes_printable plain.1)
  have written : ∀ d ∈ inSingle cs ++ ['\n'], isAllowed d = true := by
    simp only [inSingle, List.forall_mem_append, List.forall_mem_cons]
    exact ⟨⟨⟨rfl, inside⟩, rfl, List.forall_mem_nil _⟩, rfl, List.forall_mem_nil _⟩
  refine Stands.inline (by simp) (by rintro d ⟨⟩; decide) written fun more l k a h fresh => ?_
  obtain ⟨l', k', read⟩ : ∃ l' k', quoted ⟨inSingle cs ++ '\n' :: more, l, k, a, h⟩ =
      some (.scalar .quoted (String.ofList cs), ⟨'\n' :: more, l', k', a, h⟩) :=
    quoted_single allowed lines (by simp)
  refine ⟨l' + 1, ⟨'\n' :: more, l', k', a, h⟩, ?_, nextContent_break fresh.content⟩
  rw [List.append_assoc, List.singleton_append, inSingle, List.cons_append, List.cons_append, leaf_quoted (Or.inl rfl)]
  exact read

theorem Stands.double (cs : List Char) : Stands (.scalar .quoted (String.ofList cs)) (' ' :: (inDouble cs ++ ['\n'])) := by
  have inside : ∀ d ∈ cs.flatMap escapeChar, isAllowed d = true := by
    intro d listed
    obtain ⟨c, _, among⟩ := List.mem_flatMap.mp listed
    exact escapeChar_allowed c d among
  have written : ∀ d ∈ inDouble cs ++ ['\n'], isAllowed d = true := by
    simp only [inDouble, List.forall_mem_append, List.forall_mem_cons]
    exact ⟨⟨⟨rfl, inside⟩, rfl, List.forall_mem_nil _⟩, rfl, List.forall_mem_nil _⟩
  refine Stands.inline (by simp) (by rintro d ⟨⟩; decide) written fun more l k a h fresh => ?_
  obtain ⟨k', read⟩ : ∃ k', quoted ⟨inDouble cs ++ '\n' :: more, l, k, a, h⟩ =
      some (.scalar .quoted (String.ofList cs), ⟨'\n' :: more, l, k', a, h⟩) :=
    quoted_double
  refine ⟨l + 1, ⟨'\n' :: more, l, k', a, h⟩, ?_, nextContent_break fresh.content⟩
  rw [List.append_assoc, List.singleton_append, inDouble, List.cons_append, List.cons_append, leaf_quoted (Or.inr rfl)]
  exact read

-- The line that ends a block is closed by the text itself, or behind it.
def blockChars (cs : List Char) : List Char := '|' :: (hintMark cs ++ chompMark cs ++ '\n' :: literalLines true (closedLines cs))

theorem Stands.literal (allowed : literalAllowed cs = true) (some_ : cs ≠ []) :
    Stands (.scalar .literal (String.ofList cs)) (' ' :: blockChars cs) := by
  have plain := allowed
  rw [literalAllowed, Bool.not_eq_true', Bool.or_eq_false_iff] at plain
  have lines : ∀ d ∈ closedLines cs, isAllowed d = true := by
    have inside : ∀ d ∈ cs, isAllowed d = true := fun d listed => isAllowed_shown (needsEscapes_printable plain.1 d listed)
    unfold closedLines
    split
    · exact inside
    · exact List.forall_mem_append.mpr ⟨inside, List.forall_mem_singleton.mpr rfl⟩
  have hint : ∀ d ∈ hintMark cs, isAllowed d = true := by
    unfold hintMark
    split <;> exact List.all_eq_true.mp rfl
  have chomp : ∀ d ∈ chompMark cs, isAllowed d = true := by
    obtain ⟨chomp, mark, -⟩ := chompMark_kept cs
    rw [mark]
    cases chomp <;> exact List.all_eq_true.mp rfl
  have written : ∀ d ∈ blockChars cs, isAllowed d = true := by
    simp only [blockChars, List.forall_mem_cons, List.forall_mem_append]
    exact ⟨rfl, ⟨hint, chomp⟩, rfl, literalLines_allowed lines⟩
  refine Stands.inline (by simp [blockChars]) (by rintro d ⟨⟩; decide) written fun more l k a h fresh => ?_
  obtain ⟨l', read⟩ := blockScalar_literal (l := l) (k := k) (a := a) (h := h) allowed some_ fresh.content
  refine ⟨l', ⟨more, l', 0, a, h⟩, ?_, nextContent_stays fresh.content⟩
  rw [blockChars, List.cons_append, leaf_block, List.append_assoc, List.cons_append, read]

theorem starts_unmarked (starts : startsPlain false cs = true) {d : Char} (marked : ∀ rest, startsPlain false (d :: rest) = false) :
    cs.head? ≠ some d := by
  intro first
  obtain ⟨rest, rfl⟩ := List.head?_eq_some_iff.mp first
  rw [marked] at starts
  cases starts

theorem keyNode_plain (starts : startsPlain false cs = true) : keyNode ⟨cs, l, k, a, h⟩ =
    (plainLine false [] [] (cs.length + 1) ⟨cs, l, k, a, h⟩).bind fun done => (skipWhile isTabOrSpace done.2).bind fun skipped =>
      if onKeyLine ⟨cs, l, k, a, h⟩ skipped.2 ∧ colonAhead skipped.2.rest
        then some (.scalar .plain (String.ofList done.1.1), skipped.2) else none := by
  unfold keyNode
  simp only [bind_apply, get_apply, Option.bind_some]
  rw [properties_none (starts_unmarked starts fun _ => rfl) (starts_unmarked starts fun _ => rfl)]
  simp only [Option.bind_some, ahead_apply]
  split
  all_goals try cases starts
  rw [if_pos starts]
  simp only [bind_apply, pure_apply, Option.bind_some, get_apply]
  refine congrArg _ (funext fun done => congrArg _ (funext fun skipped => ?_))
  by_cases both : onKeyLine ⟨cs, l, k, a, h⟩ skipped.2 = true ∧ colonAhead skipped.2.rest = true
  · rw [if_pos both, if_pos both]
    rfl
  · rw [if_neg both, if_neg both]
    rfl

-- A line is no key where it goes on to its end.
theorem tryKey_line (line : OneLine cs) : tryKey ⟨cs ++ '\n' :: more, l, k, a, h⟩ = some (none, ⟨cs ++ '\n' :: more, l, k, a, h⟩) := by
  have long : cs.length < (cs ++ '\n' :: more).length + 1 := by
    rw [List.length_append]
    omega
  have none : keyNode ⟨cs ++ '\n' :: more, l, k, a, h⟩ = none := by
    rw [keyNode_plain line.starts, plainLine_line [] [] long line.some_ line.inside line.first line.last (Or.inl rfl) line.quiet, Option.bind_some,
      skipWhile_none (by simp [isTabOrSpace]), Option.bind_some, if_neg (by simp [colonAhead])]
  rw [tryKey, none]

-- The names of fields.
structure IsName (key : List Char) : Prop where
  some_ : key ≠ []
  tame : ∀ d ∈ key, isTame d = true
  lower : Fresh key
  short : key.length ≤ 1024

theorem IsName.fresh (name : IsName key) : Fresh (key ++ more) := by
  obtain ⟨d, rest, rfl⟩ := List.exists_cons_of_ne_nil name.some_
  exact name.lower

theorem IsName.line (name : IsName key) : OneLine key := by
  refine .of_tame name.some_ name.tame fun dash => ?_
  exact absurd (name.lower '-' dash) (by decide)

theorem plainWord_name (tame : ∀ d ∈ key, isTame d = true) (blank : blankNext written = true) :
    plainWord false (key ++ ':' :: written) = some key := by
  induction key with
  | nil => simp [plainWord, blank]
  | cons d key ih =>
    obtain ⟨first, others⟩ := List.forall_mem_cons.mp tame
    obtain ⟨ends, space⟩ := isTame_inside first
    have colon : d ≠ ':' := isTame_ne first rfl
    rw [List.cons_append, plainWord, if_neg (by simp [blankNext, ends, space]), if_neg (by simp [colon]), if_neg (by simp),
      if_neg (by simp), ih others]
    rfl

theorem keyNode_name (name : IsName key) (blank : blankNext written = true) : ∃ k',
    keyNode ⟨key ++ ':' :: written, l, k, a, h⟩ = some (.scalar .plain (String.ofList key), ⟨':' :: written, l, k', a, h⟩) := by
  have inside : ∀ d ∈ key, isBreak d = false := fun d listed => (isTame_inside (name.tame d listed)).1
  have none : plainWord false (':' :: written) = some [] := by simp [plainWord, blank]
  have read : plainLine false [] [] ((key ++ ':' :: written).length + 1) ⟨key ++ ':' :: written, l, k, a, h⟩ =
      some ((key, []), ⟨':' :: written, l, k + key.length, a, h⟩) := by
    have comment : (key ++ ':' :: written).head? ≠ some '#' := starts_unmarked name.line.starts fun _ => rfl
    have word := plainWord_name name.tame blank
    obtain ⟨d, rest, rfl⟩ := List.exists_cons_of_ne_nil name.some_
    rw [plainLine]
    simp only [bind_apply, ahead_apply, Option.bind_some]
    rw [if_neg (fun found => comment found.1), word]
    simp only [bind_apply, ahead_apply, Option.bind_some, move_apply]
    rw [steps_word inside]
    exact plainLine_over (by simp) none
  refine ⟨k + key.length, ?_⟩
  rw [keyNode_plain name.line.starts, read, Option.bind_some, skipWhile_none (by simp [isTabOrSpace]), Option.bind_some, if_pos]
  refine ⟨?_, blank⟩
  simp [onKeyLine, name.short]

theorem starts_marks (starts : startsPlain false cs = true) : dashAhead cs = false ∧ questionAhead cs = false := by
  cases cs with
  | nil => exact ⟨rfl, rfl⟩
  | cons d rest =>
    rw [startsPlain] at starts
    constructor
    · unfold dashAhead
      split
      · rename_i same
        obtain ⟨rfl, rfl⟩ := List.cons.inj same
        simpa using starts
      · rfl
    · unfold questionAhead
      split
      · rename_i same
        obtain ⟨rfl, rfl⟩ := List.cons.inj same
        simpa using starts
      · rfl

theorem blockNode_line {indent : Int} (line : OneLine cs) (outside : 0 ≤ indent) (solid : ∀ d ∈ more.head?, (isTabOrSpace d || isBreak d) = false) :
    blockNode indent {} (fuel + 1) ⟨cs ++ '\n' :: more, l, k, a, h⟩ = some (.scalar .plain (String.ofList cs), ⟨more, l + 1, 0, a, h⟩) := by
  have starts : startsPlain false (cs ++ '\n' :: more) = true := line.starts
  obtain ⟨dash, question⟩ := starts_marks starts
  rw [blockNode]
  simp only [bind_apply, get_apply, Option.bind_some]
  rw [if_neg (by simp [dash]), if_neg (by simp [question])]
  simp only [bind_apply, tryKey_line line, Option.bind_some]
  rw [properties_none (starts_unmarked starts fun _ => rfl) (starts_unmarked starts fun _ => rfl)]
  simp only [Option.bind_some, ahead_apply]
  rw [if_neg (by simp), leaf_plain starts, plain_line line outside solid]

theorem nestedOrInline_line (line : OneLine cs) (solid : ∀ d ∈ more.head?, (isTabOrSpace d || isBreak d) = false) :
    nestedOrInline 0 false (fuel + 2) ⟨' ' :: (cs ++ '\n' :: more), l, k, a, h⟩ =
      some (.scalar .plain (String.ofList cs), ⟨more, l + 1, 0, a, h⟩) := by
  obtain ⟨d, rest, rfl⟩ := List.exists_cons_of_ne_nil line.some_
  have front : Opens (d :: rest ++ []) := line.opens
  obtain ⟨blank, ends, comment, -⟩ := front d rfl
  have space : d ≠ ' ' := by
    rintro rfl
    cases blank
  have skipped : skipWhile (· == ' ') ⟨[' '] ++ (d :: rest ++ '\n' :: more), l, k, a, h⟩ = some (1, ⟨d :: rest ++ '\n' :: more, l, k + 1, a, h⟩) :=
    skipWhile_front (by simp) (by simp [isBreak]) (by rintro e ⟨⟩; exact beq_false_of_ne space)
  have open_ : lineEnds (d :: rest ++ '\n' :: more) = false := by simp [lineEnds, breakNext, ends, comment]
  rw [nestedOrInline]
  simp only [bind_apply]
  rw [← List.singleton_append, skipped]
  simp only [Option.bind_some, ahead_apply]
  rw [open_, if_neg Bool.false_ne_true]
  exact blockNode_line line (Int.le_refl 0) solid

def itemChars (words : List (List Char)) : List Char := words.flatMap fun word => '-' :: ' ' :: (word ++ ['\n'])

def plainNode (word : List Char) : Node := .scalar .plain (String.ofList word)

theorem itemChars_length (words : List (List Char)) : words.length ≤ (itemChars words).length := by
  induction words with
  | nil => exact Nat.zero_le _
  | cons word words ih =>
    rw [itemChars] at ih ⊢
    simp only [List.flatMap_cons, List.length_append, List.length_cons]
    omega

theorem itemChars_content (words : List (List Char)) (fresh : Fresh more) : Content (itemChars words ++ more) := by
  cases words with
  | nil => exact fresh.content
  | cons word words =>
    rintro d ⟨⟩
    decide

theorem Fresh.marks (fresh : Fresh more) : dashAhead more = false ∧ questionAhead more = false := by
  cases more with
  | nil => exact ⟨rfl, rfl⟩
  | cons d more =>
    have low := (lower_bounds (fresh d rfl)).1
    have other {e : Char} (outside : e.toNat < 97) : d ≠ e := ne_of_code (by omega)
    constructor
    · unfold dashAhead
      split
      · exact absurd (List.cons.inj ‹_›).1 (other (by decide))
      · rfl
    · unfold questionAhead
      split
      · exact absurd (List.cons.inj ‹_›).1 (other (by decide))
      · rfl

theorem blockItems_written {words : List (List Char)} (lines : ∀ word ∈ words, OneLine word) (fresh : Fresh more) (items : List Node)
    (enough : words.length + 3 ≤ fuel) : ∃ l', blockItems 0 items fuel ⟨itemChars words ++ more, l, 0, a, h⟩ =
      some (items ++ words.map plainNode, ⟨more, l', 0, a, h⟩) := by
  induction words generalizing items fuel l with
  | nil =>
    obtain ⟨fuel, rfl⟩ := Nat.exists_eq_add_one_of_ne_zero (by omega : fuel ≠ 0)
    refine ⟨l, ?_⟩
    rw [itemChars, List.flatMap_nil, List.nil_append, List.map_nil, List.append_nil, blockItems]
    simp only [bind_apply, get_apply, Option.bind_some]
    rw [if_neg (by simp [fresh.marks.1]), if_pos (Or.inr (Nat.le_refl 0))]
    rfl
  | cons word words ih =>
    obtain ⟨fuel, rfl⟩ : ∃ n, fuel = n + 3 := ⟨fuel - 3, by omega⟩
    rw [List.length_cons] at enough
    obtain ⟨line, others⟩ := List.forall_mem_cons.mp lines
    have content := itemChars_content words fresh
    have written : itemChars (word :: words) ++ more = '-' :: ' ' :: (word ++ '\n' :: (itemChars words ++ more)) := by
      simp [itemChars]
    have whole : items ++ (word :: words).map plainNode = items ++ [plainNode word] ++ words.map plainNode := by simp
    have left : words.length + 3 ≤ fuel + 2 := by omega
    obtain ⟨l', read⟩ := ih (l := l + 1) others (items ++ [plainNode word]) left
    refine ⟨l', ?_⟩
    rw [written, blockItems]
    simp only [bind_apply, get_apply, Option.bind_some]
    rw [if_pos ⟨trivial, rfl, rfl⟩]
    simp only [bind_apply, move_apply, Option.bind_some, Cursor.steps, step_inside (d := '-') rfl]
    rw [nestedOrInline_line line content.solid]
    simp only [Option.bind_some]
    rw [nextContent_stays content, whole]
    exact read

-- A list stands below its key, each item behind a dash.
theorem Stands.list {words : List (List Char)} (some_ : words ≠ []) (lines : ∀ word ∈ words, OneLine word)
    (allowed : ∀ word ∈ words, ∀ d ∈ word, isAllowed d = true) : Stands (.sequence (words.map plainNode)) ('\n' :: itemChars words) := by
  have long := itemChars_length words
  have written : ∀ d ∈ '\n' :: itemChars words, isAllowed d = true := by
    refine List.forall_mem_cons.mpr ⟨rfl, fun d listed => ?_⟩
    obtain ⟨word, among, inside⟩ := List.mem_flatMap.mp listed
    simp only [List.mem_cons, List.mem_append, List.not_mem_nil, or_false] at inside
    rcases inside with rfl | rfl | inside | rfl
    · rfl
    · rfl
    · exact allowed word among d inside
    · rfl
  refine ⟨fun _ => rfl, written, fun more fuel l k a h fresh enough => ?_⟩
  rw [List.length_cons] at enough
  obtain ⟨fuel, rfl⟩ : ∃ n, fuel = n + 2 := ⟨fuel - 2, by omega⟩
  have left : words.length + 3 ≤ fuel := by omega
  obtain ⟨l', read⟩ := blockItems_written (l := l + 1) (a := a) (h := h) lines fresh [] left
  have content := itemChars_content words fresh
  obtain ⟨word, words, rfl⟩ := List.exists_cons_of_ne_nil some_
  refine ⟨l', ⟨more, l', 0, a, h⟩, ?_, nextContent_stays fresh.content⟩
  rw [blockValue]
  simp only [bind_apply]
  rw [List.cons_append, skipWhile_none (by simp [isTabOrSpace])]
  simp only [Option.bind_some]
  rw [properties_none (by simp) (by simp)]
  simp only [Option.bind_some, ahead_apply]
  rw [if_pos lineEnds_break, nested]
  simp only [bind_apply]
  rw [nextContent_break content]
  simp only [Option.bind_some, get_apply]
  rw [if_neg (by simp [Cursor.atEnd, Cursor.atBound, itemChars]), if_neg (by simp), if_pos ⟨trivial, rfl, rfl⟩]
  simp only [bind_apply, read, Option.bind_some]
  rfl

-- What is written for one key of a mapping.
structure Field where
  key : String
  written : List Char
  node : Node

def Field.chars (e : Field) : List Char := e.key.toList ++ ':' :: e.written

def Field.pair (e : Field) : Node × Node := (.scalar .plain e.key, e.node)

structure Field.Sound (e : Field) : Prop where
  name : IsName e.key.toList
  stands : Stands e.node e.written

theorem entries_fresh {entries : List Field} (sound : ∀ e ∈ entries, e.Sound) : Fresh (entries.flatMap Field.chars) := by
  cases entries with
  | nil => nofun
  | cons e entries =>
    rw [List.flatMap_cons, Field.chars, List.append_assoc]
    exact (sound e List.mem_cons_self).name.fresh

theorem blockEntries_step {e : Field} (sound : e.Sound) (fresh : Fresh more) (before : List (Node × Node)) (enough : e.written.length + 4 ≤ fuel) :
    ∃ l', blockEntries 0 before (fuel + 1) ⟨e.chars ++ more, l, 0, a, h⟩ = blockEntries 0 (before ++ [e.pair]) fuel ⟨more, l', 0, a, h⟩ := by
  have front : Fresh (e.chars ++ more) := by
    rw [Field.chars, List.append_assoc]
    exact sound.name.fresh
  have open_ : Cursor.atEnd ⟨e.chars ++ more, l, 0, a, h⟩ = false := by
    rw [Cursor.atEnd, front.not_atBound]
    simp [Field.chars]
  obtain ⟨k', key⟩ := keyNode_name (l := l) (k := 0) (a := a) (h := h) sound.name (sound.stands.apart more)
  obtain ⟨l', c, value, after⟩ := sound.stands.read more fuel l (k' + 1) a h fresh enough
  refine ⟨l', ?_⟩
  rw [blockEntries]
  simp only [bind_apply, get_apply, Option.bind_some]
  rw [if_neg (by simp [open_]), if_neg (by simp), if_neg (by simp [front.marks.2])]
  rw [Field.chars, List.append_assoc, List.cons_append]
  simp only [bind_apply, key, Option.bind_some, move_apply, Cursor.steps, step_inside (d := ':') rfl]
  change ((blockValue 0 true fuel _).bind fun done => _) = _
  rw [value]
  simp only [Option.bind_some, after, String.ofList_toList]
  rfl

theorem blockEntries_written {entries : List Field} (sound : ∀ e ∈ entries, e.Sound) (before : List (Node × Node))
    (enough : (entries.flatMap Field.chars).length + 8 ≤ fuel) : ∃ l', blockEntries 0 before fuel ⟨entries.flatMap Field.chars, l, 0, a, h⟩ =
      some (before ++ entries.map Field.pair, ⟨[], l', 0, a, h⟩) := by
  induction entries generalizing before fuel l with
  | nil =>
    obtain ⟨fuel, rfl⟩ := Nat.exists_eq_add_one_of_ne_zero (by omega : fuel ≠ 0)
    exact ⟨l, by rw [List.map_nil, List.append_nil, blockEntries]; rfl⟩
  | cons e entries ih =>
    obtain ⟨fuel, rfl⟩ := Nat.exists_eq_add_one_of_ne_zero (by omega : fuel ≠ 0)
    obtain ⟨now, others⟩ := List.forall_mem_cons.mp sound
    rw [List.flatMap_cons, List.length_append] at enough
    have long : e.written.length + 1 ≤ e.chars.length := by
      simp only [Field.chars, List.length_append, List.length_cons]
      omega
    have room : e.written.length + 4 ≤ fuel := by omega
    have left : (entries.flatMap Field.chars).length + 8 ≤ fuel := by omega
    obtain ⟨l₁, step⟩ := blockEntries_step (l := l) (a := a) (h := h) now (entries_fresh others) before room
    obtain ⟨l', read⟩ := ih (l := l₁) others (before ++ [e.pair]) left
    refine ⟨l', ?_⟩
    rw [List.flatMap_cons, step, read, List.map_cons, List.append_assoc, List.singleton_append]

theorem unifyBreaks_allowed (allowed : ∀ d ∈ cs, isAllowed d = true) : unifyBreaks cs = cs := by
  fun_induction unifyBreaks cs with
  | case1 => rfl
  | case2 rest => exact absurd (allowed '\r' List.mem_cons_self) (by decide)
  | case3 c rest other ih =>
    obtain ⟨first, others⟩ := List.forall_mem_cons.mp allowed
    rw [ih others, if_neg]
    rintro (rfl | code)
    · cases first
    · simp [isAllowed, code] at first

theorem directives_none (fresh : Fresh more) : directives (fuel + 1) ⟨more, l, k, a, h⟩ = some (false, ⟨more, l, k, a, h⟩) := by
  have percent : more.head? ≠ some '%' := fun first => absurd (fresh '%' first) (by decide)
  rw [directives, directivesAfter]
  simp only [bind_apply]
  rw [nextContent_stays fresh.content]
  simp only [Option.bind_some, get_apply]
  rw [if_neg (fun found => percent found.1)]
  rfl

theorem closings_end : closings (fuel + 1) ⟨[], l, k, a, h⟩ = some ((), ⟨[], l, k, a, h⟩) := by
  have none : Content [] := nofun
  rw [closings]
  simp only [bind_apply]
  rw [nextContent_stays none]
  simp only [Option.bind_some, get_apply]
  rw [if_neg (by simp [startsBound])]
  rfl

theorem blockNode_entries {e : Field} {indent : Int} (sound : e.Sound) :
    blockNode indent {} (fuel + 1) ⟨e.chars ++ more, l, 0, a, h⟩ =
      (blockEntries 0 [] fuel ⟨e.chars ++ more, l, 0, a, h⟩).map fun done => (.mapping done.1, done.2) := by
  have front : Fresh (e.chars ++ more) := by
    rw [Field.chars, List.append_assoc]
    exact sound.name.fresh
  obtain ⟨k', key⟩ := keyNode_name (l := l) (k := 0) (a := a) (h := h) sound.name (sound.stands.apart more)
  have found : tryKey ⟨e.chars ++ more, l, 0, a, h⟩ = some (some (.scalar .plain e.key), ⟨':' :: (e.written ++ more), l, k', a, h⟩) := by
    rw [Field.chars, List.append_assoc, List.cons_append, tryKey, key, String.ofList_toList]
  rw [blockNode]
  simp only [bind_apply, get_apply, Option.bind_some]
  rw [if_neg (by simp [front.marks.1]), if_neg (by simp [front.marks.2])]
  simp only [bind_apply, found, Option.bind_some, set_apply]
  cases blockEntries 0 [] fuel ⟨e.chars ++ more, l, 0, a, h⟩ <;> rfl

theorem entries_allowed {entries : List Field} (sound : ∀ e ∈ entries, e.Sound) : ∀ d ∈ entries.flatMap Field.chars, isAllowed d = true := by
  intro d listed
  obtain ⟨e, among, inside⟩ := List.mem_flatMap.mp listed
  rw [Field.chars, List.mem_append, List.mem_cons] at inside
  rcases inside with named | rfl | behind
  · exact isTame_allowed ((sound e among).name.tame d named)
  · rfl
  · exact (sound e among).stands.allowed d behind

-- A document of entries, one below the other, is the mapping of their keys to their nodes.
theorem read_written {entries : List Field} (some_ : entries ≠ []) (sound : ∀ e ∈ entries, e.Sound) :
    read (String.ofList (entries.flatMap Field.chars)) = some (some (.mapping (entries.map Field.pair))) := by
  have allowed := entries_allowed sound
  have fresh := entries_fresh sound
  obtain ⟨l', node⟩ : ∃ l', blockNode (-1) {} (4 * (entries.flatMap Field.chars).length + 16)
      ⟨entries.flatMap Field.chars, 0, 0, [], [("!", "!"), ("!!", "tag:yaml.org,2002:")]⟩ =
      some (.mapping (entries.map Field.pair), ⟨[], l', 0, [], [("!", "!"), ("!!", "tag:yaml.org,2002:")]⟩) := by
    have enough : (entries.flatMap Field.chars).length + 8 ≤ 4 * (entries.flatMap Field.chars).length + 15 := by omega
    obtain ⟨l', read⟩ := blockEntries_written (l := 0) (a := []) (h := [("!", "!"), ("!!", "tag:yaml.org,2002:")]) sound [] enough
    refine ⟨l', ?_⟩
    cases entries with
    | nil => exact absurd rfl some_
    | cons e entries =>
      rw [List.flatMap_cons] at read ⊢
      rw [blockNode_entries (sound e List.mem_cons_self), read]
      rfl
  have filled : (entries.flatMap Field.chars).isEmpty = false := by
    cases entries with
    | nil => exact absurd rfl some_
    | cons e entries => simp [Field.chars]
  rw [Yaml.read]
  simp only [String.toList_ofList, unifyBreaks_allowed allowed]
  rw [if_pos (List.all_eq_true.mpr allowed), StateT.run, document]
  simp only [bind_apply, ahead_apply, Option.bind_some]
  rw [directives_none fresh]
  simp only [Option.bind_some, get_apply]
  rw [if_neg (by simp [startsBound, fresh.not_atBound]), if_neg (by simp [fresh.not_atBound]), if_neg (by simp [filled])]
  simp only [bind_apply, node, Option.bind_some]
  rw [closings_end]
  rfl

end ToffoliBench.Yaml

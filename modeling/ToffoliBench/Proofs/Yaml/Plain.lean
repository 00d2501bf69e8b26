import ToffoliBench.Proofs.Yaml.Walking
import ToffoliBench.Yaml.Writing

namespace ToffoliBench.Yaml

variable {cs more word rest : List Char} {l k n fuel : Nat} {before : Option Char}
  {a : List (String × Node)} {h : List (String × String)}

-- What a text has to be like to stand plain.
structure OneLine (cs : List Char) : Prop where
  some_ : cs ≠ []
  inside : ∀ d ∈ cs, isBreak d = false ∧ d ≠ '\t'
  first : cs.head? ≠ some ' '
  last : cs.getLast? ≠ some ' '
  quiet : hasIndicator none cs = false

theorem blankNext_solid (solid : isBlankOrEnd cs.head? = false) : blankNext (cs ++ more) = false := by
  cases cs with
  | nil => cases solid
  | cons d cs => simpa [blankNext, isTabOrSpace, isBlankOrEnd] using solid

-- A colon inside is followed by something solid.
theorem colon_solid (quiet : hasIndicator before (':' :: cs) = false) : isBlankOrEnd cs.head? = false := by
  rw [hasIndicator, Bool.or_eq_false_iff] at quiet
  have first := quiet.1
  cases before <;> simpa [isIndicator] using first

theorem hash_quiet (start : before = none ∨ before = some ' ') : hasIndicator before ('#' :: cs) = true := by
  rcases start with rfl | rfl <;> simp [hasIndicator, isIndicator, isBlankOrEnd]

theorem hasIndicator_tail {d : Char} (quiet : hasIndicator before (d :: rest) = false) : hasIndicator (some d) rest = false := by
  rw [hasIndicator, Bool.or_eq_false_iff] at quiet
  exact quiet.2

theorem hasIndicator_after {d : Char} (quiet : hasIndicator before (word ++ d :: rest) = false) : hasIndicator (some d) rest = false := by
  induction word generalizing before with
  | nil => exact hasIndicator_tail quiet
  | cons e word ih => exact ih (hasIndicator_tail quiet)

theorem plainWord_word (solid : ∀ d ∈ word, isTabOrSpace d = false ∧ isBreak d = false) (stops : blankNext (rest ++ '\n' :: more) = true)
    (quiet : hasIndicator before (word ++ rest) = false) : plainWord false (word ++ (rest ++ '\n' :: more)) = some word := by
  induction word generalizing before with
  | nil =>
    rw [List.nil_append]
    cases ahead : rest ++ '\n' :: more with
    | nil => rfl
    | cons d tail =>
      rw [ahead] at stops
      rw [plainWord, if_pos stops]
  | cons d word ih =>
    obtain ⟨⟨blank, ends⟩, others⟩ := List.forall_mem_cons.mp solid
    have later : hasIndicator (some d) (word ++ rest) = false := hasIndicator_tail quiet
    have colon : ¬ (d = ':' ∧ blankNext (word ++ (rest ++ '\n' :: more)) = true) := by
      rintro ⟨rfl, next⟩
      have solid : isBlankOrEnd (word ++ rest).head? = false := colon_solid quiet
      rw [← List.append_assoc, blankNext_solid solid] at next
      cases next
    rw [List.cons_append, plainWord, if_neg (by simp [blankNext, blank, ends]), if_neg colon, if_neg (by simp), if_neg (by simp),
      ih others later]
    rfl

theorem leading_blanks (cs : List Char) : ∃ n rest, cs = List.replicate n ' ' ++ rest ∧ rest.head? ≠ some ' ' := by
  obtain ⟨blanks, rest, rfl, same, stop⟩ := leading_run (· == ' ') cs
  have all : blanks = List.replicate blanks.length ' ' := List.eq_replicate_of_mem fun d listed => by simpa using same d listed
  refine ⟨blanks.length, rest, by rw [← all], fun first => ?_⟩
  simpa using stop ' ' first

-- The first word of a line, and the blanks that set it apart from the others.
theorem first_word (first : cs.head? ≠ some ' ') (last : cs.getLast? ≠ some ' ') : ' ' ∉ cs ∨
    ∃ word n rest, cs = word ++ (List.replicate (n + 1) ' ' ++ rest) ∧ word ≠ [] ∧ ' ' ∉ word ∧ rest ≠ [] ∧ rest.head? ≠ some ' ' := by
  by_cases blank : ' ' ∈ cs
  · obtain ⟨word, after, rfl, unblank⟩ := List.eq_append_cons_of_mem blank
    obtain ⟨n, rest, rfl, solid⟩ := leading_blanks after
    refine Or.inr ⟨word, n, rest, by rw [List.replicate_succ, List.cons_append], ?_, unblank, ?_, solid⟩
    · rintro rfl
      exact first rfl
    · rintro rfl
      apply last
      rw [List.append_nil, ← List.replicate_succ, List.replicate_succ', ← List.append_assoc, List.getLast?_concat]
  · exact Or.inl blank

theorem plainLine_over (comment : more.head? ≠ some '#') (none : plainWord false more = some []) {text gap : List Char} :
    plainLine false text gap fuel ⟨more, l, k, a, h⟩ = some ((text, gap), ⟨more, l, k, a, h⟩) := by
  cases fuel with
  | zero => rfl
  | succ fuel =>
    unfold plainLine
    simp only [bind_apply, ahead_apply, Option.bind_some]
    rw [if_neg (fun found => comment found.1), none]
    rfl

-- One word, and the blanks behind it, which may be none at the end of the line.
theorem plainLine_word {text gap blanks : List Char} (some_ : word ≠ []) (inside : ∀ d ∈ word, isBreak d = false)
    (comment : ¬ ((word ++ (blanks ++ rest)).head? = some '#' ∧ (gap ≠ [] ∨ text = [])))
    (read : plainWord false (word ++ (blanks ++ rest)) = some word) (blank : ∀ d ∈ blanks, isTabOrSpace d = true ∧ isBreak d = false)
    (stops : ∀ d ∈ rest.head?, isTabOrSpace d = false) :
    plainLine false text gap (fuel + 1) ⟨word ++ (blanks ++ rest), l, k, a, h⟩ =
      plainLine false (text ++ gap ++ word) blanks fuel ⟨rest, l, k + word.length + blanks.length, a, h⟩ := by
  rw [plainLine]
  simp only [bind_apply, ahead_apply, Option.bind_some]
  rw [if_neg comment, read]
  obtain ⟨d, tail, rfl⟩ := List.exists_cons_of_ne_nil some_
  simp only [bind_apply, ahead_apply, Option.bind_some, move_apply]
  rw [steps_word inside, takeWhile_front (fun d listed => (blank d listed).1) stops, steps_word fun d listed => (blank d listed).2]

-- The words are read one by one, the blanks between them kept.
theorem plainLine_line (text gap : List Char) (long : cs.length < fuel) (some_ : cs ≠ []) (inside : ∀ d ∈ cs, isBreak d = false ∧ d ≠ '\t')
    (first : cs.head? ≠ some ' ') (last : cs.getLast? ≠ some ' ') (start : before = none ∨ before = some ' ')
    (quiet : hasIndicator before cs = false) : plainLine false text gap fuel ⟨cs ++ '\n' :: more, l, k, a, h⟩ =
      some ((text ++ gap ++ cs, []), ⟨'\n' :: more, l, k + cs.length, a, h⟩) := by
  induction fuel generalizing cs text gap k before with
  | zero => cases long
  | succ fuel ih =>
    have comment : ¬ ((cs ++ '\n' :: more).head? = some '#' ∧ (gap ≠ [] ∨ text = [])) := by
      rintro ⟨hash, -⟩
      cases cs with
      | nil => exact some_ rfl
      | cons d cs =>
        obtain rfl : d = '#' := Option.some.inj hash
        rw [hash_quiet start] at quiet
        cases quiet
    have solid {word : List Char} (listed : ∀ d ∈ word, d ∈ cs) (unblank : ' ' ∉ word) :
        ∀ d ∈ word, isTabOrSpace d = false ∧ isBreak d = false := by
      intro d among
      obtain ⟨ends, tab⟩ := inside d (listed d among)
      have space : d ≠ ' ' := fun same => unblank (same ▸ among)
      exact ⟨by simp [isTabOrSpace, space, tab], ends⟩
    rcases first_word first last with unblank | ⟨word, n, rest, rfl, word_, unblank, rest_, next⟩
    · have read : plainWord false (cs ++ ([] ++ '\n' :: more)) = some cs :=
        plainWord_word (solid (fun _ listed => listed) unblank) rfl (by rwa [List.append_nil])
      have solid' : ∀ d ∈ ('\n' :: more).head?, isTabOrSpace d = false := by simp [isTabOrSpace]
      exact (plainLine_word some_ (fun d listed => (inside d listed).1) comment read (List.forall_mem_nil _) solid').trans
        (plainLine_over (by simp) (by simp [plainWord, blankNext, isBreak]))
    · have parts := List.forall_mem_append.mp inside
      have after := (List.forall_mem_append.mp parts.2).2
      have read : plainWord false (word ++ (List.replicate (n + 1) ' ' ++ rest ++ '\n' :: more)) = some word :=
        plainWord_word (solid (fun _ listed => List.mem_append_left _ listed) unblank) rfl quiet
      have blank : ∀ d ∈ List.replicate (n + 1) ' ', isTabOrSpace d = true ∧ isBreak d = false := by
        intro d listed
        rw [List.eq_of_mem_replicate listed]
        exact ⟨rfl, by simp [isBreak]⟩
      have stops : ∀ d ∈ (rest ++ '\n' :: more).head?, isTabOrSpace d = false := by
        intro d ahead
        obtain ⟨e, tail, rfl⟩ := List.exists_cons_of_ne_nil rest_
        obtain rfl : e = d := Option.some.inj ahead
        have space : e ≠ ' ' := fun same => next (congrArg some same)
        simp [isTabOrSpace, space, (after e List.mem_cons_self).2]
      have quiet' : hasIndicator (some ' ') rest = false := by
        rw [List.replicate_succ', List.append_assoc, ← List.append_assoc] at quiet
        exact hasIndicator_after quiet
      have last' : rest.getLast? ≠ some ' ' := by
        rwa [List.getLast?_append_of_ne_nil _ (by simp), List.getLast?_append_of_ne_nil _ rest_] at last
      have shorter : rest.length < fuel := by
        simp only [List.length_append, List.length_replicate] at long
        omega
      simp only [List.append_assoc] at comment read ⊢
      rw [plainLine_word word_ (fun d listed => (parts.1 d listed).1) comment read blank stops,
        ih _ _ shorter rest_ after next last' (Or.inr rfl) quiet']
      simp only [List.length_append, List.append_assoc, Nat.add_assoc]

theorem OneLine.starts (line : OneLine cs) : startsPlain false (cs ++ more) = true := by
  obtain ⟨d, rest, rfl⟩ := List.exists_cons_of_ne_nil line.some_
  have quiet := line.quiet
  rw [hasIndicator, Bool.or_eq_false_iff] at quiet
  have mark := quiet.1
  have ends := (line.inside d List.mem_cons_self).1
  have blank : isTabOrSpace d = false := by
    have space : d ≠ ' ' := fun same => line.first (congrArg some same)
    simp [isTabOrSpace, space, (line.inside d List.mem_cons_self).2]
  simp only [isIndicator] at mark
  rw [List.cons_append, startsPlain]
  by_cases dash : d = '-'
  · rw [if_pos (Or.inr (Or.inr dash))] at mark
    rw [if_pos dash, blankNext_solid mark]
    rfl
  rw [if_neg dash]
  by_cases asks : d = '?' ∨ d = ':'
  · rw [if_pos (by rcases asks with rfl | rfl <;> decide)] at mark
    rw [if_pos asks, blankNext_solid mark]
    rfl
  rw [if_neg (by simpa [dash] using asks)] at mark
  rw [if_neg asks]
  simp [isFlowMark, blankNext, ends, blank] at mark ⊢
  simp [mark]

-- The next line does not stand deeper, so it belongs to something else.
theorem plainLines_over {indent : Int} {text : List Char} (outside : 0 ≤ indent)
    (solid : ∀ d ∈ more.head?, (isTabOrSpace d || isBreak d) = false) :
    plainLines false indent text (fuel + 1) ⟨'\n' :: more, l, k, a, h⟩ = some (text, ⟨more, l + 1, 0, a, h⟩) := by
  have gap : (['\n'] ++ more).takeWhile (fun d => isTabOrSpace d || isBreak d) = ['\n'] :=
    takeWhile_front (by simp [isBreak]) solid
  rw [List.singleton_append] at gap
  have moved : Cursor.steps ⟨'\n' :: more, l, k, a, h⟩ ['\n'].length = ⟨more, l + 1, 0, a, h⟩ := rfl
  unfold plainLines
  simp only [bind_apply, get_apply, Option.bind_some]
  rw [if_neg (by simp [isBreak])]
  simp only [bind_apply, get_apply, Option.bind_some, move_apply, gap, moved]
  rw [if_neg (by simp [tabIndents, isBreak]), if_pos (by simp [outside])]
  rfl

theorem plain_line {indent : Int} (line : OneLine cs) (outside : 0 ≤ indent) (solid : ∀ d ∈ more.head?, (isTabOrSpace d || isBreak d) = false) :
    plain false indent ⟨cs ++ '\n' :: more, l, k, a, h⟩ = some (.scalar .plain (String.ofList cs), ⟨more, l + 1, 0, a, h⟩) := by
  have long : cs.length < (cs ++ '\n' :: more).length + 1 := by
    rw [List.length_append]
    omega
  have left : (cs ++ '\n' :: more).length = (cs ++ more).length + 1 := by
    simp only [List.length_append, List.length_cons]
    omega
  unfold plain
  simp only [bind_apply, ahead_apply, Option.bind_some]
  rw [if_pos line.starts]
  simp only [bind_apply]
  rw [plainLine_line [] [] long line.some_ line.inside line.first line.last (Or.inl rfl) line.quiet]
  simp only [Option.bind_some, left]
  rw [plainLines_over outside solid]
  rfl

theorem needsEscapes_printable (plain : needsEscapes cs = false) : ∀ d ∈ cs, isPrintable d = true := by
  rw [needsEscapes, Bool.or_eq_false_iff] at plain
  intro d listed
  simpa using List.any_eq_false.mp plain.1 d listed

theorem plainAllowed_shown (allowed : plainAllowed cs = true) : ∀ d ∈ cs, isPrintable d = true := by
  simp only [plainAllowed, Bool.not_eq_true', Bool.or_eq_false_iff] at allowed
  exact needsEscapes_printable allowed.1.1.1.2

theorem OneLine.of_allowed (some_ : cs ≠ []) (allowed : plainAllowed cs = true) : OneLine cs := by
  have shown := plainAllowed_shown allowed
  simp only [plainAllowed, Bool.not_eq_true', Bool.or_eq_false_iff] at allowed
  obtain ⟨⟨⟨⟨edges, -⟩, breaks⟩, -⟩, quiet⟩ := allowed
  rw [edgeBlank, Bool.or_eq_false_iff] at edges
  refine ⟨some_, fun d listed => ⟨?_, ?_⟩, fun blank => ?_, fun blank => ?_, quiet⟩
  · simpa using List.any_eq_false.mp breaks d listed
  · rintro rfl
    exact absurd (shown '\t' listed) (by decide)
  · have first := edges.1
    rw [blank] at first
    cases first
  · have last := edges.2
    rw [blank] at last
    cases last

-- Numbers, truth values and names of fields have no other characters.
def isTame (d : Char) : Bool := d.isAlphanum || d == '.' || d == '-' || d == '_'

theorem isTame_ne {d e : Char} (tame : isTame d = true) (wild : isTame e = false) : d ≠ e := by
  rintro rfl
  rw [tame] at wild
  cases wild

theorem isTame_inside {d : Char} (tame : isTame d = true) : isBreak d = false ∧ isTabOrSpace d = false := by
  have other {e : Char} (wild : isTame e = false) : d ≠ e := isTame_ne tame wild
  have code {n : Nat} (wild : isTame (Char.ofNat n) = false) : d.toNat ≠ n := by
    rintro rfl
    exact other wild (Char.ofNat_toNat d).symm
  constructor
  · simp [isBreak, other (e := '\n') rfl, other (e := '\r') rfl, code (n := 0x85) rfl, code (n := 0x2028) rfl, code (n := 0x2029) rfl]
  · simp [isTabOrSpace, other (e := ' ') rfl, other (e := '\t') rfl]

theorem isTame_allowed {d : Char} (tame : isTame d = true) : isAllowed d = true := by
  have bounds : 0x20 ≤ d.toNat ∧ d.toNat ≤ 0x7E := by
    simp only [isTame, Bool.or_eq_true, beq_iff_eq] at tame
    rcases tame with ((alphanum | rfl) | rfl) | rfl
    · have kinds : (d.isUpper || d.isLower || d.isDigit) = true := alphanum
      rw [Bool.or_eq_true, Bool.or_eq_true] at kinds
      rcases kinds with (upper | lower) | digit
      · have between : 'A'.val ≤ d.val ∧ d.val ≤ 'Z'.val := of_decide_eq_true upper
        have low : 65 ≤ d.toNat := UInt32.le_iff_toNat_le.mp between.1
        have high : d.toNat ≤ 90 := UInt32.le_iff_toNat_le.mp between.2
        omega
      · obtain ⟨low, high⟩ := lower_bounds lower
        omega
      · obtain ⟨low, high⟩ : 48 ≤ d.toNat ∧ d.toNat ≤ 57 := code_bounds digit
        omega
    all_goals decide
  simp [isAllowed, bounds]

theorem tame_quiet {before : Char} (tame : ∀ d ∈ cs, isTame d = true) : hasIndicator (some before) cs = false := by
  induction cs generalizing before with
  | nil => rfl
  | cons d cs ih =>
    obtain ⟨first, others⟩ := List.forall_mem_cons.mp tame
    have colon : d ≠ ':' := isTame_ne first rfl
    have hash : d ≠ '#' := isTame_ne first rfl
    rw [hasIndicator, ih others]
    simp [isIndicator, colon, hash]

theorem OneLine.of_tame (some_ : cs ≠ []) (tame : ∀ d ∈ cs, isTame d = true) (first : cs.head? ≠ some '-') : OneLine cs := by
  refine ⟨some_, fun d listed => ⟨(isTame_inside (tame d listed)).1, isTame_ne (tame d listed) rfl⟩, ?_, ?_, ?_⟩
  · exact fun blank => isTame_ne (tame ' ' (List.mem_of_head? blank)) rfl rfl
  · exact fun blank => isTame_ne (tame ' ' (List.mem_of_getLast? blank)) rfl rfl
  · obtain ⟨d, rest, rfl⟩ := List.exists_cons_of_ne_nil some_
    obtain ⟨front, others⟩ := List.forall_mem_cons.mp tame
    have other {e : Char} (wild : isTame e = false) : d ≠ e := isTame_ne front wild
    have dash : d ≠ '-' := fun same => first (congrArg some same)
    have marks : ("#,[]&*!|>'\"%@`".toList.all fun e => !isTame e) = true := rfl
    have unmarked : "#,[]&*!|>'\"%@`".toList.contains d = false := by
      rw [← Bool.not_eq_true, List.contains_iff_mem]
      exact fun listed => other ((Bool.not_eq_true' _).mp (List.all_eq_true.mp marks d listed)) rfl
    rw [hasIndicator, tame_quiet others, isIndicator, if_neg (by simp [dash, other (e := '?') rfl, other (e := ':') rfl]), unmarked]
    simp [other (e := '\x7b') rfl, other (e := '\x7d') rfl]

end ToffoliBench.Yaml

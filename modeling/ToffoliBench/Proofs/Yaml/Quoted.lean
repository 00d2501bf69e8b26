import Mathlib.Data.Nat.ModEq
import ToffoliBench.Proofs.Yaml.Plain

namespace ToffoliBench.Yaml

variable {cs more text kept : List Char} {l k n fuel : Nat} {a : List (String × Node)} {h : List (String × String)}

theorem hexDigits_length (n places : Nat) : (hexDigits n places).length = places := by
  induction places generalizing n with
  | zero => rfl
  | succ places ih => rw [hexDigits, List.length_append, ih, List.length_singleton]

theorem hexDigit?_upperHex : ∀ d < 16, hexDigit? (upperHex d) = some d := by decide

theorem hexDigits_read (n places : Nat) : ∃ ds, (hexDigits n places).mapM hexDigit? = some ds ∧ ds.length = places ∧
    ds.foldl (fun n d => 16 * n + d) 0 = n % 16 ^ places := by
  induction places generalizing n with
  | zero => exact ⟨[], rfl, rfl, (Nat.mod_one n).symm⟩
  | succ places ih =>
    obtain ⟨ds, read, count, value⟩ := ih (n / 16)
    refine ⟨ds ++ [n % 16], ?_, by rw [List.length_append, count, List.length_singleton], ?_⟩
    · rw [hexDigits, List.mapM_append, read]
      simp [hexDigit?_upperHex _ (Nat.mod_lt n (by decide))]
    · rw [List.foldl_append, value, pow_succ', Nat.mod_mul]
      exact Nat.add_comm _ _

theorem hexChar?_written {c : Char} {places : Nat} (fits : c.toNat < 16 ^ places) :
    hexChar? (hexDigits c.toNat places ++ more) places = some c := by
  obtain ⟨ds, read, count, value⟩ := hexDigits_read c.toNat places
  have front : (hexDigits c.toNat places ++ more).take places = hexDigits c.toNat places :=
    List.take_left' (hexDigits_length c.toNat places)
  rw [hexChar?, front, read, Option.bind_eq_bind, Option.bind_some, value, Nat.mod_eq_of_lt fits,
    if_pos ⟨count, c.valid⟩, Char.ofNat_toNat]

theorem hexDigits_shown (n places : Nat) : ∀ d ∈ hexDigits n places, isPrintable d = true ∧ isBreak d = false := by
  have upper : ∀ d < 16, isPrintable (upperHex d) = true ∧ isBreak (upperHex d) = false := by decide
  induction places generalizing n with
  | zero => nofun
  | succ places ih =>
    rw [hexDigits, List.forall_mem_append, List.forall_mem_singleton]
    exact ⟨ih (n / 16), upper _ (Nat.mod_lt n (by decide))⟩

-- A character stands for itself, or an escape does that takes it back.
inductive Escaping (c : Char) (written : List Char) : Prop where
  | itself (same : written = [c]) (shown : isPrintable c = true) (inside : isBreak c = false) (quote : c ≠ '"') (slash : c ≠ '\\')
  | escape (rest : List Char) (same : written = '\\' :: rest) (shown : ∀ d ∈ rest, isPrintable d = true ∧ isBreak d = false)
      (back : ∀ more, escaped? (rest ++ more) = some (c, rest.length))

theorem letters_known : ∀ pair ∈ letters, escapes.lookup pair.2 = some pair.1 ∧ isPrintable pair.2 = true ∧ isBreak pair.2 = false := by decide

theorem Escaping.letter {c d : Char} (known : letters.lookup c = some d) : Escaping c ['\\', d] := by
  obtain ⟨left, right, shape, -⟩ := List.lookup_eq_some_iff.mp known
  obtain ⟨back, shown⟩ := letters_known (c, d) (by rw [shape]; exact List.mem_append_right _ List.mem_cons_self)
  refine .escape [d] rfl (List.forall_mem_singleton.mpr shown) fun more => ?_
  rw [List.singleton_append, escaped?, back]
  rfl

theorem Escaping.hex {c d : Char} {places : Nat} (fits : c.toNat < 16 ^ places) (none : escapes.lookup d = none)
    (known : hexEscapes.lookup d = some places) (shown : isPrintable d = true ∧ isBreak d = false) :
    Escaping c ('\\' :: d :: hexDigits c.toNat places) := by
  refine .escape _ rfl (List.forall_mem_cons.mpr ⟨shown, hexDigits_shown _ _⟩) fun more => ?_
  rw [List.cons_append, escaped?, none]
  simp only [known, Option.bind_eq_bind, Option.bind_some, hexChar?_written fits, List.length_cons, hexDigits_length]
  rfl

theorem escapeChar_escaping (c : Char) : Escaping c (escapeChar c) := by
  have top : c.toNat < 16 ^ 8 := c.val.toNat_lt
  unfold escapeChar
  dsimp only
  split
  · rename_i shown
    simp only [Bool.and_eq_true, Bool.not_eq_true', bne_iff_ne] at shown
    obtain ⟨⟨⟨printable, inside⟩, quote⟩, slash⟩ := shown
    exact .itself rfl printable inside quote slash
  · split
    · rename_i known
      exact .letter known
    · split
      · exact .hex (by omega) rfl rfl (by decide)
      · split
        · exact .hex (by omega) rfl rfl (by decide)
        · exact .hex top rfl rfl (by decide)

theorem doubleQuoted_close : doubleQuoted kept text (fuel + 1) ⟨'"' :: more, l, k, a, h⟩ = some (kept ++ text, ⟨more, l, k + 1, a, h⟩) := rfl

theorem doubleQuoted_inside {c : Char} (quote : c ≠ '"') (slash : c ≠ '\\') (inside : isBreak c = false) :
    doubleQuoted kept text (fuel + 1) ⟨c :: more, l, k, a, h⟩ = doubleQuoted kept (text ++ [c]) fuel ⟨more, l, k + 1, a, h⟩ := by
  rw [doubleQuoted]
  simp only [bind_apply, ahead_apply, Option.bind_some]
  rw [if_neg (by simp [inside])]
  simp only [bind_apply, move_apply, Option.bind_some, Cursor.steps, step_inside inside]

theorem doubleQuoted_escape {c : Char} {rest : List Char} (inside : ∀ d ∈ rest, isBreak d = false)
    (back : escaped? (rest ++ more) = some (c, rest.length)) (some_ : rest ≠ []) :
    doubleQuoted kept text (fuel + 1) ⟨'\\' :: (rest ++ more), l, k, a, h⟩ =
      doubleQuoted (kept ++ text ++ [c]) [] fuel ⟨more, l, k + (rest.length + 1), a, h⟩ := by
  have moved : Cursor.steps ⟨'\\' :: rest ++ more, l, k, a, h⟩ ('\\' :: rest).length = ⟨more, l, k + (rest.length + 1), a, h⟩ :=
    steps_word (List.forall_mem_cons.mpr ⟨rfl, inside⟩)
  have joins : (rest ++ more).head?.any isBreak = false := by
    obtain ⟨d, tail, rfl⟩ := List.exists_cons_of_ne_nil some_
    exact inside d List.mem_cons_self
  rw [doubleQuoted]
  simp only [bind_apply, ahead_apply, Option.bind_some]
  rw [if_neg (by rw [joins]; exact Bool.false_ne_true), back]
  simp only [bind_apply, move_apply, Option.bind_some]
  rw [← moved]
  rfl

theorem doubleQuoted_written (long : (cs.flatMap escapeChar).length < fuel) :
    ∃ k', doubleQuoted kept text fuel ⟨cs.flatMap escapeChar ++ '"' :: more, l, k, a, h⟩ =
      some (kept ++ text ++ cs, ⟨more, l, k', a, h⟩) := by
  induction cs generalizing kept text fuel k with
  | nil =>
    obtain ⟨fuel, rfl⟩ := Nat.exists_eq_add_one_of_ne_zero (Nat.ne_zero_of_lt long)
    exact ⟨k + 1, by rw [List.append_nil]; exact doubleQuoted_close⟩
  | cons c cs ih =>
    obtain ⟨fuel, rfl⟩ := Nat.exists_eq_add_one_of_ne_zero (Nat.ne_zero_of_lt long)
    rw [List.flatMap_cons] at long ⊢
    rw [List.length_append] at long
    cases escapeChar_escaping c with
    | itself same _ inside quote slash =>
      have whole : kept ++ text ++ c :: cs = kept ++ (text ++ [c]) ++ cs := by simp
      rw [same] at long ⊢
      rw [List.length_singleton] at long
      rw [List.singleton_append, List.cons_append, doubleQuoted_inside quote slash inside, whole]
      exact ih (by omega)
    | escape rest same shown back =>
      have whole : kept ++ text ++ c :: cs = kept ++ text ++ [c] ++ [] ++ cs := by simp
      have some_ : rest ≠ [] := by
        rintro rfl
        cases back []
      rw [same] at long ⊢
      rw [List.length_cons] at long
      rw [List.append_assoc, List.cons_append, doubleQuoted_escape (fun d listed => (shown d listed).2) (back _) some_, whole]
      exact ih (by omega)

theorem quoted_double : ∃ k', quoted ⟨inDouble cs ++ more, l, k, a, h⟩ = some (.scalar .quoted (String.ofList cs), ⟨more, l, k', a, h⟩) := by
  have long : (cs.flatMap escapeChar).length < (inDouble cs ++ more).length + 1 := by
    simp only [inDouble, List.length_append, List.length_cons]
    omega
  have shape : inDouble cs ++ more = '"' :: (cs.flatMap escapeChar ++ '"' :: more) := by simp [inDouble]
  rw [shape] at long ⊢
  obtain ⟨k', read⟩ : ∃ k', doubleQuoted [] [] _ ⟨cs.flatMap escapeChar ++ '"' :: more, l, k + 1, a, h⟩ =
      some (cs, ⟨more, l, k', a, h⟩) := doubleQuoted_written long
  refine ⟨k', ?_⟩
  unfold quoted
  simp only [bind_apply, ahead_apply, Option.bind_some, move_apply, Cursor.steps]
  rw [if_pos List.head?_cons, step_inside rfl]
  simp only [bind_apply, read, Option.bind_some]
  rfl

theorem hasPair_next {p q : Char → Bool} {left right : List Char} {c d : Char} (apart : hasPair p q (left ++ c :: d :: right) = false)
    (front : p c = true) : q d = false := by
  induction left with
  | nil =>
    rw [List.nil_append, hasPair, Bool.or_eq_false_iff, front] at apart
    exact apart.1
  | cons e left ih =>
    cases left with
    | nil =>
      rw [List.cons_append, List.nil_append, hasPair, Bool.or_eq_false_iff] at apart
      exact ih apart.2
    | cons f left =>
      rw [List.cons_append, List.cons_append, hasPair, Bool.or_eq_false_iff] at apart
      exact ih apart.2

theorem hasPair_joint {p q : Char → Bool} {left right : List Char} {d e : Char} (apart : hasPair p q (left ++ d :: right) = false)
    (last : left.getLast? = some e) (front : p e = true) : q d = false := by
  obtain ⟨before, rfl⟩ := List.getLast?_eq_some_iff.mp last
  rw [List.append_assoc, List.singleton_append] at apart
  exact hasPair_next apart front

theorem singleChars_breaks {breaks : List Char} {deep : Bool} (ends : ∀ d ∈ breaks, isBreak d = true) (some_ : breaks ≠ []) :
    singleChars deep (breaks ++ cs) = breaks ++ singleChars true cs := by
  induction breaks generalizing deep with
  | nil => exact absurd rfl some_
  | cons d breaks ih =>
    obtain ⟨first, others⟩ := List.forall_mem_cons.mp ends
    rw [List.cons_append, singleChars, if_pos first]
    cases breaks with
    | nil => rfl
    | cons e breaks =>
      rw [ih others (List.cons_ne_nil e breaks)]
      rfl

theorem singleChars_line (inside : ∀ d ∈ cs.head?, isBreak d = false) : singleChars true cs = [' ', ' '] ++ singleChars false cs := by
  cases cs with
  | nil => rfl
  | cons d cs =>
    have first : isBreak d = false := inside d rfl
    simp [singleChars, first]

theorem folded_marks {breaks : List Char} (marks : '\n' ∉ breaks) : folded breaks = breaks := by
  cases breaks with
  | nil => rfl
  | cons d breaks =>
    have other : d ≠ '\n' := fun same => marks (same ▸ List.mem_cons_self)
    rw [folded, if_pos other]

-- Breaks inside quotes are kept; the two blanks after them are not.
theorem foldQuoted_marks {breaks : List Char} (some_ : breaks ≠ []) (ends : ∀ d ∈ breaks, isBreak d = true) (marks : '\n' ∉ breaks)
    (last : ∀ d ∈ text.getLast?, isTabOrSpace d = false) (solid : ∀ d ∈ more.head?, (isTabOrSpace d || isBreak d) = false) :
    ∃ l', foldQuoted text ⟨breaks ++ ([' ', ' '] ++ more), l, k, a, h⟩ = some (text ++ breaks, ⟨more, l', 2, a, h⟩) := by
  have gap : (breaks ++ [' ', ' '] ++ more).takeWhile (fun d => isTabOrSpace d || isBreak d) = breaks ++ [' ', ' '] := by
    refine takeWhile_front (List.forall_mem_append.mpr ⟨fun d listed => ?_, by simp [isTabOrSpace]⟩) solid
    rw [ends d listed, Bool.or_true]
  have only : (breaks ++ [' ', ' ']).filter isBreak = breaks := by
    rw [List.filter_append, List.filter_eq_self.mpr ends]
    simp [isBreak]
  have kept : (text.reverse.dropWhile isTabOrSpace).reverse = text := by
    cases reversed : text.reverse with
    | nil => rw [List.reverse_eq_nil_iff.mp reversed]; rfl
    | cons d rest =>
      have final : text.getLast? = some d := by rw [← List.head?_reverse, reversed]; rfl
      rw [List.dropWhile_cons_of_neg (by simp [last d final]), ← reversed, List.reverse_reverse]
  obtain ⟨l', k', moved, start⟩ : ∃ l' k', Cursor.steps ⟨breaks ++ ([' ', ' '] ++ more), l, k, a, h⟩ breaks.length =
    ⟨[' ', ' '] ++ more, l', k', a, h⟩ ∧ (k' = 0 ∨ breaks = []) := steps_breaks ends
  obtain rfl := start.resolve_right some_
  have blanks : Cursor.steps ⟨[' ', ' '] ++ more, l', 0, a, h⟩ [' ', ' '].length = ⟨more, l', 0 + 2, a, h⟩ := steps_word (by simp [isBreak])
  refine ⟨l', ?_⟩
  rw [← List.append_assoc]
  simp only [foldQuoted, breaksAhead, bind_apply, ahead_apply, Option.bind_some, move_apply, get_apply]
  rw [gap, List.length_append, steps_add, List.append_assoc, moved, blanks]
  simp [Cursor.atBound, only, kept, folded_marks marks]

theorem singleQuoted_close (closed : more.head? ≠ some '\'') :
    singleQuoted text (fuel + 1) ⟨'\'' :: more, l, k, a, h⟩ = some (text, ⟨more, l, k + 1, a, h⟩) := by
  rw [singleQuoted]
  simp only [bind_apply, ahead_apply, Option.bind_some]
  generalize whole : '\'' :: more = cs
  split
  · cases whole
  · obtain ⟨-, rfl⟩ := List.cons.inj whole
    exact absurd rfl closed
  · obtain ⟨-, rfl⟩ := List.cons.inj whole
    rfl
  · rename_i none
    exact absurd (List.cons.inj whole).1.symm none

theorem singleQuoted_quote : singleQuoted text (fuel + 1) ⟨'\'' :: '\'' :: more, l, k, a, h⟩ =
    singleQuoted (text ++ ['\'']) fuel ⟨more, l, k + 2, a, h⟩ := rfl

theorem singleQuoted_other {c : Char} (quote : c ≠ '\'') : singleQuoted text (fuel + 1) ⟨c :: more, l, k, a, h⟩ =
    if isBreak c then (foldQuoted text ⟨c :: more, l, k, a, h⟩).bind fun done => singleQuoted done.1 fuel done.2
    else singleQuoted (text ++ [c]) fuel ⟨more, l, k + 1, a, h⟩ := by
  rw [singleQuoted]
  simp only [bind_apply, ahead_apply, Option.bind_some]
  generalize whole : c :: more = cs
  split
  · cases whole
  · exact absurd (List.cons.inj whole).1 quote
  · exact absurd (List.cons.inj whole).1 quote
  · obtain ⟨rfl, rfl⟩ := List.cons.inj whole
    cases ends : isBreak c with
    | true => rfl
    | false =>
      rw [if_neg Bool.false_ne_true, if_neg Bool.false_ne_true, ← step_inside ends]
      rfl

theorem singleChars_solid (solid : ∀ d ∈ cs.head?, isTabOrSpace d = false ∧ isBreak d = false) :
    ∀ d ∈ (singleChars false cs ++ '\'' :: more).head?, (isTabOrSpace d || isBreak d) = false := by
  cases cs with
  | nil =>
    rintro d ⟨⟩
    rfl
  | cons c cs =>
    obtain ⟨blank, ends⟩ := solid c rfl
    have written : singleChars false (c :: cs) = (if c = '\'' then ['\'', '\''] else [c]) ++ singleChars false cs := by
      simp [singleChars, ends]
    rw [written]
    split
    · rintro d ⟨⟩
      rfl
    · rintro d ⟨⟩
      rw [blank, ends, Bool.or_self]

theorem unblank_shown {d : Char} (shown : isPrintable d = true) (space : isSpace d = false) : isTabOrSpace d = false := by
  have tab : d ≠ '\t' := by
    rintro rfl
    cases shown
  have other : d ≠ ' ' := by
    rintro rfl
    cases space
  simp [isTabOrSpace, tab, other]

theorem singleQuoted_run {breaks : List Char} (some_ : breaks ≠ []) (ends : ∀ d ∈ breaks, isBreak d = true) (marks : '\n' ∉ breaks)
    (last : ∀ d ∈ text.getLast?, isTabOrSpace d = false) (solid : ∀ d ∈ more.head?, (isTabOrSpace d || isBreak d) = false) :
    ∃ l', singleQuoted text (fuel + 1) ⟨breaks ++ ([' ', ' '] ++ more), l, k, a, h⟩ = singleQuoted (text ++ breaks) fuel ⟨more, l', 2, a, h⟩ := by
  obtain ⟨l', fold⟩ := foldQuoted_marks (l := l) (k := k) (a := a) (h := h) some_ ends marks last solid
  obtain ⟨c, others, rfl⟩ := List.exists_cons_of_ne_nil some_
  have first := ends c List.mem_cons_self
  have quote : c ≠ '\'' := by
    rintro rfl
    cases first
  rw [List.cons_append] at fold ⊢
  rw [singleQuoted_other quote, if_pos first, fold]
  exact ⟨l', rfl⟩

-- No blank stands on either side of a run of breaks.
theorem unblank_before (shown : ∀ d ∈ text, isPrintable d = true) (unspaced : hasPair isSpace isBreak (text ++ c :: cs) = false)
    (ends : isBreak c = true) : ∀ d ∈ text.getLast?, isTabOrSpace d = false := by
  intro d final
  refine unblank_shown (shown d (List.mem_of_getLast? final)) (Bool.not_eq_true _ ▸ fun space => ?_)
  rw [hasPair_joint unspaced final space] at ends
  cases ends

theorem unblank_after {breaks tail : List Char} (shown : ∀ d ∈ tail, isPrintable d = true) (some_ : breaks ≠ [])
    (apart : hasPair isBreak isSpace (text ++ breaks ++ tail) = false) (run : ∀ d ∈ breaks, isBreak d = true) :
    ∀ d ∈ tail.head?, isTabOrSpace d = false := by
  intro d first
  have listed := List.mem_of_mem_head? first
  obtain ⟨after, rfl⟩ := List.head?_eq_some_iff.mp first
  obtain ⟨e, final⟩ := Option.isSome_iff_exists.mp (List.getLast?_isSome.mpr some_)
  have before : (text ++ breaks).getLast? = some e := by rw [List.getLast?_append_of_ne_nil _ some_, final]
  exact unblank_shown (shown d listed) (hasPair_joint apart before (run e (List.mem_of_getLast? final)))

-- The text goes over into what was read of it piece by piece; a run of breaks is one piece.
theorem singleQuoted_written (long : (singleChars false cs).length < fuel) (shown : ∀ d ∈ text ++ cs, isPrintable d = true)
    (unspaced : hasPair isSpace isBreak (text ++ cs) = false) (apart : hasPair isBreak isSpace (text ++ cs) = false)
    (lines : '\n' ∉ text ++ cs) (closed : more.head? ≠ some '\'') :
    ∃ l' k', singleQuoted text fuel ⟨singleChars false cs ++ '\'' :: more, l, k, a, h⟩ = some (text ++ cs, ⟨more, l', k', a, h⟩) := by
  induction fuel generalizing text cs l k with
  | zero => exact absurd long (Nat.not_lt_zero _)
  | succ fuel ih =>
    cases cs with
    | nil => exact ⟨l, k + 1, by rw [List.append_nil]; exact singleQuoted_close closed⟩
    | cons c rest =>
      cases ends : isBreak c with
      | false =>
        have whole : text ++ c :: rest = text ++ [c] ++ rest := by simp
        have written : singleChars false (c :: rest) = (if c = '\'' then ['\'', '\''] else [c]) ++ singleChars false rest := by
          simp [singleChars, ends]
        rw [written] at long ⊢
        rw [whole] at shown unspaced apart lines ⊢
        by_cases quote : c = '\''
        · rw [if_pos quote] at long ⊢
          subst quote
          rw [List.append_assoc, List.cons_append, List.cons_append, List.nil_append, singleQuoted_quote]
          exact ih (by simp only [List.length_append, List.length_cons] at long; omega) shown unspaced apart lines
        · rw [if_neg quote] at long ⊢
          rw [List.singleton_append, List.cons_append, singleQuoted_other quote, ends, if_neg Bool.false_ne_true]
          exact ih (by simp only [List.length_append, List.length_cons] at long; omega) shown unspaced apart lines
      | true =>
        have last := unblank_before (fun d listed => shown d (List.mem_append_left _ listed)) unspaced ends
        have starts : ∀ d ∈ (c :: rest).head?, isBreak d = true := by
          rintro d ⟨⟩
          exact ends
        obtain ⟨breaks, tail, shape, some_, run, inside⟩ := first_run (List.cons_ne_nil c rest) starts
        have written : singleChars false (c :: rest) = breaks ++ ([' ', ' '] ++ singleChars false tail) := by
          rw [shape, singleChars_breaks run some_, singleChars_line inside]
        rw [written] at long ⊢
        rw [shape, ← List.append_assoc] at shown unspaced apart lines
        rw [shape, ← List.append_assoc text]
        have solid : ∀ d ∈ tail.head?, isTabOrSpace d = false ∧ isBreak d = false := fun d first =>
          ⟨unblank_after (fun d listed => shown d (List.mem_append_right _ listed)) some_ apart run d first, inside d first⟩
        have marks : '\n' ∉ breaks := fun listed => lines (List.mem_append_left _ (List.mem_append_right _ listed))
        have shorter : (singleChars false tail).length < fuel := by
          simp only [List.length_append, List.length_cons] at long
          omega
        obtain ⟨l', read⟩ : ∃ l', singleQuoted text (fuel + 1) ⟨breaks ++ ([' ', ' '] ++ (singleChars false tail ++ '\'' :: more)), l, k, a, h⟩ =
          singleQuoted (text ++ breaks) fuel ⟨singleChars false tail ++ '\'' :: more, l', 2, a, h⟩ :=
            singleQuoted_run some_ run marks last (singleChars_solid solid)
        rw [List.append_assoc breaks, List.append_assoc [' ', ' '], read]
        exact ih shorter shown unspaced apart lines

theorem quoted_single (allowed : singleAllowed cs = true) (lines : '\n' ∉ cs) (closed : more.head? ≠ some '\'') :
    ∃ l' k', quoted ⟨inSingle cs ++ more, l, k, a, h⟩ = some (.scalar .quoted (String.ofList cs), ⟨more, l', k', a, h⟩) := by
  rw [singleAllowed, Bool.not_eq_true', Bool.or_eq_false_iff] at allowed
  have long : (singleChars false cs).length < (inSingle cs ++ more).length + 1 := by
    simp only [inSingle, List.length_append, List.length_cons]
    omega
  have shape : inSingle cs ++ more = '\'' :: (singleChars false cs ++ '\'' :: more) := by simp [inSingle]
  rw [shape] at long ⊢
  have unspaced : hasPair isSpace isBreak cs = false := (Bool.or_eq_false_iff.mp allowed.1).2
  obtain ⟨l', k', read⟩ : ∃ l' k', singleQuoted [] _ ⟨singleChars false cs ++ '\'' :: more, l, k + 1, a, h⟩ = some (cs, ⟨more, l', k', a, h⟩) :=
    singleQuoted_written long (needsEscapes_printable allowed.1) unspaced allowed.2 lines closed
  refine ⟨l', k', ?_⟩
  unfold quoted
  simp only [bind_apply, ahead_apply, Option.bind_some, move_apply, Cursor.steps]
  rw [if_neg (by simp), step_inside rfl]
  simp only [bind_apply, read, Option.bind_some]
  rfl

end ToffoliBench.Yaml

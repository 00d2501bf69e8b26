import ToffoliBench.Proofs.Settings.Validity
import ToffoliBench.Proofs.Yaml.Values
import ToffoliBench.Settings.Reading

namespace ToffoliBench.Settings

open Yaml

variable {s t : Settings} {field text : String} {update : Settings → Settings} {cs : List Char} {ns : List ℕ} {n : ℕ} {seen : List String}

-- One field as it is written, and what reading it does to the settings.
structure Row where
  entry : Field
  update : Settings → Settings

structure Row.Sound (r : Row) : Prop where
  entry : r.entry.Sound
  listed : r.entry.key ∈ fields
  assigned : ∀ t, assign t r.entry.key r.entry.node = some (r.update t)

theorem field_isName (listed : field ∈ fields) : IsName field.toList := by
  have all : (fields.all fun field => !field.toList.isEmpty && field.toList.all isTame && field.toList.head?.all Char.isLower &&
    decide (field.toList.length ≤ 1024)) = true := by decide
  have named := List.all_eq_true.mp all field listed
  simp only [Bool.and_eq_true, decide_eq_true_iff, Bool.not_eq_true', List.isEmpty_eq_false_iff, Option.all_eq_true, List.all_eq_true] at named
  obtain ⟨⟨⟨some_, tame⟩, lower⟩, short⟩ := named
  exact ⟨some_, tame, lower, short⟩

-- The rows of a document set their fields one after the other.
theorem assignAll_rows {rows : List Row} (sound : ∀ r ∈ rows, r.Sound) (once : (rows.map (·.entry.key)).Nodup)
    (unseen : ∀ r ∈ rows, r.entry.key ∉ seen) :
    assignAll t seen (rows.map (·.entry.pair)) = some (rows.foldl (fun t r => r.update t) t) := by
  induction rows generalizing t seen with
  | nil => rfl
  | cons r rows ih =>
    obtain ⟨now, others⟩ := List.forall_mem_cons.mp sound
    obtain ⟨new, later⟩ := List.forall_mem_cons.mp unseen
    rw [List.map_cons, List.nodup_cons] at once
    have apart : ∀ q ∈ rows, q.entry.key ∉ r.entry.key :: seen := by
      intro q listed among
      rcases List.mem_cons.mp among with same | old
      · exact once.1 (same ▸ List.mem_map_of_mem listed)
      · exact later q listed old
    have unread : seen.contains r.entry.key = false := by
      rw [← Bool.not_eq_true, List.contains_iff_mem]
      exact new
    have known : fields.contains r.entry.key = true := List.contains_iff_mem.mpr now.listed
    rw [List.map_cons, Field.pair, assignAll]
    simp only [text?, Node.untagged, Option.bind_eq_bind, Option.bind_some]
    rw [unread, if_neg Bool.false_ne_true, now.assigned t, Option.bind_some, if_pos known]
    exact ih others once.2 apart

def wordRow (field value : String) (update : Settings → Settings) : Row :=
  ⟨⟨field, ' ' :: (value.toList ++ ['\n']), .scalar .plain value⟩, update⟩

def listRow (field : String) (ns : List ℕ) (update : Settings → Settings) : Row :=
  ⟨⟨field, '\n' :: itemChars (ns.map Text.ofNat), .sequence ((ns.map Text.ofNat).map plainNode)⟩, update⟩

def textRow (field text : String) (update : Settings → Settings) : Row :=
  ⟨⟨field, textWritten text, .scalar (textStyle text) text⟩, update⟩

theorem wordRow_sound (listed : field ∈ fields) (line : OneLine text.toList) (allowed : ∀ d ∈ text.toList, isAllowed d = true)
    (assigned : ∀ t, assign t field (.scalar .plain text) = some (update t)) : (wordRow field text update).Sound := by
  have stands := Stands.plain line allowed
  rw [String.ofList_toList] at stands
  exact ⟨⟨field_isName listed, stands⟩, listed, assigned⟩

theorem textRow_sound (listed : field ∈ fields) (assigned : ∀ t node, text? node = some text → assign t field node = some (update t)) :
    (textRow field text update).Sound :=
  ⟨⟨field_isName listed, text_stands text⟩, listed, fun t => assigned t _ rfl⟩

theorem number_allowed (n : ℕ) : ∀ d ∈ Text.ofNat n, isAllowed d = true := fun d listed =>
  isTame_allowed (isTame_digit (Text.ofNat_digits d listed))

theorem number_chars (n : ℕ) : (numberText n).toList = Text.ofNat n := String.toList_ofList

theorem words?_numbers (small : ∀ n ∈ ns, n ≤ Range.maxWord) : words? (.sequence ((ns.map Text.ofNat).map plainNode)) = some ns := by
  show ((ns.map Text.ofNat).map plainNode).mapM word? = some ns
  induction ns with
  | nil => rfl
  | cons n ns ih =>
    obtain ⟨first, others⟩ := List.forall_mem_cons.mp small
    have read : word? (plainNode (Text.ofNat n)) = some n := nat?_word first
    rw [List.map_cons, List.map_cons, List.mapM_cons, read, ih others]
    rfl

theorem listRow_sound (listed : field ∈ fields) (some_ : ns ≠ []) (small : ∀ n ∈ ns, n ≤ Range.maxWord)
    (assigned : ∀ t node, words? node = some ns → assign t field node = some (update t)) : (listRow field ns update).Sound := by
  have lines : ∀ word ∈ ns.map Text.ofNat, OneLine word := by
    intro word among
    obtain ⟨n, _, rfl⟩ := List.mem_map.mp among
    exact number_line n
  have allowed : ∀ word ∈ ns.map Text.ofNat, ∀ d ∈ word, isAllowed d = true := by
    intro word among
    obtain ⟨n, _, rfl⟩ := List.mem_map.mp among
    exact number_allowed n
  have stands := Stands.list (by simpa using some_) lines allowed
  exact ⟨⟨field_isName listed, stands⟩, listed, fun t => assigned t _ (words?_numbers small)⟩

theorem numberText_line (n : ℕ) : OneLine (numberText n).toList := by
  rw [number_chars]
  exact number_line n

theorem numberText_allowed (n : ℕ) : ∀ d ∈ (numberText n).toList, isAllowed d = true := by
  rw [number_chars]
  exact number_allowed n

theorem numberRow_sound (listed : field ∈ fields) (small : n ≤ Range.maxWord)
    (assigned : ∀ t node, word? node = some n → assign t field node = some (update t)) : (wordRow field (numberText n) update).Sound :=
  wordRow_sound listed (numberText_line n) (numberText_allowed n) fun t => assigned t _ (nat?_word small)

theorem tameRow_sound (listed : field ∈ fields) (some_ : text.toList ≠ []) (tame : text.toList.all isTame = true)
    (undashed : text.toList.head? ≠ some '-') (assigned : ∀ t, assign t field (.scalar .plain text) = some (update t)) :
    (wordRow field text update).Sound := by
  have each := List.all_eq_true.mp tame
  exact wordRow_sound listed (.of_tame some_ each undashed) (fun d among => isTame_allowed (each d among)) assigned

theorem flagRow_sound {b : Bool} (listed : field ∈ fields) (assigned : ∀ t node, flag? node = some b → assign t field node = some (update t)) :
    (wordRow field (flagText b) update).Sound := by
  cases b with
  | false => exact tameRow_sound listed (by decide) rfl (by decide) fun t => assigned t _ rfl
  | true => exact tameRow_sound listed (by decide) rfl (by decide) fun t => assigned t _ rfl

theorem policyRow_sound {policy : TimeoutPolicy} (listed : field ∈ fields)
    (assigned : ∀ t node, policy? node = some policy → assign t field node = some (update t)) : (wordRow field policy.name update).Sound := by
  cases policy with
  | symmetric => exact tameRow_sound listed (by decide) rfl (by decide) fun t => assigned t _ rfl
  | secondOnly => exact tameRow_sound listed (by decide) rfl (by decide) fun t => assigned t _ rfl

-- A number is not what stands for no number.
theorem seed?_number (small : n ≤ Range.maxWord) : seed? (.scalar .plain (numberText n)) = some (some n) := by
  have other {s : String} (wild : s.toList.head?.any Char.isDigit = false) : numberText n ≠ s := by
    rintro rfl
    obtain ⟨c, rest, shape, digit⟩ := Text.ofNat_cons n
    rw [number_chars, shape] at wild
    exact absurd digit (by simpa using wild)
  have something : isNothing (numberText n) = false := by
    simp only [isNothing, isNull, Bool.or_eq_false_iff, beq_eq_false_iff_ne]
    exact ⟨other rfl, ⟨⟨other rfl, other rfl⟩, other rfl⟩, other rfl⟩
  have read : nat? (numberText n) = some n := nat?_word small
  rw [seed?, something, if_neg Bool.false_ne_true, read]
  rfl

theorem seedRow_sound {seed : Option ℕ} (listed : field ∈ fields) (small : ∀ n ∈ seed, n ≤ Range.maxWord)
    (assigned : ∀ t node, seed? node = some seed → assign t field node = some (update t)) :
    (wordRow field ((seed.map numberText).getD "null") update).Sound := by
  cases seed with
  | none => exact tameRow_sound listed (by decide) rfl (by decide) fun t => assigned t _ rfl
  | some n => exact wordRow_sound listed (numberText_line n) (numberText_allowed n) fun t => assigned t _ (seed?_number (small n rfl))

theorem fractionRow_sound {x : Float} (listed : field ∈ fields) (proper : (x > 0 && x < 1) = true)
    (assigned : ∀ t node, fraction? node = some x → assign t field node = some (update t)) :
    (wordRow field (Decimal.marked x) update).Sound := by
  rw [Bool.and_eq_true, decide_eq_true_iff, decide_eq_true_iff] at proper
  obtain ⟨positive, below⟩ := proper
  have finite := Decimal.finite_between positive below
  have read : fraction? (.scalar .plain (Decimal.marked x)) = some x := Decimal.float?_marked finite positive
  exact wordRow_sound listed (fraction_line finite positive)
    (fun d among => isTame_allowed (fraction_tame finite positive d among)) fun t => assigned t _ read

-- What the numbers of a program that counts in words can be.
structure Worded (s : Settings) : Prop where
  qubits : ∀ n ∈ s.qubits, n ≤ Range.maxWord
  nots : ∀ n ∈ s.nots, n ≤ Range.maxWord
  cnots : ∀ n ∈ s.cnots, n ≤ Range.maxWord
  toffolis : ∀ n ∈ s.toffolis, n ≤ Range.maxWord
  samples : s.samples ≤ Range.maxWord
  workers : s.workers ≤ Range.maxWord
  timeout : s.timeoutSeconds ≤ Range.maxWord
  seed : ∀ n ∈ s.masterSeed, n ≤ Range.maxWord

def rows (s : Settings) : List Row :=
  [listRow "qubits" s.qubits fun t => { t with qubits := s.qubits },
    listRow "nots" s.nots fun t => { t with nots := s.nots },
    listRow "cnots" s.cnots fun t => { t with cnots := s.cnots },
    listRow "toffolis" s.toffolis fun t => { t with toffolis := s.toffolis },
    wordRow "samples" (numberText s.samples) fun t => { t with samples := s.samples },
    wordRow "workers" (numberText s.workers) fun t => { t with workers := s.workers },
    wordRow "timeout_secs" (numberText s.timeoutSeconds) fun t => { t with timeoutSeconds := s.timeoutSeconds },
    wordRow "timeout_policy" s.timeoutPolicy.name fun t => { t with timeoutPolicy := s.timeoutPolicy },
    textRow "solver" s.solver fun t => { t with solver := s.solver },
    textRow "input_dir" s.inputDir fun t => { t with inputDir := s.inputDir },
    textRow "output_dir" s.outputDir fun t => { t with outputDir := s.outputDir },
    wordRow "target_fraction" (Decimal.marked s.targetFraction) fun t => { t with targetFraction := s.targetFraction },
    wordRow "allow_not_in_target_range" (flagText s.allowNotInTargetRange) fun t =>
      { t with allowNotInTargetRange := s.allowNotInTargetRange },
    wordRow "allow_cnot_in_target_range" (flagText s.allowCnotInTargetRange) fun t =>
      { t with allowCnotInTargetRange := s.allowCnotInTargetRange },
    wordRow "allow_ctrl_in_target_range" (flagText s.allowControlInTargetRange) fun t =>
      { t with allowControlInTargetRange := s.allowControlInTargetRange },
    wordRow "master_seed" ((s.masterSeed.map numberText).getD "null") fun t => { t with masterSeed := s.masterSeed }]

theorem rows_fields : (rows s).map (·.entry.key) = fields := rfl

-- Every field is among the rows, so nothing of the defaults is left.
theorem rows_complete : (rows s).foldl (fun t r => r.update t) {} = s := by
  cases s
  simp only [rows, List.foldl_cons, List.foldl_nil, wordRow, listRow, textRow]

theorem rows_sound (valid : s.Valid) (worded : s.Worded) : ∀ r ∈ rows s, r.Sound := by
  have listed (i : Fin 16) : fields.get i ∈ fields := List.get_mem fields i
  simp only [rows, List.forall_mem_cons]
  refine ⟨listRow_sound (listed 0) valid.qubits worded.qubits ?_, listRow_sound (listed 1) valid.nots worded.nots ?_,
    listRow_sound (listed 2) valid.cnots worded.cnots ?_, listRow_sound (listed 3) valid.toffolis worded.toffolis ?_,
    numberRow_sound (listed 4) worded.samples ?_, numberRow_sound (listed 5) worded.workers ?_,
    numberRow_sound (listed 6) worded.timeout ?_, policyRow_sound (listed 7) ?_,
    textRow_sound (listed 8) ?_, textRow_sound (listed 9) ?_, textRow_sound (listed 10) ?_, fractionRow_sound (listed 11) valid.fraction ?_,
    flagRow_sound (listed 12) ?_, flagRow_sound (listed 13) ?_, flagRow_sound (listed 14) ?_, seedRow_sound (listed 15) worded.seed ?_, nofun⟩
  all_goals
    intro t node read
    simp [assign, read]

theorem line_chars (field value : String) : (line field value).toList = (wordRow field value update).entry.chars := by
  simp [line, wordRow, Field.chars, String.toList_append]

theorem textLine_chars (field value : String) : (textLine field value).toList = (textRow field value update).entry.chars := by
  unfold textLine textRow Field.chars textWritten
  dsimp only
  split <;> simp [String.toList_append]

theorem listLines_chars (some_ : ns ≠ []) : (listLines field ns).toList = (listRow field ns update).entry.chars := by
  rw [listLines, if_neg some_]
  simp [listRow, Field.chars, String.toList_append, String.toList_join, itemChars, List.flatMap_map, numberText]

theorem toYaml_rows (valid : s.Valid) : s.toYaml.toList = ((rows s).map Row.entry).flatMap Field.chars := by
  simp only [rows, List.map_cons, List.map_nil, List.flatMap_cons, List.flatMap_nil, ← listLines_chars valid.qubits,
    ← listLines_chars valid.nots, ← listLines_chars valid.cnots, ← listLines_chars valid.toffolis, ← line_chars, ← textLine_chars]
  simp only [toYaml, String.toList_append, List.append_assoc, List.append_nil]

theorem decode?_toYaml (valid : s.Valid) (worded : s.Worded) : decode? s.toYaml = some s := by
  have sound := rows_sound valid worded
  have entries : ∀ e ∈ (rows s).map Row.entry, e.Sound := by
    intro e among
    obtain ⟨r, listed, rfl⟩ := List.mem_map.mp among
    exact (sound r listed).entry
  have once : ((rows s).map (·.entry.key)).Nodup := by
    rw [rows_fields]
    decide
  have some_ : (rows s).map Row.entry ≠ [] := List.cons_ne_nil _ _
  have document := read_written some_ entries
  rw [← toYaml_rows valid, String.ofList_toList, List.map_map] at document
  have assigned := assignAll_rows (t := {}) sound once fun _ _ => List.not_mem_nil
  rw [rows_complete] at assigned
  rw [decode?, document]
  exact assigned

-- Settings that pass their check come back from the file they are written to.
theorem ofYaml_toYaml (valid : s.validate = .ok ()) (worded : s.Worded) : ofYaml s.toYaml = .ok s := by
  rw [ofYaml, decode?_toYaml (validate_ok.mp valid) worded]
  dsimp only
  rw [valid]
  rfl

-- Texts that another reader would take for nothing, for a list and for a number.
def disguised : Settings :=
  { qubits := [0, 18446744073709551615], timeoutPolicy := .secondOnly, solver := "null", inputDir := "- a: b\n # c\n", outputDir := "0x1F",
    targetFraction := 0.1, masterSeed := some 18446744073709551615 }

theorem ofYaml_disguised : disguised.validate = .ok () ∧ disguised.Worded ∧ ofYaml disguised.toYaml = .ok disguised := by
  have valid : disguised.validate = .ok () := rfl
  have worded : disguised.Worded := by constructor <;> decide
  exact ⟨valid, worded, ofYaml_toYaml valid worded⟩

end ToffoliBench.Settings

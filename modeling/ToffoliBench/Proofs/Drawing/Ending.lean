import ToffoliBench.Proofs.Drawing.Acceptance
import ToffoliBench.Proofs.Drawing.Reload

namespace ToffoliBench.Drawing

open Outcome

-- One graph, from its name to the brace that closes it, and nothing else.
def OneGraph (ts : List Token) : Prop :=
  ∃ inside items, SpellsAll inside items ∧ ts = .graph :: .openBrace :: (inside ++ [.closeBrace])

section Grammar

variable {ts rest inside : List Token} {attrs : Attributes} {item : Item} {items : List Item}

theorem Attributed.unclosed (written : Attributed ts attrs) : Token.closeBrace ∉ ts := by
  induction written with
  | none => exact List.not_mem_nil
  | @more key value token comma ts attrs taken optional _ ih =>
    have other : Token.closeBrace ≠ token := by
      rintro rfl
      cases taken
    cases optional with
    | inl none => simp [none, other, ih]
    | inr one => simp [one, other, ih]

theorem Listed.unclosed (written : Listed ts attrs) : Token.closeBrace ∉ ts := by
  cases written with
  | absent => exact List.not_mem_nil
  | bracketed inside => simp [inside.unclosed]

theorem Spells.unclosed (spelled : Spells ts item) : Token.closeBrace ∉ ts := by
  cases spelled with
  | vertex list => simp [list.unclosed]
  | edge list => simp [list.unclosed]

theorem SpellsAll.unclosed (spelled : SpellsAll ts items) : Token.closeBrace ∉ ts := by
  induction spelled with
  | nil => exact List.not_mem_nil
  | semicolon _ ih => simp [ih]
  | cons first _ ih => simp [first.unclosed, ih]

theorem SpellsAll.front (spelled : SpellsAll inside items) : (inside ++ .closeBrace :: rest).takeWhile (· != .closeBrace) = inside := by
  have open_ : ∀ t ∈ inside, (t != Token.closeBrace) = true := by
    intro t held
    rw [bne_iff_ne]
    rintro rfl
    exact spelled.unclosed held
  rw [List.takeWhile_append_of_pos open_]
  simp

-- So a text begins with at most one graph.
theorem OneGraph.beginning {graph other more : List Token} (left : OneGraph graph) (right : OneGraph other)
    (same : graph ++ rest = other ++ more) : graph = other ∧ rest = more := by
  obtain ⟨inside, items, spelled, rfl⟩ := left
  obtain ⟨inside', items', spelled', rfl⟩ := right
  simp only [List.cons_append, List.append_assoc, List.nil_append, List.cons.injEq, true_and] at same
  have front := congrArg (List.takeWhile (· != Token.closeBrace)) same
  rw [spelled.front, spelled'.front] at front
  obtain rfl := front
  exact ⟨rfl, List.cons.inj (List.append_cancel_left same) |>.2⟩

theorem OneGraph.last (whole : OneGraph ts) : Token.closeBrace ∉ ts.dropLast := by
  obtain ⟨inside, items, spelled, rfl⟩ := whole
  rw [← List.cons_append, ← List.cons_append, List.dropLast_concat]
  simp [spelled.unclosed]

end Grammar

namespace Token

variable {c : Char} {cs ds taken more : List Char} {ts us : List Token}

theorem runLength_line {p : Char → Bool} (stops : p '\n' = false) : runLength p (cs ++ '\n' :: ds) = runLength p cs := by
  induction cs with
  | nil => simp [runLength, stops]
  | cons c rest ih =>
    unfold runLength at *
    cases holds : p c <;> simp [holds, ih]

theorem runLength_stopped {p : Char → Bool} {d : Char} (ds : List Char) (held : d ∈ cs) (stops : p d = false) :
    runLength p (cs ++ ds) = runLength p cs ∧ runLength p cs < cs.length := by
  induction cs with
  | nil => cases held
  | cons c rest ih =>
    unfold runLength at *
    cases holds : p c with
    | false => simp [holds]
    | true =>
      rcases List.mem_cons.mp held with rfl | later
      · rw [stops] at holds
        cases holds
      · simp [holds, ih later]

-- A token ends where the line ends, whatever comes on the next.
theorem extent_line (solid : isSpace c = false) (valid : piece c taken ≠ .invalid)
    (extends_ : extent c (taken ++ more) = taken.length) : extent c (taken ++ (more ++ '\n' :: ds)) = taken.length := by
  unfold extent at extends_ ⊢
  unfold piece at valid
  rw [solid, if_neg Bool.false_ne_true] at extends_ valid ⊢
  by_cases digit : c.isDigit = true
  · rw [if_pos digit] at extends_ ⊢
    rwa [← List.append_assoc, runLength_line rfl]
  rw [if_neg digit] at extends_ valid ⊢
  by_cases word : startsWord c = true
  · rw [if_pos word] at extends_ ⊢
    rwa [← List.append_assoc, runLength_line rfl]
  rw [if_neg word] at extends_ valid ⊢
  by_cases quote : c = '"'
  · rw [if_pos quote] at extends_ valid ⊢
    have closed : '"' ∈ taken := List.mem_of_getLast? (by_contra fun other => valid (if_neg other))
    obtain ⟨same, inside⟩ := runLength_stopped (p := (· != '"')) more closed rfl
    obtain ⟨same', -⟩ := runLength_stopped (p := (· != '"')) (more ++ '\n' :: ds) closed rfl
    rw [same, List.length_append] at extends_
    rw [same', List.length_append]
    omega
  rw [if_neg quote] at extends_ valid ⊢
  by_cases slash : c = '/'
  · rw [if_pos slash] at extends_ valid ⊢
    obtain ⟨d, rest, rfl⟩ := List.exists_cons_of_ne_nil fun none => valid (if_pos none)
    rw [List.cons_append, List.head?_cons] at extends_ ⊢
    split at extends_
    · rename_i comment
      rwa [if_pos comment, ← List.cons_append, ← List.append_assoc, runLength_line rfl]
    · cases extends_
  rw [if_neg slash] at extends_ valid ⊢
  by_cases dash : c = '-'
  · rw [if_pos dash] at extends_ valid ⊢
    obtain ⟨d, rest, rfl⟩ := List.exists_cons_of_ne_nil fun none => valid (if_pos none)
    exact extends_
  · rwa [if_neg dash] at extends_ ⊢

theorem extent_le (c : Char) (rest : List Char) : extent c rest ≤ rest.length := by
  have run (p : Char → Bool) : runLength p rest ≤ rest.length := (List.takeWhile_prefix p).length_le
  unfold extent
  split_ifs with space digit word quote slash comment dash wire
  · exact run _
  · exact run _
  · exact run _
  · exact Nat.min_le_right _ _
  · exact run _
  · exact Nat.zero_le _
  · obtain ⟨more, rfl⟩ := List.head?_eq_some_iff.mp wire
    simp
  · exact Nat.zero_le _
  · exact Nat.zero_le _

theorem scans_skipped (extends_ : extent c (taken ++ more) = taken.length) (skipped : piece c taken = .skipped)
    (rest : Scans more ts) : Scans (c :: (taken ++ more)) ts := by
  intro offset
  rw [scan_cut offset extends_, skipped]
  exact rest _

theorem scans_spaces (spaces : ∀ c ∈ cs, isSpace c = true) (rest : Scans more ts) : Scans (cs ++ more) ts := by
  induction cs with
  | nil => exact rest
  | cons c later ih =>
    obtain ⟨first, others⟩ := List.forall_mem_cons.mp spaces
    exact scans_space first (ih others)

theorem piece_line (ds : List Char) (valid : piece c taken ≠ .invalid) (extends_ : extent c (taken ++ more) = taken.length) :
    (∀ d ∈ c :: taken, isSpace d = true) ∨ extent c (taken ++ (more ++ '\n' :: ds)) = taken.length := by
  cases space : isSpace c with
  | false => exact .inr (extent_line space valid extends_)
  | true =>
    have run : ((taken ++ more).takeWhile isSpace).length = taken.length := by
      rwa [extent, if_pos space] at extends_
    have blanks : (taken ++ more).takeWhile isSpace = taken :=
      (List.prefix_of_prefix_length_le (List.takeWhile_prefix _) (List.prefix_append _ _) run.le).eq_of_length run
    refine .inl (List.forall_mem_cons.mpr ⟨space, fun d held => ?_⟩)
    rw [← blanks] at held
    exact List.mem_takeWhile_imp held

theorem extent_cut (c : Char) (rest : List Char) :
    extent c (rest.take (extent c rest) ++ rest.drop (extent c rest)) = (rest.take (extent c rest)).length := by
  rw [List.take_append_drop, List.length_take_of_le (extent_le c rest)]

-- Two texts on lines of their own are cut into the tokens of the one and then those of the other.
theorem scans_lines (front : Scans cs ts) (back : Scans ds us) : Scans (cs ++ '\n' :: ds) (ts ++ us) := by
  have start := front 0
  clear front
  revert start
  generalize 0 = offset
  intro start
  fun_induction scan offset cs generalizing ts with
  | case1 =>
    cases start
    exact scans_space rfl back
  | case2 offset c rest taken next skipped =>
    rename_i ih
    have later := ih start
    rw [← List.take_append_drop (extent c rest) rest, List.cons_append, List.append_assoc]
    have valid : piece c taken ≠ .invalid := by simp [skipped]
    cases piece_line ds valid (extent_cut c rest) with
    | inl blanks => exact scans_spaces blanks later
    | inr kept => exact scans_skipped kept skipped later
  | case3 offset c rest taken next t token =>
    rename_i ih
    obtain ⟨others, done, rfl⟩ := map_ok.mp start
    have later := ih done
    rw [← List.take_append_drop (extent c rest) rest, List.cons_append, List.append_assoc]
    have valid : piece c taken ≠ .invalid := by simp [token]
    cases piece_line ds valid (extent_cut c rest) with
    | inl blanks =>
      rw [piece, if_pos (blanks c List.mem_cons_self)] at token
      cases token
    | inr kept => exact scans_token kept token later
  | case4 => cases start

end Token

variable {source other : String} {drawn : Drawn} {graph more ts us : List Token}

theorem tokens_lines (front : tokens source.toList = .ok ts) (back : tokens other.toList = .ok us) :
    tokens (source ++ "\n" ++ other).toList = .ok (ts ++ us) := by
  have shape : (source ++ "\n" ++ other).toList = source.toList ++ '\n' :: other.toList := by simp
  rw [shape]
  exact Token.scans_lines (Token.scan_moved front) (Token.scan_moved back) 0

theorem read_graph (done : read source = .ok drawn) : ∃ graph rest, tokens source.toList = .ok (graph ++ rest) ∧ OneGraph graph ∧
    ∀ other more, tokens other.toList = .ok (graph ++ more) → read other = .ok drawn := by
  obtain ⟨ts, scanned, done⟩ := bind_ok.mp done
  obtain ⟨rest, draft, rfl, ran, rfl⟩ := readTokens_ok.mp done
  obtain ⟨inside, items, after, spelled, rfl, carried⟩ := body_sound ran
  refine ⟨_, after, ?_, ⟨inside, items, spelled, rfl⟩, fun other more scanned' => ?_⟩
  · simpa using scanned
  · have again : body {} (inside ++ .closeBrace :: more) = .ok draft := body_complete spelled carried
    refine bind_ok.mpr ⟨_, scanned', readTokens_ok.mpr ⟨_, draft, ?_, again, rfl⟩⟩
    simp

-- A text that is read is one graph exactly when nothing follows that graph. Whatever else does, be it
-- another drawing, is passed over.
theorem read_whole_iff (done : read source = .ok drawn) : ∃ graph rest, tokens source.toList = .ok (graph ++ rest) ∧ OneGraph graph ∧
    (OneGraph (graph ++ rest) ↔ rest = []) ∧
    (∀ other more, tokens other.toList = .ok (graph ++ more) → read other = .ok drawn) ∧
    ∀ other ts, tokens other.toList = .ok ts → read (source ++ "\n" ++ other) = .ok drawn := by
  obtain ⟨graph, rest, scanned, whole, same⟩ := read_graph done
  refine ⟨graph, rest, scanned, whole, ⟨fun longer => ?_, ?_⟩, same, fun other ts scanned' => ?_⟩
  · have ended : graph ++ rest = (graph ++ rest) ++ [] := (List.append_nil _).symm
    exact (whole.beginning longer ended).2
  · rintro rfl
    rwa [List.append_nil]
  · have lines := tokens_lines scanned scanned'
    rw [List.append_assoc] at lines
    exact same _ _ lines

-- A vertex and its wire behind a brace that closes too early.
def severed : String := "graph \x7b 0 [label=\"0:i\"] \x7d 1 [label=\"1:o\"] 0--1 \x7d"

def severedDraft : Draft where
  diagram := { vertices := [(0, .boundary)], next := 1 }
  ids := [(0, 0)]
  ends := [⟨.input, 0, 0, 0⟩]

theorem severed_read : read severed = .ok severedDraft.finish := read_drafts (by decide +kernel)

theorem read_whole_iff_severed : read severed = .ok severedDraft.finish ∧
    ∃ graph rest, tokens severed.toList = .ok (graph ++ rest) ∧ OneGraph graph ∧ (OneGraph (graph ++ rest) ↔ rest = []) ∧
      (∀ other more, tokens other.toList = .ok (graph ++ more) → read other = .ok severedDraft.finish) ∧
      ∀ other ts, tokens other.toList = .ok ts → read (severed ++ "\n" ++ other) = .ok severedDraft.finish :=
  ⟨severed_read, read_whole_iff severed_read⟩

-- The output and the wire to it are lost without a word.
theorem read_severed : ∃ ts, tokens severed.toList = .ok ts ∧ ¬OneGraph ts ∧ Token.id 1 ∈ ts ∧
    read severed = .ok severedDraft.finish ∧ severedDraft.finish.diagram.ids = [0] ∧ severedDraft.finish.diagram.edges = [] := by
  have scanned : (match tokens severed.toList with
      | .ok ts => decide (.closeBrace ∈ ts.dropLast ∧ .id 1 ∈ ts)
      | .error _ => false) = true := by decide +kernel
  split at scanned
  · rename_i ts found
    obtain ⟨early, lost⟩ := of_decide_eq_true scanned
    exact ⟨ts, found, fun whole => whole.last early, lost, severed_read, rfl, rfl⟩
  · cases scanned

end ToffoliBench.Drawing

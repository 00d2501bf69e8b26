import ToffoliBench.Proofs.Drawing.Grammar
import ToffoliBench.Proofs.Drawing.Scanning
import ToffoliBench.Proofs.Drawing.Sheet

namespace ToffoliBench.Drawing

open Diagram Outcome

-- What comes after the closing brace says nothing.
def Draws (source : String) (sheet : Sheet) : Prop :=
  ∃ inside rest items, tokens source.toList = .ok (.graph :: .openBrace :: (inside ++ .closeBrace :: rest)) ∧
    SpellsAll inside items ∧ TakesAll {} items sheet

def Sheet.sideIds (sheet : Sheet) (side : Side) : List Nat :=
  (sheet.vertices.filter (·.side == some side)).map fun x => sheet.number x.file

-- The order of the boundaries on one side: by qubit, then by the number in the text.
def Sheet.Before (sheet : Sheet) (v w : Nat) : Prop := ∃ x ∈ sheet.vertices, ∃ y ∈ sheet.vertices,
  sheet.number x.file = v ∧ sheet.number y.file = w ∧
    (x.qubit.rank < y.qubit.rank ∨ (x.qubit.rank = y.qubit.rank ∧ x.file < y.file))

structure Renders (sheet : Sheet) (drawn : Drawn) : Prop where
  sound : drawn.diagram.Sound
  vertices : drawn.diagram.vertices = sheet.vertices.map fun x => (sheet.number x.file, x.vertex)
  numbered : drawn.diagram.ids = List.range sheet.vertices.length
  unfreed : drawn.diagram.freed = []
  next : drawn.diagram.next = sheet.vertices.length
  edges : drawn.diagram.edges.Perm (sheet.wires.map sheet.edge)
  inputs : drawn.diagram.inputs.Perm (sheet.sideIds .input)
  outputs : drawn.diagram.outputs.Perm (sheet.sideIds .output)
  inputsSorted : drawn.diagram.inputs.Pairwise sheet.Before
  outputsSorted : drawn.diagram.outputs.Pairwise sheet.Before
  scalar : drawn.diagram.scalar = .one
  ids : drawn.ids.Perm (sheet.files.map fun n => (n, sheet.number n))
  idsSorted : (drawn.ids.map Prod.fst).Pairwise (· < ·)

variable {source : String} {draft : Draft} {sheet : Sheet} {drawn : Drawn} {ts rest : List Token} {x : Declared}

theorem expect_ok {wanted : Token} : expect wanted ts = .ok rest ↔ ts = wanted :: rest := by
  cases ts with
  | nil => exact ⟨nofun, nofun⟩
  | cons found more =>
    rw [expect, List.cons.injEq]
    split
    · rename_i same
      simp [same]
    · rename_i other
      simp [other]

theorem readTokens_ok : readTokens ts = .ok drawn ↔
    ∃ rest draft, ts = .graph :: .openBrace :: rest ∧ body {} rest = .ok draft ∧ draft.finish = drawn := by
  constructor
  · intro read
    obtain ⟨_, graph, read⟩ := bind_ok.mp read
    obtain ⟨rest, brace, read⟩ := bind_ok.mp read
    obtain ⟨draft, done, made⟩ := bind_ok.mp read
    exact ⟨rest, draft, by rw [expect_ok.mp graph, expect_ok.mp brace], done, pure_ok.mp made⟩
  · rintro ⟨rest, draft, rfl, done, rfl⟩
    exact bind_ok.mpr ⟨_, expect_ok.mpr rfl, bind_ok.mpr ⟨_, expect_ok.mpr rfl, bind_ok.mpr ⟨draft, done, rfl⟩⟩⟩

theorem ends_files (vertices : List Declared) (number : Nat → Nat) :
    ((vertices.flatMap fun x => x.ends (number x.file)).map (·.file)).Sublist (vertices.map (·.file)) := by
  induction vertices with
  | nil => exact .refl _
  | cons x rest ih =>
    rw [List.flatMap_cons, List.map_append, List.map_cons, Declared.ends]
    cases x.side with
    | none => exact ih.cons _
    | some side => exact ih.cons_cons _

theorem ends_onSide (vertices : List Declared) (number : Nat → Nat) (side : Side) :
    ((vertices.flatMap fun x => x.ends (number x.file)).filter (·.side == side)).map (·.vertex) =
      (vertices.filter (·.side == some side)).map fun x => number x.file := by
  induction vertices with
  | nil => rfl
  | cons x rest ih =>
    rw [List.flatMap_cons, List.filter_append, List.map_append, ih, List.filter_cons, Declared.ends]
    cases known : x.side with
    | none => simp
    | some other => by_cases same : other = side <;> simp [same]

theorem before_iff {e f : BoundaryEnd} : e.before f = true ↔ e.rank < f.rank ∨ (e.rank = f.rank ∧ e.file ≤ f.file) := by
  simp [BoundaryEnd.before]

theorem ends_ordered (ends : List BoundaryEnd) : (ends.mergeSort BoundaryEnd.before).Pairwise fun e f => e.before f = true := by
  refine List.pairwise_mergeSort (fun e f g first second => ?_) (fun e f => ?_) _
  · rw [before_iff] at *
    omega
  · rw [Bool.or_eq_true, before_iff, before_iff]
    omega

theorem ends_sorted {ends : List BoundaryEnd} (once : (ends.map (·.file)).Nodup) :
    (ends.mergeSort BoundaryEnd.before).Pairwise fun e f => e.rank < f.rank ∨ (e.rank = f.rank ∧ e.file < f.file) := by
  have distinct : ((ends.mergeSort BoundaryEnd.before).map (·.file)).Nodup :=
    ((List.mergeSort_perm _ _).map _).nodup_iff.mpr once
  rw [List.Nodup, List.pairwise_map] at distinct
  refine (distinct.and (ends_ordered ends)).imp fun {e f} both => ?_
  obtain ⟨different, earlier⟩ := both
  rw [before_iff] at earlier
  omega

namespace Holds

theorem sideIds_perm (holds : Holds draft sheet) (side : Side) : (draft.sideIds side).Perm (sheet.sideIds side) := by
  have sorted := ((List.mergeSort_perm draft.ends BoundaryEnd.before).filter (·.side == side)).map (·.vertex)
  refine sorted.trans (.of_eq ?_)
  rw [holds.ends]
  exact ends_onSide _ _ side

theorem sideIds_sorted (holds : Holds draft sheet) (side : Side) : (draft.sideIds side).Pairwise sheet.Before := by
  have once : (draft.ends.map (·.file)).Nodup := by
    rw [holds.ends]
    exact holds.once.sublist (ends_files _ _)
  have origin : ∀ e ∈ draft.ends, ∃ x ∈ sheet.vertices, e = ⟨e.side, x.qubit.rank, x.file, sheet.number x.file⟩ := by
    intro e listed
    rw [holds.ends] at listed
    obtain ⟨x, declared, made⟩ := List.mem_flatMap.mp listed
    obtain ⟨side, _, rfl⟩ := List.mem_map.mp made
    exact ⟨x, declared, rfl⟩
  rw [Draft.sideIds, List.pairwise_map]
  refine List.Pairwise.imp_of_mem (fun {e f} first second earlier => ?_) ((ends_sorted once).sublist List.filter_sublist)
  have held : ∀ {e}, e ∈ (draft.ends.mergeSort BoundaryEnd.before).filter (·.side == side) → e ∈ draft.ends := fun listed =>
    (List.mergeSort_perm _ _).mem_iff.mp (List.mem_filter.mp listed).1
  obtain ⟨x, left, eShape⟩ := origin e (held first)
  obtain ⟨y, right, fShape⟩ := origin f (held second)
  rw [eShape, fShape] at earlier ⊢
  exact ⟨x, left, y, right, rfl, rfl, earlier⟩

theorem renders (holds : Holds draft sheet) : Renders sheet draft.finish := by
  have perm : draft.finish.ids.Perm (sheet.files.map fun n => (n, sheet.number n)) :=
    (List.mergeSort_perm _ _).trans (.of_eq holds.ids)
  constructor
  case sound => exact holds.sound.congr rfl rfl rfl rfl
  case vertices => exact holds.vertices
  case numbered =>
    have ids : draft.diagram.ids = sheet.files.map sheet.files.idxOf := by
      rw [Diagram.ids, holds.vertices, List.map_map, Sheet.files, List.map_map]
      rfl
    have size : sheet.files.length = sheet.vertices.length := List.length_map _
    exact size ▸ ids.trans (map_idxOf holds.once)
  case unfreed => exact holds.unfreed
  case next => exact holds.next
  case edges => exact holds.edges
  case inputs => exact holds.sideIds_perm .input
  case outputs => exact holds.sideIds_perm .output
  case inputsSorted => exact holds.sideIds_sorted .input
  case outputsSorted => exact holds.sideIds_sorted .output
  case scalar => exact holds.scalar
  case ids => exact perm
  case idsSorted =>
    have ascending : draft.finish.ids.Pairwise fun p q => decide (p.1 ≤ q.1) = true :=
      List.pairwise_mergeSort (fun p q r first second => by simp only [decide_eq_true_eq] at *; omega)
        (fun p q => by simp only [Bool.or_eq_true, decide_eq_true_eq]; omega) _
    have distinct : (draft.finish.ids.map Prod.fst).Nodup := by
      refine (perm.map Prod.fst).nodup_iff.mpr ?_
      rw [List.map_map]
      exact (List.map_id _).symm ▸ holds.once
    rw [List.Nodup, List.pairwise_map] at distinct
    rw [List.pairwise_map]
    exact (distinct.and ascending).imp fun both => Nat.lt_of_le_of_ne (of_decide_eq_true both.2) both.1

end Holds

namespace Draws

theorem declared (draws : Draws source sheet) (listed : x ∈ sheet.vertices) :
    x.file ≤ Range.maxWord ∧ ∃ attrs, Declares x.file attrs x := by
  obtain ⟨inside, rest, items, scanned, spelled, taken⟩ := draws
  obtain ⟨attrs, stated, declares⟩ := (taken.declared listed).resolve_left List.not_mem_nil
  refine ⟨Token.scan_small scanned _ ?_, attrs, declares⟩
  have number := spelled.number stated
  simp [number]

theorem once (draws : Draws source sheet) : sheet.files.Nodup := by
  obtain ⟨_, _, _, _, _, taken⟩ := draws
  obtain ⟨_, _, holds⟩ := holds_empty.run_complete taken
  exact holds.once

-- There are no more vertices than numbers for them.
theorem few (draws : Draws source sheet) : sheet.vertices.length ≤ Range.maxWord + 1 := by
  have within : sheet.files ⊆ List.range (Range.maxWord + 1) := by
    intro n listed
    obtain ⟨x, present, rfl⟩ := List.mem_map.mp listed
    exact List.mem_range.mpr (Nat.lt_succ_of_le (draws.declared present).1)
  have size := (List.subperm_of_subset draws.once within).length_le
  rwa [List.length_range, Sheet.files, List.length_map] at size

theorem file_inj (draws : Draws source sheet) {y : Declared} (left : x ∈ sheet.vertices) (right : y ∈ sheet.vertices)
    (same : sheet.number x.file = sheet.number y.file) : x = y :=
  List.inj_on_of_nodup_map draws.once left right ((number_alike (List.mem_map_of_mem left)).mp same)

theorem sideIds_nodup (draws : Draws source sheet) (side : Side) : (sheet.sideIds side).Nodup := by
  have once : sheet.vertices.Nodup := List.Nodup.of_map _ draws.once
  refine (once.filter _).map_on fun x left y right same => ?_
  exact draws.file_inj (List.mem_filter.mp left).1 (List.mem_filter.mp right).1 same

end Draws

theorem read_draws (done : read source = .ok drawn) : ∃ sheet, Draws source sheet ∧ Renders sheet drawn := by
  obtain ⟨ts, scanned, done⟩ := bind_ok.mp done
  obtain ⟨rest, draft, rfl, ran, rfl⟩ := readTokens_ok.mp done
  obtain ⟨inside, items, after, spelled, rfl, carried⟩ := body_sound ran
  obtain ⟨sheet, taken, holds⟩ := holds_empty.run_sound carried
  exact ⟨sheet, ⟨inside, after, items, scanned, spelled, taken⟩, holds.renders⟩

-- A text is read exactly when it draws a sheet, and what is read is what is on the sheet.
theorem read_exact (source : String) : ((∃ drawn, read source = .ok drawn) ↔ ∃ sheet, Draws source sheet) ∧
    ∀ drawn sheet, read source = .ok drawn → Draws source sheet → Renders sheet drawn := by
  have complete : ∀ sheet, Draws source sheet → ∃ drawn, read source = .ok drawn ∧ Renders sheet drawn := by
    rintro sheet ⟨inside, rest, items, scanned, spelled, taken⟩
    obtain ⟨draft, done, holds⟩ := holds_empty.run_complete taken
    have ran : body {} (inside ++ .closeBrace :: rest) = .ok draft := body_complete spelled done
    exact ⟨draft.finish, bind_ok.mpr ⟨_, scanned, readTokens_ok.mpr ⟨_, draft, rfl, ran, rfl⟩⟩, holds.renders⟩
  refine ⟨⟨?_, fun ⟨sheet, draws⟩ => ?_⟩, ?_⟩
  · rintro ⟨drawn, done⟩
    obtain ⟨ts, scanned, done⟩ := bind_ok.mp done
    obtain ⟨rest, draft, rfl, ran, _⟩ := readTokens_ok.mp done
    obtain ⟨inside, items, after, spelled, rfl, carried⟩ := body_sound ran
    obtain ⟨sheet, taken, _⟩ := holds_empty.run_sound carried
    exact ⟨sheet, inside, after, items, scanned, spelled, taken⟩
  · obtain ⟨drawn, done, _⟩ := complete sheet draws
    exact ⟨drawn, done⟩
  · intro drawn sheet done draws
    obtain ⟨again, same, renders⟩ := complete sheet draws
    obtain rfl := Except.ok.inj (done.symm.trans same)
    exact renders

-- One key written twice, a semicolon, statements without attributes, and tokens after the brace.
def crowded : String := "graph \x7b 3 [label=\"a:i\", color=red color=green]; 1 3--1 [color=blue,] \x7d ]"

theorem read_exact_crowded : ∃ drawn sheet, read crowded = .ok drawn ∧ Draws crowded sheet ∧ Renders sheet drawn := by
  have accepted : (read crowded).toBool = true := by decide +kernel
  cases done : read crowded with
  | error e =>
    rw [done] at accepted
    cases accepted
  | ok drawn =>
    obtain ⟨accepts, renders⟩ := read_exact crowded
    obtain ⟨sheet, draws⟩ := accepts.mp ⟨drawn, done⟩
    exact ⟨drawn, sheet, rfl, draws, renders drawn sheet done draws⟩

end ToffoliBench.Drawing

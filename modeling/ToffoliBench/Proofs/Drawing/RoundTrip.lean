import ToffoliBench.Proofs.Drawing.Acceptance
import ToffoliBench.Proofs.Drawing.Drafting

namespace ToffoliBench.Drawing

open Diagram

variable {d : Diagram}

-- The order of boundaries on one side.
def Before (d : Diagram) (v w : Nat) : Prop :=
  ∃ x y, (v, x) ∈ d.vertices ∧ (w, y) ∈ d.vertices ∧ (x.qubit < y.qubit ∨ (x.qubit = y.qubit ∧ v < w))

structure Redrawn (d : Diagram) (drawn : Drawn) : Prop where
  ids : drawn.ids = d.ids.zipIdx
  vertices : drawn.diagram.vertices = d.vertices.map fun entry => (d.number entry.1, { entry.2 with marker := none })
  edges : drawn.diagram.edges = d.edges.map d.renumbered
  inputs : drawn.diagram.inputs.Perm (d.inputs.map d.number)
  outputs : drawn.diagram.outputs.Perm (d.outputs.map d.number)
  inputsSorted : drawn.diagram.inputs.Pairwise (Before drawn.diagram)
  outputsSorted : drawn.diagram.outputs.Pairwise (Before drawn.diagram)
  scalar : drawn.diagram.scalar = .one

theorem ends_side (entries : List (Nat × Vertex)) (side : Side) :
    ((entries.flatMap fun entry => endsOf d entry.1 entry.2 (d.number entry.1)).filter (·.side == side)).map (·.vertex) =
      ((entries.map Prod.fst).filter fun v => decide (sideOf d v = some side)).map d.number := by
  induction entries with
  | nil => rfl
  | cons entry rest ih =>
    rw [List.flatMap_cons, List.filter_append, List.map_append, ih, List.map_cons, List.filter_cons, endsOf]
    cases known : sideOf d entry.1 with
    | none => simp
    | some other => by_cases same : other = side <;> simp [same]

theorem Drawable.sideIds_perm (drawable : Drawable d) (side : Side) :
    ((drafted d d.vertices d.edges).sideIds side).Perm ((onSide d side).map d.number) := by
  have once : (onSide d side).Nodup := by
    cases side with
    | input => exact drawable.inputs
    | output => exact drawable.outputs
  have members : (d.ids.filter fun v => decide (sideOf d v = some side)).Perm (onSide d side) := by
    refine (List.perm_ext_iff_of_nodup (drawable.sound.nodup.filter _) once).mpr fun v => ?_
    rw [List.mem_filter, decide_eq_true_iff, drawable.sideOf_iff]
    refine ⟨And.right, fun listed => ⟨?_, listed⟩⟩
    obtain ⟨x, present, _⟩ := drawable.side listed
    exact List.mem_map_of_mem present
  have sorted := ((List.mergeSort_perm (drafted d d.vertices d.edges).ends BoundaryEnd.before).filter (·.side == side)).map (·.vertex)
  have read := ends_side (d := d) d.vertices side
  exact (sorted.trans (.of_eq read)).trans (members.map d.number)

theorem Drawable.numbers_nodup (drawable : Drawable d) (side : Side) : ((onSide d side).map d.number).Nodup := by
  have once : (onSide d side).Nodup := by
    cases side with
    | input => exact drawable.inputs
    | output => exact drawable.outputs
  refine once.map_on fun v left w _ same => ?_
  obtain ⟨x, present, _⟩ := drawable.side left
  exact (number_inj (List.mem_map_of_mem present)).mp same

-- By qubit first; on one qubit, by the number in the text.
theorem Drawable.sideIds_sorted (drawable : Drawable d) (side : Side) :
    ((drafted d d.vertices d.edges).sideIds side).Pairwise (Before (d.rendered d.vertices d.edges)) := by
  have distinct : ((drafted d d.vertices d.edges).sideIds side).Nodup :=
    (drawable.sideIds_perm side).nodup_iff.mpr (drawable.numbers_nodup side)
  have ordered := ends_ordered (drafted d d.vertices d.edges).ends
  unfold Draft.sideIds at distinct ⊢
  rw [List.Nodup, List.pairwise_map] at distinct
  rw [List.pairwise_map]
  refine List.Pairwise.imp_of_mem ?_ (distinct.and (ordered.sublist List.filter_sublist))
  rintro e f first second ⟨different, earlier⟩
  have read : ∀ e ∈ ((drafted d d.vertices d.edges).ends.mergeSort BoundaryEnd.before).filter (·.side == side),
      ∃ v x, (v, x) ∈ d.vertices ∧ e = ⟨e.side, Decimal.place x.qubit, v, d.number v⟩ := by
    intro e listed
    have held := (List.mergeSort_perm _ _).mem_iff.mp (List.mem_filter.mp listed).1
    obtain ⟨⟨v, x⟩, present, made⟩ := List.mem_flatMap.mp held
    obtain ⟨side, _, rfl⟩ := List.mem_map.mp made
    exact ⟨v, x, present, rfl⟩
  obtain ⟨v, x, left, eShape⟩ := read e first
  obtain ⟨w, y, right, fShape⟩ := read f second
  rw [eShape, fShape] at different earlier ⊢
  dsimp only at different
  rw [before_iff] at earlier
  dsimp only at earlier ⊢
  refine ⟨_, _, List.mem_map_of_mem left, List.mem_map_of_mem right, ?_⟩
  have xPlain := (drawable.coordinates _ left).1
  have yPlain := (drawable.coordinates _ right).1
  rcases earlier with below | ⟨level, file⟩
  · exact .inl ((Decimal.lt_iff_place xPlain.finite yPlain.finite xPlain.nonnegative yPlain.nonnegative).mpr below)
  · have other : v ≠ w := fun same => different (congrArg d.number same)
    exact .inr ⟨Decimal.place_injective level, (drawable.sound.number_lt (List.mem_map_of_mem left) (List.mem_map_of_mem right)).mpr
      (Nat.lt_of_le_of_ne file other)⟩

theorem Drawable.redrawn (drawable : Drawable d) : Redrawn d (drafted d d.vertices d.edges).finish := by
  have numbered : (drafted d d.vertices d.edges).ids = d.ids.zipIdx := by
    have parts : (drafted d d.vertices d.edges).ids = d.ids.map fun v => (v, d.number v) := by
      simp [drafted, Diagram.ids]
    rw [parts]
    refine List.ext_getElem (by simp) fun i bound _ => ?_
    have inside : i < d.ids.length := by simpa using bound
    rw [List.getElem_map, List.getElem_zipIdx, Nat.zero_add, Diagram.number, drawable.sound.nodup.idxOf_getElem _ inside]
  have ascending : (drafted d d.vertices d.edges).ids.Pairwise fun p q => decide (p.1 ≤ q.1) = true := by
    have below := drawable.sound.ascending
    rw [Diagram.ids, List.pairwise_map] at below
    rw [drafted, List.pairwise_map]
    exact below.imp fun less => decide_eq_true (Nat.le_of_lt less)
  constructor
  case ids => exact (List.mergeSort_of_pairwise ascending).trans numbered
  case inputs => exact drawable.sideIds_perm .input
  case outputs => exact drawable.sideIds_perm .output
  case inputsSorted => exact drawable.sideIds_sorted .input
  case outputsSorted => exact drawable.sideIds_sorted .output
  all_goals rfl

theorem Drawable.onSide_finish (drawable : Drawable d) (side : Side) :
    (onSide (drafted d d.vertices d.edges).finish.diagram side).Perm ((onSide d side).map d.number) := by
  cases side with
  | input => exact drawable.sideIds_perm .input
  | output => exact drawable.sideIds_perm .output

-- What has been read can be written and read again.
theorem Drawable.finish (drawable : Drawable d) : Drawable (drafted d d.vertices d.edges).finish.diagram := by
  have sound : (d.rendered d.vertices d.edges).Sound := drawable.sound.rendered (.refl _)
  have sides := drawable.onSide_finish
  have back : ∀ side {w}, w ∈ onSide (drafted d d.vertices d.edges).finish.diagram side →
      ∃ v ∈ onSide d side, d.number v = w := fun side _ listed => List.mem_map.mp ((sides side).mem_iff.mp listed)
  constructor
  case sound => exact sound.congr rfl rfl rfl rfl
  case small =>
    intro w present
    obtain ⟨v, old, rfl⟩ := List.mem_map.mp ((rendered_ids d d.edges) ▸ present)
    exact Nat.le_trans (drawable.sound.number_le old) (drawable.small v old)
  case inputs => exact (sides .input).nodup_iff.mpr (drawable.numbers_nodup .input)
  case outputs => exact (sides .output).nodup_iff.mpr (drawable.numbers_nodup .output)
  case disjoint =>
    intro w input output
    obtain ⟨v, first, rfl⟩ := back .input input
    obtain ⟨u, second, same⟩ := back .output output
    obtain ⟨x, present, _⟩ := drawable.side first
    obtain rfl := (number_inj (List.mem_map_of_mem present)).mp same.symm
    exact drawable.disjoint first second
  case ends =>
    intro w listed
    have side : ∃ side, w ∈ onSide (drafted d d.vertices d.edges).finish.diagram side :=
      (List.mem_append.mp listed).elim (fun input => ⟨.input, input⟩) fun output => ⟨.output, output⟩
    obtain ⟨side, held⟩ := side
    obtain ⟨v, first, rfl⟩ := back side held
    obtain ⟨x, present, zero⟩ := drawable.side first
    exact ⟨{ x with marker := none }, List.mem_map_of_mem present, zero⟩
  case phases =>
    intro entry listed
    obtain ⟨old, present, rfl⟩ := List.mem_map.mp listed
    exact drawable.phases old present
  case coordinates =>
    intro entry listed
    obtain ⟨old, present, rfl⟩ := List.mem_map.mp listed
    exact drawable.coordinates old present

theorem chars_same {e : Diagram} (vertices : d.vertices = e.vertices) (edges : d.edges = e.edges)
    (inputs : ∀ v, v ∈ d.inputs ↔ v ∈ e.inputs) (outputs : ∀ v, v ∈ d.outputs ↔ v ∈ e.outputs) : chars d = chars e := by
  have label : ∀ v x, labelChars d v x = labelChars e v x := by
    intro v x
    simp only [labelChars, List.contains_iff_mem, inputs, outputs]
  have line : ∀ v x, vertexLine d v x = vertexLine e v x := by
    intro v x
    simp only [vertexLine, label]
  unfold chars
  simp only [vertices, edges, line]

-- Numbers that are ids already stay as they are.
theorem number_range {k : Nat} (numbered : d.ids = List.range k) {v : Nat} (present : v ∈ d.ids) : d.number v = v := by
  have inside := List.idxOf_lt_length_of_mem present
  have found := List.getElem_idxOf inside
  simp only [numbered, List.getElem_range] at found
  rw [Diagram.number, numbered]
  exact found

theorem rendered_same {k : Nat} (sound : d.Sound) (numbered : d.ids = List.range k) (unmarked : ∀ entry ∈ d.vertices, entry.2.marker = none) :
    (d.rendered d.vertices d.edges).vertices = d.vertices ∧ (d.rendered d.vertices d.edges).edges = d.edges := by
  constructor
  · refine (List.map_congr_left fun entry listed => ?_).trans d.vertices.map_id
    rw [number_range numbered (List.mem_map_of_mem listed), ← unmarked entry listed]
    rfl
  · refine (List.map_congr_left fun f listed => ?_).trans d.edges.map_id
    obtain ⟨low, high⟩ := sound.live f listed
    rw [renumbered, number_range numbered low, number_range numbered high]
    rfl

theorem Drawable.onSide_same {k : Nat} (drawable : Drawable d) (numbered : d.ids = List.range k) (side : Side) :
    (onSide (drafted d d.vertices d.edges).finish.diagram side).Perm (onSide d side) := by
  refine (drawable.onSide_finish side).trans (.of_eq ((List.map_congr_left fun v listed => ?_).trans (List.map_id _)))
  obtain ⟨x, present, _⟩ := drawable.side listed
  exact number_range numbered (List.mem_map_of_mem present)

theorem Drawable.text_finish (drawable : Drawable d) {e : Diagram} (same : e = (drafted d d.vertices d.edges).finish.diagram) :
    text (drafted e e.vertices e.edges).finish.diagram = text e := by
  have again : Drawable e := same ▸ drawable.finish
  have numbered : e.ids = List.range d.vertices.length := same ▸ (rendered_ids d d.edges).trans drawable.sound.numbers
  have unmarked : ∀ entry ∈ e.vertices, entry.2.marker = none := by
    subst same
    intro entry listed
    obtain ⟨old, _, rfl⟩ := List.mem_map.mp listed
    rfl
  obtain ⟨vertices, edges⟩ := rendered_same again.sound numbered unmarked
  have side := again.onSide_same numbered
  exact congrArg String.ofList (chars_same vertices edges (fun _ => (side .input).mem_iff) fun _ => (side .output).mem_iff)

-- Writing and reading keeps all that is drawn, whether or not the last line has its end.
theorem read_text (drawable : Drawable d) : ∃ drawn, read (text d) = .ok drawn ∧ read (trimmedText d) = .ok drawn ∧
    Redrawn d drawn ∧ ∃ again, read (text drawn.diagram) = .ok again ∧ text again.diagram = text drawn.diagram := by
  obtain ⟨whole, trimmed⟩ := read_chars drawable
  obtain ⟨second, _⟩ := read_chars drawable.finish
  exact ⟨_, whole, trimmed, drawable.redrawn, _, second, drawable.text_finish rfl⟩

-- Two inputs out of order, gaps between the ids, a marked leg at a negative qubit.
def gapped : Diagram where
  vertices := [(1, { kind := .boundary, qubit := 1 }), (2, .boundary), (4, { kind := .z, phase := .third, row := 0.5, marker := some .starHelper }),
    (7, { kind := .x, qubit := -1.2, row := 3 }), (8, { kind := .boundary, qubit := 1, row := 4 })]
  edges := [⟨1, 4, .simple⟩, ⟨2, 7, .hadamard⟩, ⟨4, 7, .hadamard⟩, ⟨4, 8, .simple⟩]
  freed := [3, 0, 6, 5]
  next := 9
  inputs := [1, 2]
  outputs := [8]
  scalar := ⟨-2, .pi⟩

theorem gapped_drawable : Drawable gapped := by
  constructor
  case sound => decide
  case small => decide
  case inputs => decide
  case outputs => decide
  case disjoint => exact List.disjoint_left.mpr (by decide)
  case ends =>
    have each : ∀ v ∈ gapped.inputs ++ gapped.outputs, ∃ entry ∈ gapped.vertices, entry.1 = v ∧ entry.2.phase = .zero := by decide
    intro v listed
    obtain ⟨⟨_, x⟩, present, rfl, zero⟩ := each v listed
    exact ⟨x, present, zero⟩
  case phases =>
    rw [gapped]
    simp only [List.forall_mem_cons]
    exact ⟨.zero, .zero, .third, .zero, .zero, nofun⟩
  case coordinates => decide +kernel

theorem read_text_gapped : Drawable gapped ∧ ∃ drawn, read (text gapped) = .ok drawn ∧ read (trimmedText gapped) = .ok drawn ∧
    Redrawn gapped drawn ∧ ∃ again, read (text drawn.diagram) = .ok again ∧ text again.diagram = text drawn.diagram :=
  ⟨gapped_drawable, read_text gapped_drawable⟩

end ToffoliBench.Drawing

import ToffoliBench.Proofs.Drawing.RoundTrip
import ToffoliBench.Proofs.Numbers.Unsigned
import ToffoliBench.Proofs.Text.Rereading

namespace ToffoliBench.Drawing

open Diagram Outcome

variable {source : String} {sheet : Sheet} {drawn : Drawn} {x : Declared} {side : Side}

theorem Labelled.built {value : Option String} {side : Option Side} {phase : Phase} (labelled : Labelled value side phase) :
    phase.Built ∧ (side.isSome = true → phase = .zero) := by
  cases labelled with
  | phase _ read => exact ⟨.parse read, nofun⟩
  | _ => exact ⟨.zero, fun _ => rfl⟩

theorem Placed.rank {value : Option String} {qubit row : Decimal.Signed} (placed : Placed value qubit row)
    (finite : qubit.value.isFinite = true) : qubit.rank = Decimal.place qubit.value := by
  refine Decimal.Signed.rank_eq_place finite ?_
  cases placed with
  | absent => decide
  | given _ _ first _ => exact Decimal.signed?_negative first finite

-- A coordinate that is a number and not minus zero.
def Definite (x : Float) : Prop := x.isFinite = true ∧ x ≠ -0

instance (x : Float) : Decidable (Definite x) := inferInstanceAs (Decidable (_ ∧ _))

theorem Definite.plain {x : Float} (definite : Definite x) : Plain x :=
  ⟨definite.1, definite.2, Decimal.float?_chars definite.1 definite.2⟩

theorem mem_sideIds {v : Nat} : v ∈ sheet.sideIds side ↔ ∃ x ∈ sheet.vertices, x.side = some side ∧ sheet.number x.file = v := by
  simp [Sheet.sideIds, and_assoc]

namespace Renders

theorem onSide_perm (renders : Renders sheet drawn) (side : Side) : (onSide drawn.diagram side).Perm (sheet.sideIds side) := by
  cases side with
  | input => exact renders.inputs
  | output => exact renders.outputs

theorem onSide_sorted (renders : Renders sheet drawn) (side : Side) : (onSide drawn.diagram side).Pairwise sheet.Before := by
  cases side with
  | input => exact renders.inputsSorted
  | output => exact renders.outputsSorted

theorem mem_onSide (renders : Renders sheet drawn) {v : Nat} :
    v ∈ onSide drawn.diagram side ↔ ∃ x ∈ sheet.vertices, x.side = some side ∧ sheet.number x.file = v := by
  rw [(renders.onSide_perm side).mem_iff, mem_sideIds]

theorem present (renders : Renders sheet drawn) (listed : x ∈ sheet.vertices) : (sheet.number x.file, x.vertex) ∈ drawn.diagram.vertices := by
  rw [renders.vertices]
  exact List.mem_map_of_mem listed

theorem filed (renders : Renders sheet drawn) (listed : x ∈ sheet.vertices) : (x.file, sheet.number x.file) ∈ drawn.ids := by
  rw [renders.ids.mem_iff]
  exact List.mem_map.mpr ⟨x.file, List.mem_map_of_mem listed, rfl⟩

theorem declared (renders : Renders sheet drawn) {n v : Nat} (file : (n, v) ∈ drawn.ids) (listed : v ∈ onSide drawn.diagram side) :
    ∃ x ∈ sheet.vertices, x.file = n ∧ sheet.number x.file = v := by
  obtain ⟨x, held, _, rfl⟩ := renders.mem_onSide.mp listed
  obtain ⟨n, old, made⟩ := List.mem_map.mp (renders.ids.mem_iff.mp file)
  obtain ⟨rfl, number⟩ := Prod.mk.inj made
  exact ⟨x, held, ((number_alike old).mp number).symm, rfl⟩

theorem drawable (renders : Renders sheet drawn) (draws : Draws source sheet)
    (definite : ∀ entry ∈ drawn.diagram.vertices, Definite entry.2.qubit ∧ Definite entry.2.row) : Drawable drawn.diagram := by
  have origin : ∀ entry ∈ drawn.diagram.vertices, ∃ x ∈ sheet.vertices, entry = (sheet.number x.file, x.vertex) := by
    intro entry listed
    rw [renders.vertices] at listed
    obtain ⟨x, declared, rfl⟩ := List.mem_map.mp listed
    exact ⟨x, declared, rfl⟩
  constructor
  case sound => exact renders.sound
  case small =>
    intro v live
    rw [renders.numbered] at live
    have inside := List.mem_range.mp live
    have few := draws.few
    omega
  case inputs => exact renders.inputs.nodup_iff.mpr (draws.sideIds_nodup .input)
  case outputs => exact renders.outputs.nodup_iff.mpr (draws.sideIds_nodup .output)
  case disjoint =>
    intro v input output
    obtain ⟨x, left, inward, rfl⟩ := mem_sideIds.mp (renders.inputs.mem_iff.mp input)
    obtain ⟨y, right, outward, same⟩ := mem_sideIds.mp (renders.outputs.mem_iff.mp output)
    obtain rfl := draws.file_inj right left same
    cases inward.symm.trans outward
  case ends =>
    intro v listed
    have declared : ∃ side, ∃ x ∈ sheet.vertices, x.side = some side ∧ sheet.number x.file = v :=
      (List.mem_append.mp listed).elim (fun input => ⟨.input, renders.mem_onSide.mp input⟩) fun output => ⟨.output, renders.mem_onSide.mp output⟩
    obtain ⟨side, x, held, known, rfl⟩ := declared
    obtain ⟨_, attrs, declares⟩ := draws.declared held
    exact ⟨x.vertex, renders.present held, declares.label.built.2 (by rw [known]; rfl)⟩
  case phases =>
    intro entry listed
    obtain ⟨x, held, rfl⟩ := origin entry listed
    obtain ⟨_, attrs, declares⟩ := draws.declared held
    exact declares.label.built.1
  case coordinates =>
    intro entry listed
    exact ⟨(definite entry listed).1.plain, (definite entry listed).2.plain⟩

end Renders

-- No two boundaries on one side and one qubit are declared against the order of their numbers in the text.
def InOrder (drawn : Drawn) (side : Side) : Prop := ∀ m v n w x y, (m, v) ∈ drawn.ids → (n, w) ∈ drawn.ids →
  (v, x) ∈ drawn.diagram.vertices → (w, y) ∈ drawn.diagram.vertices → v ∈ onSide drawn.diagram side → w ∈ onSide drawn.diagram side →
    x.qubit = y.qubit → m < n → v < w

theorem Definite.lt_iff {x y : Float} (left : Definite x) (right : Definite y) : x < y ↔ Decimal.place x < Decimal.place y :=
  Decimal.lt_iff_place left.1 right.1 left.2 right.2

-- Of two entries of a list that is sorted in two ways, one comes first in both.
theorem first_in_both {before earlier : Nat → Nat → Prop} {l : List Nat} {v w : Nat} (ordered : l.Pairwise before) (sorted : l.Pairwise earlier)
    (left : v ∈ l) (right : w ∈ l) (apart : v ≠ w) : (before v w ∧ earlier v w) ∨ (before w v ∧ earlier w v) := by
  have symmetric : Std.Symm fun v w => (before v w ∧ earlier v w) ∨ (before w v ∧ earlier w v) := ⟨fun _ _ => Or.symm⟩
  have both : l.Pairwise fun v w => (before v w ∧ earlier v w) ∨ (before w v ∧ earlier w v) := (ordered.and sorted).imp .inl
  exact both.forall left right apart

section

variable (renders : Renders sheet drawn) (draws : Draws source sheet)
  (definite : ∀ entry ∈ drawn.diagram.vertices, Definite entry.2.qubit ∧ Definite entry.2.row)
include renders draws definite

theorem declared_rank (listed : x ∈ sheet.vertices) : Definite x.vertex.qubit ∧ x.qubit.rank = Decimal.place x.vertex.qubit := by
  have qubit := (definite _ (renders.present listed)).1
  obtain ⟨_, attrs, declares⟩ := draws.declared listed
  exact ⟨qubit, declares.position.rank qubit.1⟩

-- The order in the text and the order of declaration differ on one qubit only.
theorem before_declared {y : Declared} (left : x ∈ sheet.vertices) (right : y ∈ sheet.vertices) :
    Before drawn.diagram (sheet.number x.file) (sheet.number y.file) ↔
      x.qubit.rank < y.qubit.rank ∨ (x.qubit.rank = y.qubit.rank ∧ sheet.number x.file < sheet.number y.file) := by
  obtain ⟨xDefinite, xRank⟩ := declared_rank renders draws definite left
  obtain ⟨yDefinite, yRank⟩ := declared_rank renders draws definite right
  have same : x.vertex.qubit = y.vertex.qubit ↔ x.qubit.rank = y.qubit.rank := by
    rw [xRank, yRank]
    exact ⟨congrArg _, Decimal.place_injective⟩
  constructor
  · rintro ⟨a, b, first, second, order⟩
    obtain rfl := vertex_unique renders.sound.nodup first (renders.present left)
    obtain rfl := vertex_unique renders.sound.nodup second (renders.present right)
    rwa [xDefinite.lt_iff yDefinite, ← xRank, ← yRank, same] at order
  · intro order
    refine ⟨_, _, renders.present left, renders.present right, ?_⟩
    rwa [xDefinite.lt_iff yDefinite, ← xRank, ← yRank, same]

theorem inOrder_iff (side : Side) : (onSide drawn.diagram side).Pairwise (Before drawn.diagram) ↔ InOrder drawn side := by
  have sorted := renders.onSide_sorted side
  constructor
  · intro ordered m v n w x y first second left right vSide wSide same less
    obtain ⟨a, aHeld, rfl, rfl⟩ := renders.declared first vSide
    obtain ⟨b, bHeld, rfl, rfl⟩ := renders.declared second wSide
    obtain rfl := vertex_unique renders.sound.nodup left (renders.present aHeld)
    obtain rfl := vertex_unique renders.sound.nodup right (renders.present bHeld)
    have level : a.qubit.rank = b.qubit.rank := by
      rw [(declared_rank renders draws definite aHeld).2, (declared_rank renders draws definite bHeld).2, same]
    have apart : sheet.number a.file ≠ sheet.number b.file := fun equal => by
      obtain rfl := draws.file_inj aHeld bHeld equal
      exact Nat.lt_irrefl _ less
    rcases first_in_both ordered sorted vSide wSide apart with ⟨earlier, _⟩ | ⟨_, c, cHeld, e, eHeld, bSame, aSame, later⟩
    · rw [before_declared renders draws definite aHeld bHeld] at earlier
      omega
    · obtain rfl := draws.file_inj cHeld bHeld bSame
      obtain rfl := draws.file_inj eHeld aHeld aSame
      omega
  · intro inOrder
    refine sorted.imp_of_mem fun {v w} left right earlier => ?_
    obtain ⟨x, first, y, second, rfl, rfl, order⟩ := earlier
    rw [before_declared renders draws definite first second]
    refine order.imp_right fun ⟨level, less⟩ => ⟨level, ?_⟩
    have qubit : x.vertex.qubit = y.vertex.qubit := by
      refine Decimal.place_injective ?_
      rw [← (declared_rank renders draws definite first).2, ← (declared_rank renders draws definite second).2, level]
    exact inOrder _ _ _ _ _ _ (renders.filed first) (renders.filed second) (renders.present first) (renders.present second) left right qubit less

theorem before_asymm {v w : Nat} (left : v ∈ onSide drawn.diagram side) (right : w ∈ onSide drawn.diagram side)
    (earlier : Before drawn.diagram v w) : ¬Before drawn.diagram w v := by
  obtain ⟨x, first, _, rfl⟩ := renders.mem_onSide.mp left
  obtain ⟨y, second, _, rfl⟩ := renders.mem_onSide.mp right
  rw [before_declared renders draws definite first second] at earlier
  rw [before_declared renders draws definite second first]
  omega

end

-- Writing and reading a drawing changes nothing but the order of boundaries on one qubit.
theorem reload_stable (done : read source = .ok drawn)
    (definite : ∀ entry ∈ drawn.diagram.vertices, Definite entry.2.qubit ∧ Definite entry.2.row) :
    ∃ again, read (text drawn.diagram) = .ok again ∧
      again.diagram = { drawn.diagram with inputs := again.diagram.inputs, outputs := again.diagram.outputs } ∧
      ∀ side, (onSide again.diagram side).Perm (onSide drawn.diagram side) ∧
        (onSide again.diagram side).Pairwise (Before drawn.diagram) ∧
        (onSide again.diagram side = onSide drawn.diagram side ↔ InOrder drawn side) := by
  obtain ⟨sheet, draws, renders⟩ := read_draws done
  have drawable := renders.drawable draws definite
  have unmarked : ∀ entry ∈ drawn.diagram.vertices, entry.2.marker = none := by
    intro entry listed
    rw [renders.vertices] at listed
    obtain ⟨x, _, rfl⟩ := List.mem_map.mp listed
    rfl
  obtain ⟨vertices, edges⟩ := rendered_same drawable.sound renders.numbered unmarked
  have next : drawn.diagram.vertices.length = drawn.diagram.next := by
    rw [renders.next, renders.vertices, List.length_map]
  have order : Before (drawn.diagram.rendered drawn.diagram.vertices drawn.diagram.edges) = Before drawn.diagram := by
    unfold Before
    rw [vertices]
  refine ⟨_, (read_chars drawable).1, ?_, fun side => ?_⟩
  · exact (Diagram.mk.injEq ..).mpr ⟨vertices, edges, renders.unfreed.symm, next, rfl, rfl, renders.scalar.symm⟩
  · have perm := drawable.onSide_same renders.numbered side
    have sorted : (onSide (drafted drawn.diagram drawn.diagram.vertices drawn.diagram.edges).finish.diagram side).Pairwise (Before drawn.diagram) := by
      rw [← order]
      cases side <;> exact drawable.sideIds_sorted _
    refine ⟨perm, sorted, ?_⟩
    rw [← inOrder_iff renders draws definite side]
    refine ⟨fun same => same ▸ sorted, fun old => perm.eq_of_pairwise (fun v w left right earlier later => ?_) sorted old⟩
    exact absurd later (before_asymm renders draws definite (perm.mem_iff.mp left) right earlier)

-- Two inputs on one qubit, the one with the greater number first.
def crossed : String := "graph \x7b 5 [label=\"5:i\"] 3 [label=\"3:i\"] 8 [color=green, label=\"8:1/3\", pos=\"0.5,-1e1!\"] 5--8 3--8 [color=blue] \x7d"

def crossedDraft : Draft where
  diagram := {
    vertices := [(0, .boundary), (1, .boundary), (2, { kind := .z, phase := .third, qubit := 0.5, row := -10 })]
    edges := [⟨0, 2, .simple⟩, ⟨1, 2, .hadamard⟩]
    next := 3 }
  ids := [(5, 0), (3, 1), (8, 2)]
  ends := [⟨.input, 0, 5, 0⟩, ⟨.input, 0, 3, 1⟩]

-- A draft that is read out of the tokens, apart from the order of its boundaries.
def drafts (source : String) (draft : Draft) : Bool :=
  match tokens source.toList with
  | .ok (.graph :: .openBrace :: rest) =>
    match body {} rest with
    | .ok found => found.diagram = draft.diagram ∧ found.ids = draft.ids ∧ found.ends = draft.ends
    | .error _ => false
  | _ => false

theorem read_drafts {draft : Draft} (done : drafts source draft = true) : read source = .ok draft.finish := by
  unfold drafts at done
  split at done
  · rename_i rest scanned
    split at done
    · rename_i found ran
      obtain ⟨diagram, ids, ends⟩ := of_decide_eq_true done
      have same : found = draft := by
        cases found
        cases draft
        cases diagram
        cases ids
        cases ends
        rfl
      exact bind_ok.mpr ⟨_, scanned, readTokens_ok.mpr ⟨_, _, rfl, ran, same ▸ rfl⟩⟩
    · cases done
  · cases done

theorem crossed_read : read crossed = .ok crossedDraft.finish := read_drafts (by decide +kernel)

theorem crossed_inputs : crossedDraft.sideIds .input = [1, 0] := by
  change Draft.sideIds { ends := [⟨.input, 0, 5, 0⟩, ⟨.input, 0, 3, 1⟩] } .input = _
  cbv

theorem crossed_outputs : crossedDraft.sideIds .output = [] := by
  change Draft.sideIds { ends := [⟨.input, 0, 5, 0⟩, ⟨.input, 0, 3, 1⟩] } .output = _
  cbv

theorem crossed_definite : ∀ entry ∈ crossedDraft.finish.diagram.vertices, Definite entry.2.qubit ∧ Definite entry.2.row := by
  decide +kernel

theorem reload_stable_crossed : read crossed = .ok crossedDraft.finish ∧
    (∀ entry ∈ crossedDraft.finish.diagram.vertices, Definite entry.2.qubit ∧ Definite entry.2.row) ∧
    ∃ again, read (text crossedDraft.finish.diagram) = .ok again ∧
      again.diagram = { crossedDraft.finish.diagram with inputs := again.diagram.inputs, outputs := again.diagram.outputs } ∧
      ∀ side, (onSide again.diagram side).Perm (onSide crossedDraft.finish.diagram side) ∧
        (onSide again.diagram side).Pairwise (Before crossedDraft.finish.diagram) ∧
        (onSide again.diagram side = onSide crossedDraft.finish.diagram side ↔ InOrder crossedDraft.finish side) :=
  ⟨crossed_read, crossed_definite, reload_stable crossed_read crossed_definite⟩

-- The inputs are ordered by their numbers in the text first and by their ids then.
theorem reload_reordered : ∃ again, read crossed = .ok crossedDraft.finish ∧
    (∀ entry ∈ crossedDraft.finish.diagram.vertices, Definite entry.2.qubit ∧ Definite entry.2.row) ∧
    read (text crossedDraft.finish.diagram) = .ok again ∧
    crossedDraft.finish.diagram.inputs = [1, 0] ∧ again.diagram.inputs = [0, 1] := by
  have sides : crossedDraft.finish.diagram = { crossedDraft.diagram with inputs := [1, 0] } := by
    rw [Draft.finish, crossed_inputs, crossed_outputs]
    rfl
  have written : drafts (text { crossedDraft.diagram with inputs := [1, 0] })
      { crossedDraft with ids := [(0, 0), (1, 1), (2, 2)], ends := [⟨.input, 0, 0, 0⟩, ⟨.input, 0, 1, 1⟩] } = true := by
    decide +kernel
  refine ⟨_, crossed_read, crossed_definite, read_drafts (sides ▸ written), crossed_inputs, ?_⟩
  change Draft.sideIds { ends := [⟨.input, 0, 0, 0⟩, ⟨.input, 0, 1, 1⟩] } .input = _
  cbv

end ToffoliBench.Drawing

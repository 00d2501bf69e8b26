import ToffoliBench.Proofs.Diagram.Dangling
import ToffoliBench.Proofs.Drawing.Reload

namespace ToffoliBench

namespace Diagram

-- What is listed is a boundary with one neighbour, and boundaries have no phase.
structure Bordered (d : Diagram) : Prop where
  bound : ∀ v ∈ d.inputs ++ d.outputs, d.IsBoundary v
  single : ∀ v ∈ d.inputs ++ d.outputs, d.degree v = 1
  plain : ∀ entry ∈ d.vertices, entry.2.kind = .boundary → entry.2.phase = .zero

end Diagram

namespace Drawing

open Diagram Outcome

variable {source : String} {sheet : Sheet} {drawn : Drawn} {x : Declared}

def Sheet.wiresAt (sheet : Sheet) (n : Nat) : List Wire := sheet.wires.filter fun w => w.s == n || w.t == n

-- Vertices with a side are black and have one wire, and black vertices have no phase.
structure Sheet.Bordered (sheet : Sheet) : Prop where
  black : ∀ x ∈ sheet.vertices, x.side.isSome = true → x.kind = .boundary
  single : ∀ x ∈ sheet.vertices, x.side.isSome = true → (sheet.wiresAt x.file).length = 1
  plain : ∀ x ∈ sheet.vertices, x.kind = .boundary → x.phase = .zero

theorem Draws.renders (draws : Draws source sheet) (done : read source = .ok drawn) : Renders sheet drawn := by
  obtain ⟨inside, rest, items, scanned, spelled, taken⟩ := draws
  obtain ⟨draft, carried, holds⟩ := holds_empty.run_complete taken
  have ran : body {} (inside ++ .closeBrace :: rest) = .ok draft := body_complete spelled carried
  have made : read source = .ok draft.finish := bind_ok.mpr ⟨_, scanned, readTokens_ok.mpr ⟨_, draft, rfl, ran, rfl⟩⟩
  exact Except.ok.inj (made.symm.trans done) ▸ holds.renders

namespace Renders

variable (renders : Renders sheet drawn)
include renders

theorem known {w : Wire} (listed : w ∈ sheet.wires) : w.s ∈ sheet.files ∧ w.t ∈ sheet.files := by
  have held := renders.edges.mem_iff.mpr (List.mem_map_of_mem (f := sheet.edge) listed)
  obtain ⟨low, high⟩ := renders.sound.live _ held
  have size : sheet.files.length = sheet.vertices.length := List.length_map _
  rw [renders.numbered, List.mem_range, ← size] at low high
  simp only [Sheet.edge, Edge.between, Sheet.number] at low high
  rw [← List.idxOf_lt_length_iff, ← List.idxOf_lt_length_iff]
  omega

theorem degree (n : Nat) : drawn.diagram.degree (sheet.number n) = (sheet.wiresAt n).length := by
  rw [degree_perm renders.edges, List.countP_map, Sheet.wiresAt, ← List.countP_eq_length_filter]
  refine List.countP_congr fun w listed => ?_
  obtain ⟨first, second⟩ := renders.known listed
  rw [Function.comp_apply, Sheet.edge, Edge.touches_between, number_alike first, number_alike second]
  simp

theorem boundary (listed : x ∈ sheet.vertices) :
    drawn.diagram.IsBoundary (sheet.number x.file) ↔ x.kind = .boundary := by
  constructor
  · rintro ⟨y, held, bound⟩
    obtain rfl := vertex_unique renders.sound.nodup held (renders.present listed)
    exact bound
  · intro black
    exact ⟨x.vertex, renders.present listed, black⟩

theorem listed_iff {v : Nat} : v ∈ drawn.diagram.inputs ++ drawn.diagram.outputs ↔
    ∃ x ∈ sheet.vertices, x.side.isSome = true ∧ sheet.number x.file = v := by
  rw [List.mem_append]
  constructor
  · rintro (input | output)
    · obtain ⟨x, listed, side, number⟩ := renders.mem_onSide.mp (show v ∈ onSide drawn.diagram .input from input)
      exact ⟨x, listed, by rw [side]; rfl, number⟩
    · obtain ⟨x, listed, side, number⟩ := renders.mem_onSide.mp (show v ∈ onSide drawn.diagram .output from output)
      exact ⟨x, listed, by rw [side]; rfl, number⟩
  · rintro ⟨x, listed, sided, number⟩
    obtain ⟨side, known⟩ := Option.isSome_iff_exists.mp sided
    have ends := renders.mem_onSide.mpr ⟨x, listed, known, number⟩
    cases side with
    | input => exact .inl ends
    | output => exact .inr ends

theorem bordered_iff : drawn.diagram.Bordered ↔ sheet.Bordered := by
  constructor
  · intro bordered
    refine ⟨fun x listed sided => ?_, fun x listed sided => ?_, fun x listed black => ?_⟩
    · exact (renders.boundary listed).mp (bordered.bound _ (renders.listed_iff.mpr ⟨x, listed, sided, rfl⟩))
    · exact (renders.degree x.file).symm.trans (bordered.single _ (renders.listed_iff.mpr ⟨x, listed, sided, rfl⟩))
    · exact bordered.plain _ (renders.present listed) black
  · intro bordered
    refine ⟨fun v ends => ?_, fun v ends => ?_, fun entry held black => ?_⟩
    · obtain ⟨x, listed, sided, rfl⟩ := renders.listed_iff.mp ends
      exact (renders.boundary listed).mpr (bordered.black x listed sided)
    · obtain ⟨x, listed, sided, rfl⟩ := renders.listed_iff.mp ends
      exact (renders.degree x.file).trans (bordered.single x listed sided)
    · rw [renders.vertices] at held
      obtain ⟨x, listed, rfl⟩ := List.mem_map.mp held
      exact bordered.plain x listed black

theorem distinct (draws : Draws source sheet) : (drawn.diagram.inputs ++ drawn.diagram.outputs).Nodup := by
  refine List.nodup_append'.mpr ⟨renders.inputs.nodup_iff.mpr (draws.sideIds_nodup .input),
    renders.outputs.nodup_iff.mpr (draws.sideIds_nodup .output), fun v input output => ?_⟩
  obtain ⟨y, right, outward, same⟩ := renders.mem_onSide.mp (show v ∈ onSide drawn.diagram .output from output)
  obtain ⟨x, left, inward, rfl⟩ := renders.mem_onSide.mp (show v ∈ onSide drawn.diagram .input from input)
  obtain rfl := draws.file_inj right left same
  cases inward.symm.trans outward

theorem ended (draws : Draws source sheet) (bordered : drawn.diagram.Bordered) : drawn.diagram.Ended :=
  { renders.sound with distinct := renders.distinct draws, bound := bordered.bound, single := bordered.single }

theorem live {v : Nat} (listed : v ∈ drawn.diagram.inputs ++ drawn.diagram.outputs) : v ∈ drawn.diagram.ids := by
  obtain ⟨x, held, _, rfl⟩ := renders.listed_iff.mp listed
  exact List.mem_map_of_mem (renders.present held)

end Renders

-- A text is read as a diagram with proper boundaries just when it declares them properly. Two such
-- diagrams are composed without a boundary found dangling; wires are closed whatever was declared.
theorem read_bordered_iff (done : read source = .ok drawn) :
    (∃ sheet, Draws source sheet) ∧ (∀ sheet, Draws source sheet → (drawn.diagram.Bordered ↔ sheet.Bordered)) ∧
    (drawn.diagram.Bordered → ∀ other again stop, read other = .ok again → again.diagram.Bordered →
      drawn.diagram.compose again.diagram = .error stop → ¬Dangles stop) ∧
    (∀ states stop, drawn.diagram.plugInputs states = .error stop →
      stop.cause = .tooManyStates states.length drawn.diagram.inputs.length ∨ ∃ f, stop.cause = .fault f) ∧
    ∀ states stop, drawn.diagram.plugOutputs states = .error stop →
      stop.cause = .tooManyStates states.length drawn.diagram.outputs.length ∨ ∃ f, stop.cause = .fault f := by
  obtain ⟨sheet, draws, renders⟩ := read_draws done
  have once := renders.distinct draws
  refine ⟨⟨sheet, draws⟩, fun sheet draws => (draws.renders done).bordered_iff, ?composed, ?inputs, ?outputs⟩
  case composed =>
    intro bordered other again stop read_ bordered'
    obtain ⟨sheet', draws', renders'⟩ := read_draws read_
    exact (renders.ended draws bordered).compose_undangled (renders'.ended draws' bordered')
  case inputs =>
    intro states stop stopped
    rcases bind_error.mp stopped with stopped | ⟨_, _, stopped⟩
    · exact plug_counted (renders.sound.listed [] _) once.of_append_left (fun v held => renders.live (List.mem_append_left _ held)) stopped
    · cases stopped
  case outputs =>
    intro states stop stopped
    rcases bind_error.mp stopped with stopped | ⟨_, _, stopped⟩
    · exact plug_counted (renders.sound.listed _ []) once.of_append_right (fun v held => renders.live (List.mem_append_right _ held)) stopped
    · cases stopped

def threaded : String := "graph \x7b 0 [label=\"0:i\"] 1 [color=green, label=\"1:1/3\"] 2 [label=\"2:o\"] 0--1 1--2 [color=blue] \x7d"

def threadedDraft : Draft where
  diagram := {
    vertices := [(0, .boundary), (1, Vertex.z.withPhase .third), (2, .boundary)]
    edges := [⟨0, 1, .simple⟩, ⟨1, 2, .hadamard⟩]
    next := 3 }
  ids := [(0, 0), (1, 1), (2, 2)]
  ends := [⟨.input, 0, 0, 0⟩, ⟨.output, 0, 2, 2⟩]

theorem threaded_sides : threadedDraft.finish.diagram = { threadedDraft.diagram with inputs := [0], outputs := [2] } := by
  have input : threadedDraft.sideIds .input = [0] := by
    change Draft.sideIds { ends := [⟨.input, 0, 0, 0⟩, ⟨.output, 0, 2, 2⟩] } .input = _
    cbv
  have output : threadedDraft.sideIds .output = [2] := by
    change Draft.sideIds { ends := [⟨.input, 0, 0, 0⟩, ⟨.output, 0, 2, 2⟩] } .output = _
    cbv
  rw [Draft.finish, input, output]

theorem read_bordered_threaded : read threaded = .ok threadedDraft.finish ∧ threadedDraft.finish.diagram.Bordered ∧
    (∀ sheet, Draws threaded sheet → sheet.Bordered) ∧
    ∀ stop, threadedDraft.finish.diagram.compose threadedDraft.finish.diagram = .error stop → ¬Dangles stop := by
  have done : read threaded = .ok threadedDraft.finish := read_drafts (by decide +kernel)
  have bordered : threadedDraft.finish.diagram.Bordered := by
    rw [threaded_sides]
    exact ⟨by decide, by decide, by decide⟩
  obtain ⟨_, same, composed, _⟩ := read_bordered_iff done
  exact ⟨done, bordered, fun sheet draws => (same sheet draws).mp bordered, fun stop => composed bordered _ _ stop done bordered⟩

-- A spider that calls itself an input.
def disguised : String := "graph \x7b 0 [color=green, label=\"0:i\"] \x7d"

-- An input without a wire, and a boundary with a phase.
def loose : String := "graph \x7b 0 [label=\"0:i\"] 1 [label=\"1:1/3\"] \x7d"

theorem read_unbordered :
    (∃ drawn, read disguised = .ok drawn ∧ drawn.diagram.inputs = [0] ∧ ¬drawn.diagram.IsBoundary 0 ∧ ¬drawn.diagram.Bordered) ∧
    ∃ drawn stop, read loose = .ok drawn ∧ (identity 1).compose drawn.diagram = .error stop ∧ Dangles stop ∧
      (1, Vertex.boundary.withPhase .third) ∈ drawn.diagram.vertices := by
  have input : Draft.sideIds { ends := [⟨.input, 0, 0, 0⟩] } .input = [0] := by cbv
  have output : Draft.sideIds { ends := [⟨.input, 0, 0, 0⟩] } .output = [] := by cbv
  let green : Draft := { diagram := { vertices := [(0, .z)], next := 1 }, ids := [(0, 0)], ends := [⟨.input, 0, 0, 0⟩] }
  let bare : Draft :=
    { diagram := { vertices := [(0, .boundary), (1, Vertex.boundary.withPhase .third)], next := 2 }
      ids := [(0, 0), (1, 1)], ends := [⟨.input, 0, 0, 0⟩] }
  have greenRead : read disguised = .ok green.finish := read_drafts (by decide +kernel)
  have bareRead : read loose = .ok bare.finish := read_drafts (by decide +kernel)
  have bareSides : bare.finish.diagram = { bare.diagram with inputs := [0] } :=
    congrArg₂ (fun inputs outputs => { bare.diagram with inputs, outputs }) input output
  have listed : green.finish.diagram.inputs = [0] := input
  have unbound : ¬green.finish.diagram.IsBoundary 0 := by decide
  obtain ⟨stop, stopped, dangles⟩ : ∃ stop, (identity 1).compose bare.finish.diagram = .error stop ∧ Dangles stop := by
    rw [bareSides]
    exact ⟨_, rfl, _, rfl⟩
  refine ⟨⟨_, greenRead, listed, unbound, fun bordered => unbound (bordered.bound 0 ?_)⟩, _, stop, bareRead, stopped, dangles, by decide⟩
  exact List.mem_append_left _ (listed ▸ List.mem_singleton_self 0)

end Drawing

end ToffoliBench

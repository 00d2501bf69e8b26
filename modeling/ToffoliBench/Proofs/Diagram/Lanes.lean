import ToffoliBench.Proofs.Diagram.Growth
import ToffoliBench.Proofs.Diagram.Sewing
import ToffoliBench.Proofs.Numbers.Grid

namespace ToffoliBench.Diagram

open Decimal

variable {d other after : Diagram} {vs : List Nat} {names : Renaming} {qubits rows : Float} {n : Nat}

-- The qubits at which listed vertices are drawn, if they are there.
def lanes (d : Diagram) (vs : List Nat) : List (Option Float) := vs.map fun v => (d.vertex? v).map (·.qubit)

-- One lane for every qubit of a register, in order.
def ownLanes (n : Nat) : List (Option Float) := (List.range n).map fun q => some q.toFloat

theorem ownLanes_length : (ownLanes n).length = n := by simp [ownLanes]

-- Every qubit has its input and its output on its own lane.
structure Laned (d : Diagram) (n : Nat) : Prop where
  inputs : d.lanes d.inputs = ownLanes n
  outputs : d.lanes d.outputs = ownLanes n

theorem lanes_kept (before : d.ids.Nodup) (once : after.ids.Nodup) (live : ∀ v ∈ vs, v ∈ d.ids)
    (kept : ∀ entry ∈ d.vertices, entry.1 ∈ vs → entry ∈ after.vertices) : after.lanes vs = d.lanes vs := by
  refine List.map_congr_left fun v listed => ?_
  obtain ⟨⟨_, x⟩, held, rfl⟩ := List.mem_map.mp (live v listed)
  rw [(vertex_iff before).mpr held, (vertex_iff once).mpr (kept _ held listed)]

theorem lanes_moved (before : other.ids.Nodup) (once : after.ids.Nodup) (live : ∀ v ∈ vs, v ∈ other.ids)
    (moved : ∀ entry ∈ other.vertices, entry.1 ∈ vs → moveVertex names qubits rows entry ∈ after.vertices) :
    after.lanes (vs.map (rename names)) = (other.lanes vs).map (Option.map (· + qubits)) := by
  rw [lanes, lanes, List.map_map, List.map_map]
  refine List.map_congr_left fun v listed => ?_
  obtain ⟨⟨_, x⟩, held, rfl⟩ := List.mem_map.mp (live v listed)
  have found := (vertex_iff once).mpr (moved _ held listed)
  simp only [Function.comp_apply, (vertex_iff before).mpr held]
  rw [found]
  rfl

theorem ownLanes_moved (none : Halves qubits 0) : (ownLanes n).map (Option.map (· + qubits)) = ownLanes n := by
  rw [ownLanes, List.map_map]
  refine List.map_congr_left fun q _ => ?_
  simp only [Function.comp_apply, Option.map_some, add_none (toFloat_plain q) none]

theorem Grown.lanes {new : List (Nat × Vertex)} {es : List Edge} (grown : Grown d after new es) (sound : d.Sound)
    (live : ∀ v ∈ vs, v ∈ d.ids) : after.lanes vs = d.lanes vs :=
  lanes_kept sound.nodup grown.sound.nodup live fun _ held _ => grown.vertices.mem_iff.mpr (List.mem_append_left _ held)

theorem Ended.compose_lanes (left : d.Ended) (right : other.Ended) (lengths : d.outputs.length = other.inputs.length)
    (done : d.compose other = .ok after) : after.lanes after.inputs = d.lanes d.inputs ∧
      after.lanes after.outputs = (other.lanes other.outputs).map (Option.map (· + 0)) := by
  have sewing := left.sewing right lengths done
  have once := sewing.sound.nodup
  constructor
  · rw [sewing.inputs]
    refine lanes_kept left.nodup once (fun v input => (left.bound v (List.mem_append_left _ input)).live) fun entry held input => ?_
    have unsewn : entry.1 ∉ d.outputs := fun output => List.disjoint_of_nodup_append left.distinct input output
    exact sewing.vertices.mem_iff.mpr (List.mem_append_left _ (List.mem_filter.mpr ⟨held, by simpa using unsewn⟩))
  · have moved : ∀ entry ∈ other.vertices, entry.1 ∈ other.outputs → moveVertex (d.joinNames other) 0 d.depth entry ∈ after.vertices := by
      intro entry held output
      have unsewn : entry.1 ∉ other.inputs := fun input => List.disjoint_of_nodup_append right.distinct input output
      refine sewing.vertices.mem_iff.mpr (List.mem_append_right _ (List.mem_map_of_mem (List.mem_filter.mpr ⟨held, ?_⟩)))
      simpa using unsewn
    rw [sewing.outputs]
    exact lanes_moved right.nodup once (fun v output => (right.bound v (List.mem_append_right _ output)).live) moved

theorem Laned.compose (first : d.Laned n) (second : other.Laned n) (left : d.Ended) (right : other.Ended)
    (done : d.compose other = .ok after) : after.Laned n := by
  have size : ∀ {d : Diagram} {vs : List Nat}, d.lanes vs = ownLanes n → vs.length = n := by
    intro d vs same
    rw [← ownLanes_length (n := n), ← same, lanes, List.length_map]
  have lengths : d.outputs.length = other.inputs.length := by rw [size first.outputs, size second.inputs]
  obtain ⟨inputs, outputs⟩ := left.compose_lanes right lengths done
  exact ⟨inputs.trans first.inputs, by rw [outputs, second.outputs, ownLanes_moved halves_zero]⟩

theorem Ended.tensor_lanes (left : d.Ended) (right : other.Ended) (done : d.tensor other = .ok after) :
    after.lanes after.outputs = d.lanes d.outputs ++ (other.lanes other.outputs).map (Option.map (· + d.qubitCount)) := by
  have all := append_appended left.toSound right.toSound d.qubitCount 0
  have inside : ∀ v ∈ other.outputs, v ∈ other.ids := fun v output => (right.bound v (List.mem_append_right _ output)).live
  obtain ⟨scalar, _, rfl⟩ := (tensor_exact left.toSound right.toSound
    (fun v input => (right.bound v (List.mem_append_left _ input)).live) inside).mp done
  have once := all.sound.nodup
  have kept : (d.append other d.qubitCount 0).1.lanes d.outputs = d.lanes d.outputs :=
    lanes_kept left.nodup once (fun v output => (left.bound v (List.mem_append_right _ output)).live)
      fun entry held _ => all.vertices.mem_iff.mpr (List.mem_append_left _ held)
  have moved := lanes_moved right.nodup once inside
    fun entry held _ => all.vertices.mem_iff.mpr (List.mem_append_right _ (List.mem_map_of_mem held))
  rw [← kept, ← moved]
  exact List.map_append

theorem later_none {acc x : Float} {k : ℤ} (none : Halves acc 0) (counted : Halves x k) (low : k ≤ 0) : Halves (later acc x) 0 := by
  unfold later
  rcases low.lt_or_eq with below | rfl
  · have less : acc > x := counted.below below none
    rw [decide_eq_true less, Bool.or_true, if_pos rfl]
    exact none
  · split
    · exact none
    · exact counted

theorem qubitCount_none (above : ∀ entry ∈ d.vertices, ∃ k ≤ 0, Halves (entry.2.qubit + 1) k) : Halves d.qubitCount 0 := by
  have run : ∀ (entries : List (Nat × Vertex)) (acc : Float), Halves acc 0 →
      (∀ entry ∈ entries, ∃ k ≤ 0, Halves (entry.2.qubit + 1) k) →
      Halves (entries.foldl (fun acc entry => later acc (entry.2.qubit + 1)) acc) 0 := by
    intro entries
    induction entries with
    | nil => exact fun acc none _ => none
    | cons entry rest ih =>
      intro acc none all
      obtain ⟨⟨k, low, counted⟩, others⟩ := List.forall_mem_cons.mp all
      exact ih _ (later_none none counted low) others
  exact run _ _ halves_zero above

end ToffoliBench.Diagram

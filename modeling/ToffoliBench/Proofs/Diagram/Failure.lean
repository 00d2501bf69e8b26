import ToffoliBench.Diagram.Compose
import ToffoliBench.Diagram.Plug
import ToffoliBench.Proofs.Outcome

namespace ToffoliBench.Diagram
open Outcome

variable {d other after : Diagram} {names : Renaming} {pairs : List (Nat × Nat)} {o i : Nat}
  {wires : List Nat} {states : List BasisState} {stop : Interrupted}

-- The same to whoever looks at it; which ids are free for reuse cannot be seen.
structure Kept (before after : Diagram) : Prop where
  vertices : after.vertices = before.vertices
  edges : after.edges = before.edges
  inputs : after.inputs = before.inputs
  outputs : after.outputs = before.outputs
  scalar : after.scalar = before.scalar

theorem Kept.refl (d : Diagram) : d.Kept d := ⟨rfl, rfl, rfl, rfl, rfl⟩

theorem drop_outputs (d : Diagram) (v : Nat) : (d.drop v).outputs = d.outputs := by
  unfold drop
  split <;> rfl

theorem addEdge_outputs {a b : Nat} {kind : EdgeKind} (done : d.addEdge a b kind = .ok after) : after.outputs = d.outputs := by
  unfold addEdge at done
  split at done
  · cases done
  split at done
  · cases done
  split at done
  · cases done
  split at done
  · cases done
  · cases done
    rfl

theorem fusePair_outputs (done : d.fusePair o i = .ok after) : after.outputs = d.outputs := by
  obtain ⟨_, _, done⟩ := bind_ok.mp done
  obtain ⟨_, _, done⟩ := bind_ok.mp done
  rw [addEdge_outputs (mapError_ok.mp done), drop_outputs, drop_outputs]

theorem fusePair_stopped (stopped : d.fusePair o i = .error stop) : stop.left.outputs = d.outputs := by
  cases bind_error.mp stopped with
  | inl outer =>
    obtain ⟨cause, _, rfl⟩ := mapError_error.mp outer
    rfl
  | inr reached =>
    obtain ⟨far, _, stopped⟩ := reached
    cases bind_error.mp stopped with
    | inl inner =>
      obtain ⟨cause, _, rfl⟩ := mapError_error.mp inner
      rfl
    | inr opened =>
      obtain ⟨near, _, stopped⟩ := opened
      obtain ⟨cause, _, rfl⟩ := mapError_error.mp stopped
      exact (drop_outputs _ i).trans (drop_outputs d o)

theorem fusePairs_stopped (stopped : fusePairs names d pairs = .error stop) : stop.left.outputs = d.outputs ∧ pairs ≠ [] := by
  induction pairs generalizing d with
  | nil => cases stopped
  | cons pair rest ih =>
    refine ⟨?_, List.cons_ne_nil _ _⟩
    rw [fusePairs] at stopped
    cases bind_error.mp stopped with
    | inl unnamed =>
      obtain ⟨f, _, rfl⟩ := mapError_error.mp unnamed
      rfl
    | inr named =>
      obtain ⟨w, _, stopped⟩ := named
      cases bind_error.mp stopped with
      | inl first => exact fusePair_stopped first
      | inr later =>
        obtain ⟨middle, done, stopped⟩ := later
        exact (ih stopped).1.trans (fusePair_outputs done)

theorem compose_stopped (stopped : d.compose other = .error stop) (cause : ∀ f, stop.cause ≠ .fault f)
    (arity : d.outputs.length = other.inputs.length) : stop.left.outputs = [] ∧ d.outputs ≠ [] := by
  unfold compose at stopped
  rw [if_neg (not_not_intro arity)] at stopped
  cases bind_error.mp stopped with
  | inl fusing =>
    obtain ⟨lost, nonempty⟩ := fusePairs_stopped fusing
    refine ⟨lost, fun none => nonempty ?_⟩
    rw [none, List.zip_nil_left]
  | inr fused =>
    obtain ⟨after, _, stopped⟩ := fused
    obtain ⟨f, _, rfl⟩ := mapError_error.mp stopped
    exact absurd rfl (cause f)

-- Closing wires does nothing to the lists, and with no wires it does not fail.
theorem plugWires_stopped {plugged : Int} (stopped : d.plugWires plugged wires states = .error stop) :
    stop.left.inputs = d.inputs ∧ stop.left.outputs = d.outputs ∧ wires ≠ [] := by
  induction wires generalizing d states plugged with
  | nil => cases stopped
  | cons v rest ih =>
    rw [plugWires] at stopped
    cases closes : states.head?.bind BasisState.spider with
    | none =>
      simp only [closes] at stopped
      cases bind_error.mp stopped with
      | inl later =>
        obtain ⟨inputs, outputs, _⟩ := ih later
        exact ⟨inputs, outputs, List.cons_ne_nil _ _⟩
      | inr done =>
        obtain ⟨_, _, stopped⟩ := done
        cases stopped
    | some spider =>
      simp only [closes] at stopped
      split at stopped
      · cases stopped
        exact ⟨rfl, rfl, List.cons_ne_nil _ _⟩
      · cases bind_error.mp stopped with
        | inl counting =>
          obtain ⟨f, _, rfl⟩ := mapError_error.mp counting
          exact ⟨rfl, rfl, List.cons_ne_nil _ _⟩
        | inr counted =>
          obtain ⟨_, _, later⟩ := counted
          obtain ⟨inputs, outputs, _⟩ := ih later
          exact ⟨inputs, outputs, List.cons_ne_nil _ _⟩

theorem plug_stopped (stopped : d.plug wires states = .error stop) (cause : ∀ f, stop.cause ≠ .fault f) :
    stop.left.inputs = d.inputs ∧ stop.left.outputs = d.outputs ∧ (wires = [] → stop.left = d) := by
  unfold plug at stopped
  split at stopped
  · cases stopped
    exact ⟨rfl, rfl, fun _ => rfl⟩
  · cases bind_error.mp stopped with
    | inl closing =>
      obtain ⟨inputs, outputs, nonempty⟩ := plugWires_stopped closing
      exact ⟨inputs, outputs, fun none => absurd none nonempty⟩
    | inr closed =>
      obtain ⟨_, _, stopped⟩ := closed
      cases bind_error.mp stopped with
      | inl scaling =>
        obtain ⟨f, _, rfl⟩ := mapError_error.mp scaling
        exact absurd rfl (cause f)
      | inr scaled =>
        obtain ⟨_, _, stopped⟩ := scaled
        cases stopped

theorem plugInputs_stopped (stopped : d.plugInputs states = .error stop) (cause : ∀ f, stop.cause ≠ .fault f) :
    d.Kept stop.left ↔ d.inputs = [] := by
  cases bind_error.mp stopped with
  | inl plugging =>
    obtain ⟨lost, _, same⟩ := plug_stopped plugging cause
    constructor
    · intro kept
      exact kept.inputs.symm.trans lost
    · intro none
      rw [same none]
      exact ⟨rfl, rfl, none.symm, rfl, rfl⟩
  | inr plugged =>
    obtain ⟨_, _, stopped⟩ := plugged
    cases stopped

theorem plugOutputs_stopped (stopped : d.plugOutputs states = .error stop) (cause : ∀ f, stop.cause ≠ .fault f) :
    d.Kept stop.left ↔ d.outputs = [] := by
  cases bind_error.mp stopped with
  | inl plugging =>
    obtain ⟨_, lost, same⟩ := plug_stopped plugging cause
    constructor
    · intro kept
      exact kept.outputs.symm.trans lost
    · intro none
      rw [same none]
      exact ⟨rfl, rfl, rfl, none.symm, rfl⟩
  | inr plugged =>
    obtain ⟨_, _, stopped⟩ := plugged
    cases stopped

-- Which failed operations leave the diagram as it was: compositions of the wrong arity, and pluggings
-- of a diagram that has no wire on that side.
theorem failed_kept_iff (d other : Diagram) (states : List BasisState) :
    (∀ stop, d.compose other = .error stop → (∀ f, stop.cause ≠ .fault f) →
      (d.Kept stop.left ↔ d.outputs.length ≠ other.inputs.length)) ∧
      (∀ stop, d.plugInputs states = .error stop → (∀ f, stop.cause ≠ .fault f) → (d.Kept stop.left ↔ d.inputs = [])) ∧
      ∀ stop, d.plugOutputs states = .error stop → (∀ f, stop.cause ≠ .fault f) → (d.Kept stop.left ↔ d.outputs = []) := by
  refine ⟨fun stop stopped cause => ?_, fun _ => plugInputs_stopped, fun _ => plugOutputs_stopped⟩
  by_cases arity : d.outputs.length = other.inputs.length
  · obtain ⟨lost, nonempty⟩ := compose_stopped stopped cause arity
    exact ⟨fun kept => absurd (kept.outputs.symm.trans lost) nonempty, fun different => absurd arity different⟩
  · unfold compose at stopped
    rw [if_pos arity] at stopped
    cases stopped
    exact ⟨fun _ => arity, fun _ => .refl d⟩

-- Three inputs against two outputs are refused in time, two states for one wire are not.
theorem failed_kept_some :
    (∃ stop, (identity 2).compose (identity 3) = .error stop ∧ (identity 2).Kept stop.left) ∧
      ∃ stop, (identity 1).plugOutputs [.zero, .zero] = .error stop ∧ ¬ (identity 1).Kept stop.left := by
  obtain ⟨compose, _, _⟩ := failed_kept_iff (identity 2) (identity 3) []
  obtain ⟨_, _, plug⟩ := failed_kept_iff (identity 1) (identity 1) [.zero, .zero]
  refine ⟨⟨_, rfl, (compose _ rfl nofun).mpr (by decide)⟩, _, rfl, fun kept => ?_⟩
  exact absurd ((plug _ rfl nofun).mp kept) (by decide)

-- The input of the wire is gone from the list, although no state closed it.
theorem plugInputs_lost :
    ∃ stop, (identity 1).plugInputs [.zero, .zero] = .error stop ∧ stop.cause = .tooManyStates 2 1 ∧
      ¬ (identity 1).Kept stop.left := by
  refine ⟨_, rfl, rfl, fun kept => ?_⟩
  exact absurd kept.inputs (by decide)

end ToffoliBench.Diagram

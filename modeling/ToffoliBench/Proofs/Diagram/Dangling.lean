import ToffoliBench.Proofs.Diagram.Depiction
import ToffoliBench.Proofs.Diagram.Plugging
import ToffoliBench.Proofs.Diagram.WellFormed

namespace ToffoliBench.Diagram
open Outcome

variable {d other : Diagram} {names : Renaming} {pairs : List (Nat × Nat)} {o i v : Nat} {wires : List Nat}
  {states : List BasisState} {stop : Interrupted}

section

variable (left : d.Ended) (right : other.Ended)
include left right

-- The ends that are sewn together are different vertices with one wire each.
theorem Ended.seam_once : (d.outputs ++ other.inputs.map (rename (d.joinNames other))).Nodup := by
  have all := append_appended left.toSound right.toSound 0 d.depth
  have live : ∀ u ∈ other.inputs, u ∈ other.ids := fun u held => (right.bound u (List.mem_append_left _ held)).live
  refine List.nodup_append'.mpr ⟨left.distinct.of_append_right, ?_, ?_⟩
  · exact right.distinct.of_append_left.map_on fun u one v two => all.injective (live u one) (live v two)
  · intro v output moved
    obtain ⟨u, input, rfl⟩ := List.mem_map.mp moved
    exact all.new (live u input) (left.bound _ (List.mem_append_right _ output)).live

theorem Ended.seam_single (sewn : v ∈ d.outputs ++ other.inputs.map (rename (d.joinNames other))) : (d.joined other).degree v = 1 := by
  have all := append_appended left.toSound right.toSound 0 d.depth
  rcases List.mem_append.mp sewn with output | moved
  · have listed := List.mem_append_right d.inputs output
    exact (all.degree_left right.toSound (left.bound v listed).live).trans (left.single v listed)
  · obtain ⟨u, input, rfl⟩ := List.mem_map.mp moved
    have listed := List.mem_append_left other.outputs input
    exact (all.degree_right right.toSound left.toSound (right.bound u listed).live).trans (right.single u listed)

end

def Dangles (stop : Interrupted) : Prop := ∃ v, stop.cause = .danglingBoundary v

-- An edge is refused for its ends, never for a boundary.
theorem addEdge_undangled {a b : Nat} {kind : EdgeKind} {cause : DiagramError} (stopped : d.addEdge a b kind = .error cause) (v : Nat) :
    cause ≠ .danglingBoundary v := by
  unfold addEdge at stopped
  split at stopped
  · cases stopped
    exact nofun
  split at stopped
  · cases stopped
    exact nofun
  split at stopped
  · cases stopped
    exact nofun
  split at stopped
  · cases stopped
    exact nofun
  · cases stopped

theorem soleNeighbor_single (single : d.degree v = 1) : ∃ near, d.soleNeighbor v = .ok near := by
  obtain ⟨w, k, only⟩ := incident_single single
  exact ⟨(w, k), soleNeighbor_ok.mpr only⟩

theorem fusePair_undangled (outer : d.degree o = 1) (inner : d.degree i = 1) (stopped : d.fusePair o i = .error stop) : ¬Dangles stop := by
  obtain ⟨near, first⟩ := soleNeighbor_single outer
  obtain ⟨far, second⟩ := soleNeighbor_single inner
  rintro ⟨v, dangles⟩
  rcases bind_error.mp stopped with failed | ⟨_, _, stopped⟩
  · obtain ⟨cause, failed, _⟩ := mapError_error.mp failed
    cases first.symm.trans failed
  rcases bind_error.mp stopped with failed | ⟨_, _, stopped⟩
  · obtain ⟨cause, failed, _⟩ := mapError_error.mp failed
    cases second.symm.trans failed
  · obtain ⟨cause, refused, rfl⟩ := mapError_error.mp stopped
    exact addEdge_undangled refused v dangles

-- Fusing a pair leaves every other boundary its one wire.
theorem fusePairs_undangled (sound : d.Sound) (known : ∀ pair ∈ pairs, renamed names pair.2 = .ok (rename names pair.2))
    (once : (pairs.map Prod.fst ++ pairs.map fun pair => rename names pair.2).Nodup)
    (single : ∀ v ∈ pairs.map Prod.fst ++ pairs.map (fun pair => rename names pair.2), d.degree v = 1)
    (stopped : fusePairs names d pairs = .error stop) : ¬Dangles stop := by
  induction pairs generalizing d with
  | nil => cases stopped
  | cons pair rest ih =>
    obtain ⟨o, i⟩ := pair
    have named := known (o, i) List.mem_cons_self
    have outer := single o (by simp)
    have inner := single (rename names i) (by simp)
    rw [List.map_cons, List.map_cons, List.cons_append, List.nodup_cons] at once
    obtain ⟨new, once⟩ := once
    obtain ⟨apart, once⟩ := List.nodup_cons.mp ((List.perm_middle.nodup_iff).mp once)
    rcases bind_error.mp stopped with unnamed | ⟨j, found, stopped⟩
    · obtain ⟨f, unnamed, _⟩ := mapError_error.mp unnamed
      cases named.symm.trans unnamed
    obtain rfl := Except.ok.inj (named.symm.trans (mapError_ok.mp found))
    rcases bind_error.mp stopped with first | ⟨middle, done, stopped⟩
    · exact fusePair_undangled outer inner first
    obtain ⟨a, b, k, l, fusable, rfl⟩ := sound.fusePair_ok.mp done
    refine ih (fusable.fused_sound sound) (fun pair held => known pair (List.mem_cons_of_mem _ held)) once (fun v held => ?_) stopped
    have here : v ≠ o ∧ v ≠ rename names i := by
      constructor
      · rintro rfl
        exact new (List.mem_append.mpr ((List.mem_append.mp held).imp_right (List.mem_cons_of_mem _)))
      · rintro rfl
        exact apart held
    rw [fusable.degree sound here.1 here.2]
    refine single v ?_
    simp only [List.map_cons, List.mem_append, List.mem_cons] at held ⊢
    tauto

theorem Ended.compose_undangled (left : d.Ended) (right : other.Ended) (stopped : d.compose other = .error stop) : ¬Dangles stop := by
  have all := append_appended left.toSound right.toSound 0 d.depth
  unfold compose at stopped
  split at stopped
  · cases stopped
    rintro ⟨v, dangles⟩
    cases dangles
  rename_i lengths
  rw [not_not] at lengths
  rcases bind_error.mp stopped with fusing | ⟨_, _, stopped⟩
  · have ends : (d.outputs.zip other.inputs).map Prod.fst ++
        (d.outputs.zip other.inputs).map (fun pair => rename (d.joinNames other) pair.2) =
        d.outputs ++ other.inputs.map (rename (d.joinNames other)) := by
      rw [List.map_fst_zip (Nat.le_of_eq lengths), ← seam_snd lengths, seam, List.map_map]
      rfl
    refine fusePairs_undangled (left.toSound.joined right.toSound) (fun pair held => all.renamed_ok ?_)
      (ends.symm ▸ left.seam_once right) (fun v sewn => left.seam_single right (ends ▸ sewn)) fusing
    exact (right.bound _ (List.mem_append_left _ (List.of_mem_zip held).2)).live
  · obtain ⟨f, _, rfl⟩ := mapError_error.mp stopped
    rintro ⟨v, dangles⟩
    cases dangles

-- With every wire in the diagram, nothing but the number of states can be wrong.
theorem plug_counted (sound : d.Sound) (once : wires.Nodup) (live : ∀ v ∈ wires, v ∈ d.ids) (stopped : d.plug wires states = .error stop) :
    stop.cause = .tooManyStates states.length wires.length ∨ ∃ f, stop.cause = .fault f := by
  unfold plug at stopped
  split at stopped
  · cases stopped
    exact .inl rfl
  · obtain ⟨left, run⟩ := plugWires_exact states sound once live (Int.le_refl 0) (by decide)
    rw [run] at stopped
    rcases bind_error.mp stopped with failed | ⟨_, _, stopped⟩
    · split at failed <;> cases failed
      exact .inr ⟨_, rfl⟩
    rcases bind_error.mp stopped with failed | ⟨_, _, stopped⟩
    · obtain ⟨f, _, rfl⟩ := mapError_error.mp failed
      exact .inr ⟨f, rfl⟩
    · cases stopped

end ToffoliBench.Diagram

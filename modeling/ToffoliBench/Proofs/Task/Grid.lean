import Mathlib.Data.List.Forall2
import ToffoliBench.Proofs.Outcome
import ToffoliBench.Proofs.Random.Draws
import ToffoliBench.Proofs.Settings.Validity
import ToffoliBench.Task.Grid

namespace ToffoliBench.Task
open Outcome

variable {s : Settings} {entropy : Nat} {sizes : List (Nat → Task)} {tasks : List Task} {t u : Task}

-- The task of a place of the grid, with some seed of the range.
def Seeded (size : Nat → Task) (t : Task) : Prop := ∃ seed, 1 ≤ seed ∧ seed ≤ maxSeed ∧ t = size seed

theorem seeded_each (sizes : List (Nat → Task)) : Draw.Always (seeded sizes) (List.Forall₂ Seeded sizes) := by
  induction sizes with
  | nil => exact .pure .nil
  | cons size rest ih =>
    refine .bind (Draw.between_range .w64 (by decide)) fun seed ranged => ?_
    exact .bind ih fun tasks each => .pure (.cons ⟨seed, ranged.1, ranged.2, rfl⟩ each)

-- There is a grid unless its tasks would not fit into memory.
theorem grid_exists {count : Nat} (counted : s.taskCount = .ok count) (fits : count * taskBytes ≤ Range.addressLimit) (entropy : Nat) :
    ∃ tasks, grid s entropy = .ok tasks :=
  ⟨_, bind_ok.mpr ⟨count, counted, if_neg (Nat.not_lt.mpr fits)⟩⟩

theorem grid_each (drawn : grid s entropy = .ok tasks) : List.Forall₂ Seeded (Task.sizes s) tasks := by
  obtain ⟨count, _, drawn⟩ := bind_ok.mp drawn
  split at drawn
  · cases drawn
  · rw [← Except.ok.inj drawn]
    exact seeded_each _ _

theorem seeded_origin (each : List.Forall₂ Seeded sizes tasks) (listed : t ∈ tasks) : ∃ size ∈ sizes, Seeded size t := by
  induction each with
  | nil => cases listed
  | @cons size u rest tasks seeded _ ih =>
    rcases List.mem_cons.mp listed with rfl | later
    · exact ⟨size, List.mem_cons_self, seeded⟩
    · obtain ⟨other, held, seeded⟩ := ih later
      exact ⟨other, List.mem_cons_of_mem _ held, seeded⟩

theorem sizes_first (valid : s.Valid) : ∃ qubits nots cnots toffolis,
    List.replicate s.samples (fun seed => ⟨qubits, nots, cnots, toffolis, seed⟩) <+: Task.sizes s := by
  obtain ⟨qubits, _, one⟩ := List.exists_cons_of_ne_nil valid.qubits
  obtain ⟨nots, _, two⟩ := List.exists_cons_of_ne_nil valid.nots
  obtain ⟨cnots, _, three⟩ := List.exists_cons_of_ne_nil valid.cnots
  obtain ⟨toffolis, _, four⟩ := List.exists_cons_of_ne_nil valid.toffolis
  refine ⟨qubits, nots, cnots, toffolis, ?_⟩
  simp only [Task.sizes, one, two, three, four, List.flatMap_cons, List.append_assoc]
  exact List.prefix_append _ _

theorem grid_first (valid : s.Valid) (drawn : grid s entropy = .ok tasks) : ∃ size, (tasks.take s.samples).length = s.samples ∧
    ∀ t ∈ tasks.take s.samples, t.size = size ∧ 1 ≤ t.seed ∧ t.seed ≤ maxSeed := by
  obtain ⟨qubits, nots, cnots, toffolis, more, shape⟩ := sizes_first valid
  have each := List.forall₂_take s.samples (grid_each drawn)
  rw [← shape, List.take_left' List.length_replicate] at each
  refine ⟨[qubits, nots, cnots, toffolis], each.length_eq.symm.trans List.length_replicate, fun t listed => ?_⟩
  obtain ⟨size, held, seed, least, most, rfl⟩ := seeded_origin each listed
  obtain rfl := List.eq_of_mem_replicate held
  exact ⟨rfl, least, most⟩

theorem grid_filled (valid : s.Valid) (drawn : grid s entropy = .ok tasks) : tasks ≠ [] := by
  rintro rfl
  obtain ⟨_, length, _⟩ := grid_first valid drawn
  exact valid.samples (length.symm.trans (congrArg List.length List.take_nil))

-- No two tasks of one size have one seed.
def SeedsApart (tasks : List Task) : Prop := tasks.Pairwise fun t u => t.size = u.size → t.seed ≠ u.seed

theorem eq_of_size (size : t.size = u.size) (seed : t.seed = u.seed) : t = u := by
  obtain ⟨qubits, nots, cnots, toffolis, seed⟩ := t
  obtain ⟨qubits', nots', cnots', toffolis', seed'⟩ := u
  simp_all [Task.size]

theorem seedsApart_iff : SeedsApart tasks ↔ tasks.Nodup := by
  refine List.Pairwise.iff_of_mem fun _ _ => ⟨fun apart same => apart (same ▸ rfl) (same ▸ rfl), ?_⟩
  exact fun different size seed => different (eq_of_size size seed)

theorem seeds_exhausted (valid : s.Valid) (drawn : grid s entropy = .ok tasks) (many : maxSeed < s.samples) : ¬SeedsApart tasks := by
  intro apart
  obtain ⟨size, length, first⟩ := grid_first valid drawn
  have seeds : ((tasks.take s.samples).map Task.seed).Nodup := by
    refine List.pairwise_map.mpr ((List.Pairwise.sublist (List.take_sublist _ _) apart).imp_of_mem fun one two differ => ?_)
    exact differ ((first _ one).1.trans (first _ two).1.symm)
  have few : ((tasks.take s.samples).map Task.seed).length ≤ (List.range' 1 maxSeed).length := by
    refine seeds.length_le_of_subset fun seed listed => ?_
    obtain ⟨t, held, rfl⟩ := List.mem_map.mp listed
    obtain ⟨_, least, most⟩ := first t held
    exact List.mem_range'_1.mpr ⟨least, by omega⟩
  rw [List.length_map, length, List.length_range'] at few
  omega

end ToffoliBench.Task

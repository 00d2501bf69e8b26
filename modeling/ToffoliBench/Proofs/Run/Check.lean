import ToffoliBench.Proofs.Recipe.Shape
import ToffoliBench.Run.Tasks

namespace ToffoliBench

open Fragment Outcome

namespace Recipe

variable {r : Recipe} {entropy : Nat}

theorem validate_seed (r : Recipe) (seed : Option Nat) : { r with seed }.validate = r.validate := rfl

theorem benchmark_refused {e : CircuitError} (refused : r.validate = .error e) : r.benchmark entropy = .error e := by
  have stopped := (r.generateFrom_drawn (.ofSeed (r.seed.getD entropy).toUInt64)).refused e refused
  rw [benchmark, generate, stopped]
  rfl

-- After the circuit is drawn no step can fail, so only the recipe matters.
theorem benchmark_made (ranged : ∀ s, r.generate entropy = .ok s → Range.signed32 (hBoxPower * s.boxes - 2 * r.qubits) = true)
    (valid : r.validate = .ok ()) : ∃ c, r.benchmark entropy = .ok c := by
  have drawn : r.Drawn (r.generate entropy) := r.generateFrom_drawn _
  obtain ⟨s, generated⟩ := drawn.accepted.mpr valid
  obtain ⟨d, closed, resolved, built, done, _⟩ := closed_shaped (drawn.follows s generated) (ranged s generated)
  refine ⟨⟨s, closed, resolved⟩, bind_ok.mpr ⟨s, generated, ?_⟩⟩
  exact bind_ok.mpr ⟨d, built, bind_ok.mpr ⟨(resolved, closed), mapError_ok.mpr done, rfl⟩⟩

end Recipe

namespace Task

variable {s : Settings} {t u : Task} {tasks : List Task} {seen : List (List Nat)} {e : CircuitError} {solver : Solver} {fs : Files}

theorem recipe_of_size (same : t.size = u.size) : t.recipe s = { u.recipe s with seed := some t.seed } := by
  obtain ⟨qubits, nots, cnots, toffolis, seed⟩ := t
  obtain ⟨qubits', nots', cnots', toffolis', seed'⟩ := u
  obtain ⟨rfl, rfl, rfl, rfl⟩ : qubits = qubits' ∧ nots = nots' ∧ cnots = cnots' ∧ toffolis = toffolis' := by
    simpa [size] using same
  rfl

theorem validate_of_size (same : t.size = u.size) : (t.recipe s).validate = (u.recipe s).validate := by
  rw [recipe_of_size same, Recipe.validate_seed]

theorem check_passes : check s seen tasks = .ok () ↔ ∀ t ∈ tasks, t.size ∉ seen → (t.recipe s).validate = .ok () := by
  induction tasks generalizing seen with
  | nil => simp [check]
  | cons t rest ih =>
    rw [check, List.forall_mem_cons]
    by_cases met : t.size ∈ seen
    · rw [if_pos (List.contains_iff_mem.mpr met), ih]
      simp [met]
    · rw [if_neg (mt List.contains_iff_mem.mp met), check_ok, ih]
      constructor
      · intro ⟨valid, later⟩
        refine ⟨fun _ => valid, fun u listed unseen => ?_⟩
        by_cases same : u.size = t.size
        · rwa [validate_of_size same]
        · exact later u listed (List.not_mem_cons_of_ne_of_not_mem same unseen)
      · intro ⟨valid, later⟩
        exact ⟨valid met, fun u listed unseen => later u listed fun held => unseen (List.mem_cons_of_mem _ held)⟩

theorem check_refused (refused : check s seen tasks = .error e) : ∃ t ∈ tasks, (t.recipe s).validate = .error e := by
  induction tasks generalizing seen with
  | nil => cases refused
  | cons t rest ih =>
    rw [check] at refused
    split at refused
    · obtain ⟨u, listed, invalid⟩ := ih refused
      exact ⟨u, List.mem_cons_of_mem _ listed, invalid⟩
    · cases valid : (t.recipe s).validate with
      | error cause =>
        rw [valid] at refused
        exact ⟨t, List.mem_cons_self, valid.trans refused⟩
      | ok _ =>
        rw [valid] at refused
        obtain ⟨u, listed, invalid⟩ := ih refused
        exact ⟨u, List.mem_cons_of_mem _ listed, invalid⟩

theorem circuit_refused (invalid : (t.recipe s).validate = .error e) : t.circuit s = .error e :=
  Recipe.benchmark_refused invalid

theorem circuit_made (valid : (t.recipe s).validate = .ok ())
    (ranged : ∀ made, (t.recipe s).generate 0 = .ok made → Range.signed32 (hBoxPower * made.boxes - 2 * t.qubits) = true) :
    ∃ c, t.circuit s = .ok c :=
  Recipe.benchmark_made ranged valid

-- A grid point that is not huge keeps the power of its circuits in range, whatever is drawn.
theorem ranged_of_small (small : (t.nots + t.cnots + t.toffolis) * t.qubits + t.qubits ≤ 1073741824) :
    ∀ made, (t.recipe s).generate 0 = .ok made → Range.signed32 (hBoxPower * made.boxes - 2 * t.qubits) = true := by
  intro made generated
  have follows := ((t.recipe s).generateFrom_drawn _).follows made generated
  have few : made.boxes ≤ (t.nots + t.cnots + t.toffolis) * t.qubits := follows.size ▸ follows.boxes_le
  rw [signed32_iff, hBoxPower]
  omega

theorem written_generation {path : String} {outcome : Files × Except FileError Unit} :
    (written path outcome).2 ≠ .error (.generation e) := by
  obtain ⟨held, result⟩ := outcome
  cases result <;> nofun

-- A task lacks its circuit exactly when it reports so. What its files and its solver do is another matter.
theorem run_generation : (t.run s solver fs).2.result = .error (.generation e) ↔ t.circuit s = .error e := by
  unfold Task.run writeDiagram drawing
  cases made : t.circuit s with
  | error cause => simp
  | ok c =>
    refine ⟨fun failed => ?_, nofun⟩
    dsimp only at failed
    split at failed
    · rename_i after cause stopped
      cases failed
      exact absurd (congrArg Prod.snd stopped) written_generation
    · split at failed
      · rename_i after cause stopped
        cases failed
        exact absurd (congrArg Prod.snd stopped) written_generation
      · cases failed

end Task

namespace Run

variable {s : Settings} {solver : Solver} {tasks : List Task} {fs : Files} {e : CircuitError}

theorem step_run (t : Task) : (step s solver fs t).2 = (t.run s solver fs).2 := by
  unfold step
  dsimp only
  split <;> rfl

theorem mem_steps {run : TaskRun} (listed : run ∈ (steps s solver fs tasks).2) :
    ∃ t ∈ tasks, ∃ held, run = (t.run s solver held).2 := by
  induction tasks generalizing fs with
  | nil => cases listed
  | cons t rest ih =>
    rw [steps] at listed
    cases List.mem_cons.mp listed with
    | inl here => exact ⟨t, List.mem_cons_self, fs, here.trans (step_run t)⟩
    | inr later =>
      obtain ⟨u, held, found⟩ := ih later
      exact ⟨u, List.mem_cons_of_mem _ held, found⟩

theorem mem_ofTasks {run : TaskRun} (listed : run ∈ (ofTasks s solver tasks fs).tasks) :
    ∃ t ∈ tasks, ∃ held, run = (t.run s solver held).2 := by
  unfold ofTasks at listed
  split at listed
  · cases listed
  · split at listed
    · cases listed
    · dsimp only at listed
      split at listed <;> exact mem_steps listed

theorem prepare_generation : (prepare s fs).2 ≠ .error (.generation e) := by
  unfold prepare
  split
  · rename_i held cause stopped
    intro same
    cases same
    exact Task.written_generation (congrArg Prod.snd stopped)
  · exact Task.written_generation

theorem writeSummary_generation {summary : Summary} : (writeSummary s summary fs).2 ≠ .error (.generation e) := by
  rw [writeSummary]
  exact Task.written_generation

section

variable {held : Files} (checked : Task.check s [] tasks = .ok ())
include checked

theorem ofTasks_unprepared {cause : RunError} (prepared : prepare s fs = (held, .error cause)) :
    ofTasks s solver tasks fs = { files := held, summary := .error cause } := by
  unfold ofTasks
  rw [checked]
  dsimp only
  rw [prepared]

theorem ofTasks_prepared (prepared : prepare s fs = (held, .ok ())) : ofTasks s solver tasks fs =
    { files := (writeSummary s (total tasks.length (steps s solver held tasks).2) (steps s solver held tasks).1).1
      tasks := (steps s solver held tasks).2
      summary := (writeSummary s (total tasks.length (steps s solver held tasks).2) (steps s solver held tasks).1).2.map
        fun _ => total tasks.length (steps s solver held tasks).2 } := by
  unfold ofTasks
  rw [checked]
  dsimp only
  rw [prepared]
  dsimp only
  cases writeSummary s (total tasks.length (steps s solver held tasks).2) (steps s solver held tasks).1 with
  | mk left result => cases result <;> rfl

theorem ofTasks_passed : (ofTasks s solver tasks fs).summary ≠ .error (.generation e) := by
  cases prepared : prepare s fs with
  | mk held made =>
    cases made with
    | error cause =>
      rw [ofTasks_unprepared checked prepared]
      intro same
      cases same
      exact prepare_generation (congrArg Prod.snd prepared)
    | ok _ =>
      rw [ofTasks_prepared checked prepared]
      intro same
      dsimp only at same
      cases writing : (writeSummary s (total tasks.length (steps s solver held tasks).2) (steps s solver held tasks).1).2 with
      | error cause =>
        rw [writing] at same
        cases same
        exact writeSummary_generation writing
      | ok _ =>
        rw [writing] at same
        cases same

end

-- The check is passed exactly when every task has its circuit. If it is not, the run ends there: its
-- files are those it began with, and no task was run, so no solver was asked. If it is, no task ever
-- lacks its circuit, on whatever files it is run and by whatever solver.
theorem ofTasks_checked (s : Settings) (tasks : List Task)
    (ranged : ∀ t ∈ tasks, ∀ made, (t.recipe s).generate 0 = .ok made →
      Range.signed32 (hBoxPower * made.boxes - 2 * t.qubits) = true) :
    (Task.check s [] tasks = .ok () ↔ ∀ t ∈ tasks, ∃ c, t.circuit s = .ok c) ∧
      ∀ solver fs,
        (∃ e, Task.check s [] tasks = .error e ∧ (∃ t ∈ tasks, t.circuit s = .error e) ∧
          ofTasks s solver tasks fs = { files := fs, tasks := [], summary := .error (.generation e) }) ∨
        (Task.check s [] tasks = .ok () ∧ (∀ e, (ofTasks s solver tasks fs).summary ≠ .error (.generation e)) ∧
          (∀ run ∈ (ofTasks s solver tasks fs).tasks, ∀ e, run.result ≠ .error (.generation e)) ∧
          ∀ t ∈ tasks, ∀ other held e, (t.run s other held).2.result ≠ .error (.generation e)) := by
  have passes : Task.check s [] tasks = .ok () ↔ ∀ t ∈ tasks, ∃ c, t.circuit s = .ok c := by
    rw [Task.check_passes]
    constructor
    · intro valid t listed
      exact Task.circuit_made (valid t listed List.not_mem_nil) (ranged t listed)
    · intro made t listed _
      obtain ⟨c, done⟩ := made t listed
      cases valid : (t.recipe s).validate with
      | ok _ => rfl
      | error cause =>
        rw [Task.circuit_refused valid] at done
        cases done
  refine ⟨passes, fun solver fs => ?_⟩
  cases checked : Task.check s [] tasks with
  | error e =>
    obtain ⟨t, listed, invalid⟩ := Task.check_refused checked
    refine .inl ⟨e, rfl, ⟨t, listed, Task.circuit_refused invalid⟩, ?_⟩
    rw [ofTasks, checked]
  | ok _ =>
    have settled : ∀ t ∈ tasks, ∀ other held e, (t.run s other held).2.result ≠ .error (.generation e) := by
      intro t listed other held e failed
      obtain ⟨c, done⟩ := passes.mp checked t listed
      rw [Task.run_generation.mp failed] at done
      cases done
    refine .inr ⟨rfl, fun e => ofTasks_passed checked, fun run listed e => ?_, settled⟩
    obtain ⟨t, member, held, rfl⟩ := mem_ofTasks listed
    exact settled t member solver held e

-- One size twice and one task twice, on settings that let every gate go everywhere.
def openSettings : Settings := { allowNotInTargetRange := true, allowCnotInTargetRange := true }

def repeatedTasks : List Task := [⟨3, 1, 2, 0, 5⟩, ⟨2, 0, 4, 0, 5⟩, ⟨3, 1, 2, 0, 9⟩, ⟨3, 1, 2, 0, 5⟩]

theorem ofTasks_checked_repeated :
    (∀ t ∈ repeatedTasks, ∀ made, (t.recipe openSettings).generate 0 = .ok made →
      Range.signed32 (hBoxPower * made.boxes - 2 * t.qubits) = true) ∧
      (∀ t ∈ repeatedTasks, ∃ c, t.circuit openSettings = .ok c) ∧
      ∀ solver fs, ∀ run ∈ (ofTasks openSettings solver repeatedTasks fs).tasks, ∀ e, run.result ≠ .error (.generation e) := by
  have small : ∀ t ∈ repeatedTasks, (t.nots + t.cnots + t.toffolis) * t.qubits + t.qubits ≤ 1073741824 := by decide
  have ranged := fun t listed => Task.ranged_of_small (s := openSettings) (small t listed)
  obtain ⟨passes, outcome⟩ := ofTasks_checked openSettings repeatedTasks ranged
  have wide : ∀ t ∈ repeatedTasks, 2 ≤ t.qubits ∧ t.toffolis = 0 := by decide
  have passed : Task.check openSettings [] repeatedTasks = .ok () := by
    refine Task.check_passes.mpr fun t listed _ => Recipe.validate_ok.mpr ?_
    obtain ⟨two, none⟩ := wide t listed
    have pool : (t.recipe openSettings).register.length = t.qubits := List.length_range
    constructor
    case range => exact ⟨Nat.sub_le _ _, Nat.le_refl _⟩
    case nots => exact fun _ => pool.symm ▸ Nat.le_of_succ_le two
    case cnots => exact fun _ => pool.symm ▸ two
    case targets => exact fun asked => absurd asked (none ▸ Nat.lt_irrefl 0)
    case controls => exact fun asked => absurd asked (none ▸ Nat.lt_irrefl 0)
  refine ⟨ranged, passes.mp passed, fun solver fs => ?_⟩
  cases outcome solver fs with
  | inl stopped =>
    obtain ⟨e, refused, _⟩ := stopped
    cases passed.symm.trans refused
  | inr ran => exact ran.2.2.1

end Run

end ToffoliBench

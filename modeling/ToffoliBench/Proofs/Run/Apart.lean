import Mathlib.Data.List.Nodup
import ToffoliBench.Proofs.Run.Interleaving
import ToffoliBench.Proofs.Task.Grid

namespace ToffoliBench

open Files

namespace Task

variable {s : Settings} {tasks : List Task} {t u : Task} {fs : Files} {dir dir' : String} {place place' : Place} {β : Type}

def paths (s : Settings) (tasks : List Task) : List String := tasks.flatMap fun t => [t.diagramPath s, t.resultPath s]

theorem nodup_both {f g : Task → β} {same : Prop} (left : ∀ t u, f t = f u → t = u) (right : ∀ t u, g t = g u → t = u)
    (across : ∀ t u, f t = g u ↔ same ∧ t = u) (filled : tasks ≠ []) :
    (tasks.flatMap fun t => [f t, g t]).Nodup ↔ tasks.Nodup ∧ ¬same := by
  rw [List.nodup_flatMap]
  constructor
  · intro ⟨each, apart⟩
    refine ⟨apart.imp fun disjoint equal => ?_, fun holds => ?_⟩
    · exact disjoint List.mem_cons_self (equal ▸ List.mem_cons_self)
    · obtain ⟨t, listed⟩ := List.exists_mem_of_ne_nil tasks filled
      exact (List.nodup_cons.mp (each t listed)).1 (List.mem_singleton.mpr ((across t t).mpr ⟨holds, rfl⟩))
  · intro ⟨once, sorts⟩
    have crossed : ∀ t u, f t ≠ g u := fun t u equal => sorts ((across t u).mp equal).1
    refine ⟨fun t _ => ?_, once.imp fun {t u} different => ?_⟩
    · exact List.nodup_cons.mpr ⟨fun held => crossed t t (List.mem_singleton.mp held), List.nodup_singleton _⟩
    · change List.Disjoint [f t, g t] [f u, g u]
      have one : f t ≠ f u := mt (left t u) different
      have two : g t ≠ g u := mt (right t u) different
      simp [List.disjoint_left, one, two, crossed, (crossed u t).symm]

theorem components_fileIn : components (t.fileIn dir) = components (u.fileIn dir') ↔ components dir = components dir' ∧ t = u := by
  rw [fileIn, fileIn, components_join t.fileName_ordinary, components_join u.fileName_ordinary]
  constructor
  · intro same
    obtain ⟨absolute, dotted, pieces⟩ : _ ∧ _ ∧ _ := by simpa only [Prod.mk.injEq] using same
    obtain ⟨above, names⟩ := List.append_inj' pieces rfl
    exact ⟨Prod.ext absolute (Prod.ext dotted above), fileName_injective (List.cons.inj names).1⟩
  · rintro ⟨same, rfl⟩
    rw [same]

theorem locate_fileIn (leads : fs.Leads dir place) (t : Task) : fs.locate (t.fileIn dir) = .ok (Surroundings.site place t) :=
  locate_join leads t.fileName_ordinary

theorem locate_fileIn_iff (leads : fs.Leads dir place) (leads' : fs.Leads dir' place') :
    fs.locate (t.fileIn dir) = fs.locate (u.fileIn dir') ↔ place = place' ∧ t = u := by
  rw [locate_fileIn leads, locate_fileIn leads', Except.ok.injEq]
  exact ⟨Surroundings.site_injective, fun ⟨same, equal⟩ => same ▸ equal ▸ rfl⟩

theorem paths_components (filled : tasks ≠ []) : ((paths s tasks).map components).Nodup ↔
    tasks.Nodup ∧ components s.inputDir ≠ components s.outputDir := by
  rw [paths, List.map_flatMap]
  exact nodup_both (fun _ _ same => (components_fileIn.mp same).2) (fun _ _ same => (components_fileIn.mp same).2)
    (fun _ _ => components_fileIn) filled

theorem paths_located (input : fs.Leads s.inputDir place) (output : fs.Leads s.outputDir place') (filled : tasks ≠ []) :
    ((paths s tasks).map fs.locate).Nodup ↔ tasks.Nodup ∧ place ≠ place' := by
  rw [paths, List.map_flatMap]
  exact nodup_both (fun _ _ same => ((locate_fileIn_iff input input).mp same).2)
    (fun _ _ same => ((locate_fileIn_iff output output).mp same).2) (fun _ _ => locate_fileIn_iff input output) filled

theorem eq_iff_sizes : t = u ↔
    t.qubits = u.qubits ∧ t.nots = u.nots ∧ t.cnots = u.cnots ∧ t.toffolis = u.toffolis ∧ t.seed = u.seed := by
  cases t
  cases u
  exact Task.mk.injEq .. ▸ Iff.rfl

theorem summaryFile_ordinary : Ordinary summaryFile := by
  constructor <;> decide

theorem fileName_ne_summary (t : Task) : t.fileName ≠ summaryFile := by
  intro same
  have last := congrArg (fun name => name.toList.getLast?) same
  rw [fileName, String.toList_append, List.getLast?_append_of_ne_nil _ (by decide)] at last
  exact absurd last (by decide)

theorem components_ne_summary : components (t.fileIn dir) ≠ components (join dir' summaryFile) := by
  rw [fileIn, components_join t.fileName_ordinary, components_join summaryFile_ordinary]
  intro same
  obtain ⟨-, -, pieces⟩ : _ ∧ _ ∧ _ := by simpa only [Prod.mk.injEq] using same
  obtain ⟨-, names⟩ := List.append_inj' pieces rfl
  exact t.fileName_ne_summary (List.cons.inj names).1

-- A task is known by its name and by its files in one directory, none of which is the summary. Paths
-- are the same as texts, or with the same components.
theorem names_identify (t u : Task) (dir : String) :
    (t.stem = u.stem ↔
      t.qubits = u.qubits ∧ t.nots = u.nots ∧ t.cnots = u.cnots ∧ t.toffolis = u.toffolis ∧ t.seed = u.seed) ∧
    (t.fileIn dir = u.fileIn dir ↔ t.stem = u.stem) ∧
    (components (t.fileIn dir) = components (u.fileIn dir) ↔ t.stem = u.stem) ∧
    t.stem ++ ".txt" ≠ summaryFile ∧ ∀ dir', components (t.fileIn dir) ≠ components (join dir' summaryFile) := by
  have stem : t.stem = u.stem ↔ t = u := ⟨stem_injective, congrArg Task.stem⟩
  refine ⟨stem.trans eq_iff_sizes, ?_, ?_, t.fileName_ne_summary, fun dir' => components_ne_summary⟩
  · rw [stem]
    exact ⟨fun same => (components_fileIn.mp (congrArg components same)).2, fun same => same ▸ rfl⟩
  · rw [stem, components_fileIn]
    exact and_iff_right rfl

end Task

namespace Run

-- The paths to the files of the tasks of a grid are all different exactly if the paths of the two
-- directories are and no two tasks of one size have the same seed; they lead to different files
-- exactly if the directories are different places. More samples than there are seeds never do.
theorem files_apart_iff (s : Settings) (valid : s.validate = .ok ()) (entropy : Nat) (tasks : List Task)
    (drawn : Task.grid s entropy = .ok tasks) :
    (((Task.paths s tasks).map components).Nodup ↔ Task.SeedsApart tasks ∧ components s.inputDir ≠ components s.outputDir) ∧
    (∀ before fs, prepare s before = (fs, .ok ()) → (((Task.paths s tasks).map fs.locate).Nodup ↔
      Task.SeedsApart tasks ∧ ∀ place, fs.Leads s.inputDir place → ¬fs.Leads s.outputDir place)) ∧
    (Task.maxSeed < s.samples → ¬Task.SeedsApart tasks) := by
  have valid := Settings.validate_ok.mp valid
  have filled := Task.grid_filled valid drawn
  rw [Task.seedsApart_iff]
  refine ⟨Task.paths_components filled, fun before fs prepared => ?_, fun many => ?_⟩
  · obtain ⟨⟨input, leads⟩, output, leads'⟩ := Surroundings.prepared_leads prepared
    rw [Task.paths_located leads leads' filled]
    refine and_congr_right fun _ => ⟨fun different place one two => ?_, fun apart same => apart input leads (same ▸ leads')⟩
    exact different ((Except.ok.inj (leads.symm.trans one)).trans (Except.ok.inj (two.symm.trans leads')))
  · rw [← Task.seedsApart_iff]
    exact Task.seeds_exhausted valid drawn many

def twoSamples : Settings :=
  { qubits := [3], nots := [1], cnots := [0], toffolis := [0], samples := 2, masterSeed := some 7 }

def twoDrawn : List Task := [⟨3, 1, 0, 0, 3031737⟩, ⟨3, 1, 0, 0, 30708629⟩]

def manySamples : Settings := { twoSamples with samples := 100000001 }

theorem files_apart_iff_samples :
    (twoSamples.validate = .ok () ∧ Task.grid twoSamples 0 = .ok twoDrawn ∧ ((Task.paths twoSamples twoDrawn).map components).Nodup ∧
      ∃ fs, prepare twoSamples {} = (fs, .ok ()) ∧ ((Task.paths twoSamples twoDrawn).map fs.locate).Nodup) ∧
    manySamples.validate = .ok () ∧ Task.maxSeed < manySamples.samples ∧
      ∃ tasks, Task.grid manySamples 0 = .ok tasks ∧ ¬Task.SeedsApart tasks := by
  refine ⟨?two, ?many⟩
  case two =>
    have valid : twoSamples.validate = .ok () := rfl
    have drawn : Task.grid twoSamples 0 = .ok twoDrawn := by decide +kernel
    have apart : Task.SeedsApart twoDrawn := Task.seedsApart_iff.mpr (by decide)
    have prepared : prepare twoSamples {} = ((prepare twoSamples {}).1, .ok ()) := rfl
    have input : (prepare twoSamples {}).1.Leads twoSamples.inputDir ["benchmark_dot_repr"] := rfl
    have output : (prepare twoSamples {}).1.Leads twoSamples.outputDir ["benchmark_output"] := rfl
    obtain ⟨named, located, _⟩ := files_apart_iff twoSamples valid 0 twoDrawn drawn
    refine ⟨valid, drawn, named.mpr ⟨apart, by decide⟩, _, prepared, (located {} _ prepared).mpr ⟨apart, fun place one two => ?_⟩⟩
    have left := Except.ok.inj (input.symm.trans one)
    have right := Except.ok.inj (output.symm.trans two)
    exact absurd (left.trans right.symm) (by decide)
  case many =>
    have valid : manySamples.validate = .ok () := rfl
    have more : Task.maxSeed < manySamples.samples := by decide
    have counted : manySamples.taskCount = .ok 100000001 := rfl
    obtain ⟨tasks, drawn⟩ := Task.grid_exists counted (by decide) 0
    obtain ⟨_, _, exhausted⟩ := files_apart_iff manySamples valid 0 tasks drawn
    exact ⟨valid, more, tasks, drawn, exhausted more⟩

def oneDirectory : Settings :=
  { qubits := [3], nots := [1], cnots := [0], toffolis := [0], samples := 1, inputDir := "d", outputDir := "d", masterSeed := some 7 }

theorem oneDirectory_shared : oneDirectory.validate = .ok () ∧ Task.grid oneDirectory 0 = .ok [⟨3, 1, 0, 0, 3031737⟩] ∧
    Task.paths oneDirectory [⟨3, 1, 0, 0, 3031737⟩] = ["d/3_1_0_0_3031737.txt", "d/3_1_0_0_3031737.txt"] ∧
    ¬((Task.paths oneDirectory [⟨3, 1, 0, 0, 3031737⟩]).map components).Nodup := by
  refine ⟨rfl, by decide +kernel, by decide +kernel, by decide +kernel⟩

end Run

end ToffoliBench

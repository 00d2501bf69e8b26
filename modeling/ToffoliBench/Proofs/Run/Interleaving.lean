import ToffoliBench.Proofs.Run.Scene
import ToffoliBench.Proofs.Task.Names

namespace ToffoliBench

open Files

namespace Surroundings

variable {b : Surroundings} {tasks : List Task} {scene next : Scene} {t u : Task} {fs later : Files} {path text dir : String}
  {place : Place} {p : Progress}

-- What a file is after a text was written to it.
def overwritten (held : Option Entry) (text : String) : Entry :=
  match held with
  | some (.file _ executable) => .file text executable
  | _ => .file text false

theorem overwritten_file (held : Option Entry) (text : String) : ∃ executable, overwritten held text = .file text executable := by
  unfold overwritten
  split <;> exact ⟨_, rfl⟩

-- Why nothing can be written to a path, whatever it is.
def fate (b : Surroundings) (fs : Files) (path : String) (place : Place) : Option FileError :=
  (b.refuses path).or (if fs.lookup? place = some .directory then some .isDirectory else none)

-- Where the file of a task is in a directory.
def site (dir : Place) (t : Task) : Place := dir ++ [t.fileName]

theorem site_injective {dir dir' : Place} (same : site dir t = site dir' u) : dir = dir' ∧ t = u := by
  obtain ⟨above, names⟩ := List.append_inj' same rfl
  exact ⟨above, Task.fileName_injective (List.cons.inj names).1⟩

theorem write_site (leads : fs.Leads dir place) : b.write fs (t.fileIn dir) text = match b.fate fs (t.fileIn dir) (site place t) with
    | some e => (fs, .error e)
    | none => (fs.put (site place t) (overwritten (fs.lookup? (site place t)) text), .ok ()) := by
  rw [write, fate, Task.fileIn]
  cases b.refuses (join dir t.fileName) with
  | some e => rfl
  | none =>
    dsimp only
    rw [writeBelow_join leads t.fileName_ordinary, site]
    cases fs.lookup? (place ++ [t.fileName]) with
    | none => rfl
    | some held => cases held <;> rfl

-- Nothing changes but the entry at one place, and that is no directory before or after.
structure Only (fs later : Files) (place : Place) : Prop extends Keeps fs later where
  elsewhere : ∀ other, other ≠ place → later.lookup? other = fs.lookup? other

theorem Only.refl (fs : Files) (place : Place) : Only fs fs place := ⟨.refl fs, fun _ _ => rfl⟩

theorem put_only {e : Entry} (vacant : fs.lookup? place ≠ some .directory) : Only fs (fs.put place e) place :=
  ⟨put_keeps vacant e, fun other different => by rw [lookup?_put vacant, if_neg different]⟩

-- The files that a run begins with, and the places of both directories in them.
structure Ground where
  files : Files
  input : Place
  output : Place

structure Ground.Fits (g : Ground) (s : Settings) : Prop where
  input : g.files.Leads s.inputDir g.input
  output : g.files.Leads s.outputDir g.output
  apart : g.input ≠ g.output

variable {g : Ground} {outcomes : Mode → Option Outcome} {x y : Outcome}

theorem Ground.Fits.sites_apart {s : Settings} (fits : g.Fits s) : site g.output t ≠ site g.input t :=
  fun met => fits.apart (site_injective met).1.symm

@[irreducible]
def drawn (b : Surroundings) (g : Ground) (t : Task) : Except RunError String :=
  match t.drawing b.settings with
  | .error e => .error e
  | .ok text => match b.fate g.files (t.diagramPath b.settings) (site g.input t) with
    | some e => .error (.unwritable (t.diagramPath b.settings) e)
    | none => .ok text

def recordFate (b : Surroundings) (g : Ground) (t : Task) : Option FileError :=
  b.fate g.files (t.resultPath b.settings) (site g.output t)

def resultText (b : Surroundings) (g : Ground) (t : Task) : String :=
  match b.drawn g t with
  | .error e => t.failureText e
  | .ok text => t.outcomeText (b.outcome t (.ok text) .withSd) (b.outcome t (.ok text) .withoutSd)

def lastDiagram (b : Surroundings) (g : Ground) (t : Task) : Option Entry :=
  match b.drawn g t with
  | .error _ => g.files.lookup? (site g.input t)
  | .ok text => some (overwritten (g.files.lookup? (site g.input t)) text)

def lastResult (b : Surroundings) (g : Ground) (t : Task) : Option Entry :=
  match b.recordFate g t with
  | some _ => g.files.lookup? (site g.output t)
  | none => some (overwritten (g.files.lookup? (site g.output t)) (b.resultText g t))

-- The files at the two places of a task are what its progress says.
def Agrees (b : Surroundings) (g : Ground) (t : Task) (fs : Files) : Progress → Prop
  | .waiting => fs.lookup? (site g.input t) = g.files.lookup? (site g.input t) ∧
      fs.lookup? (site g.output t) = g.files.lookup? (site g.output t)
  | .solving outcomes => ∃ text, b.drawn g t = .ok text ∧ fs.lookup? (site g.input t) = b.lastDiagram g t ∧
      fs.lookup? (site g.output t) = g.files.lookup? (site g.output t) ∧ ∀ m x, outcomes m = some x → x = b.outcome t (.ok text) m
  | .failing e => fs.lookup? (site g.input t) = b.lastDiagram g t ∧
      fs.lookup? (site g.output t) = g.files.lookup? (site g.output t) ∧ (b.drawn g t = .error e ∨ ∃ cause, b.recordFate g t = some cause)
  | .finished => fs.lookup? (site g.input t) = b.lastDiagram g t ∧ fs.lookup? (site g.output t) = b.lastResult g t

theorem Agrees.congr (agrees : b.Agrees g t fs p) (one : later.lookup? (site g.input t) = fs.lookup? (site g.input t))
    (two : later.lookup? (site g.output t) = fs.lookup? (site g.output t)) : b.Agrees g t later p := by
  cases p <;> simpa only [Agrees, one, two] using agrees

section

variable (fits : g.Fits b.settings) (keeps : Keeps g.files fs)
include fits keeps

theorem draw_exact (same : fs.lookup? (site g.input t) = g.files.lookup? (site g.input t)) :
    b.draw t fs = match b.drawn g t with
      | .error e => (fs, .error e)
      | .ok text => (fs.put (site g.input t) (overwritten (g.files.lookup? (site g.input t)) text), .ok ()) := by
  unfold draw drawn
  cases t.drawing b.settings with
  | error e => rfl
  | ok text =>
    have written : b.write fs (t.fileIn b.settings.inputDir) text = _ := write_site (fits.input.keeps keeps)
    rw [fate, same] at written
    dsimp only
    rw [Task.diagramPath, written, fate]
    cases (b.refuses (t.fileIn b.settings.inputDir)).or _ <;> rfl

theorem record_exact (same : fs.lookup? (site g.output t) = g.files.lookup? (site g.output t)) :
    b.record t text fs = match b.recordFate g t with
      | some e => (fs, .error (.unwritable (t.resultPath b.settings) e))
      | none => (fs.put (site g.output t) (overwritten (g.files.lookup? (site g.output t)) text), .ok ()) := by
  have written : b.write fs (t.fileIn b.settings.outputDir) text = _ := write_site (fits.output.keeps keeps)
  rw [fate, same] at written
  rw [record, recordFate, Task.resultPath, written, fate]
  cases (b.refuses (t.fileIn b.settings.outputDir)).or _ <;> rfl

theorem found_exact (made : b.drawn g t = .ok text) (held : fs.lookup? (site g.input t) = b.lastDiagram g t) : b.found t fs = .ok text := by
  obtain ⟨executable, file⟩ := overwritten_file (g.files.lookup? (site g.input t)) text
  have last : fs.lookup? (g.input ++ [t.fileName]) = some (.file text executable) := by
    rw [← file]
    exact held.trans (by rw [lastDiagram, made])
  rw [found, Task.diagramPath, Task.fileIn, read_join (fits.input.keeps keeps) t.fileName_ordinary, last]

end

theorem fate_vacant (free : b.fate fs path place = none) : fs.lookup? place ≠ some .directory := by
  intro held
  rw [fate, held, if_pos rfl, Option.or_eq_none_iff] at free
  cases free.2

theorem drawn_vacant (made : b.drawn g t = .ok text) : g.files.lookup? (site g.input t) ≠ some .directory := by
  unfold drawn at made
  split at made
  · cases made
  · split at made
    · cases made
    · rename_i free
      exact fate_vacant free

theorem drawn_drawing (made : b.drawn g t = .ok text) : t.drawing b.settings = .ok text := by
  unfold drawn at made
  split at made
  · cases made
  · rename_i drawing
    split at made
    · cases made
    · rwa [← Except.ok.inj made]

-- What holds in every scene of a run.
structure Holds (b : Surroundings) (g : Ground) (tasks : List Task) (scene : Scene) : Prop where
  keeps : Keeps g.files scene.files
  others : ∀ place, (∀ t ∈ tasks, place ≠ site g.input t ∧ place ≠ site g.output t) → scene.files.lookup? place = g.files.lookup? place
  agrees : ∀ t ∈ tasks, b.Agrees g t scene.files (scene.progress t)
  readings : ∀ r ∈ scene.readings, ∃ text, r.task.drawing b.settings = .ok text ∧ r.found = .ok text

theorem holds_start : b.Holds g tasks (.start g.files) := ⟨.refl _, fun _ _ => rfl, fun _ _ => ⟨rfl, rfl⟩, nofun⟩

-- A task that changes no place but one of its own disturbs no other.
theorem Holds.advance (holds : b.Holds g tasks scene) (listed : t ∈ tasks) (own : place = g.input ∨ place = g.output)
    (only : Only scene.files later (site place t)) (agrees : b.Agrees g t later p) : b.Holds g tasks (scene.advance t p later) := by
  refine ⟨holds.keeps.trans only.toKeeps, fun other away => ?_, fun u held => ?_, holds.readings⟩
  · obtain ⟨input, output⟩ := away t listed
    have different : other ≠ site place t := by
      rcases own with rfl | rfl
      · exact input
      · exact output
    exact (only.elsewhere other different).trans (holds.others other away)
  · by_cases same : u = t
    · rw [same, show (scene.advance t p later).progress t = p from Function.update_self ..]
      exact agrees
    · rw [show (scene.advance t p later).progress u = scene.progress u from Function.update_of_ne same ..]
      exact (holds.agrees u held).congr (only.elsewhere _ fun met => same (site_injective met).2)
        (only.elsewhere _ fun met => same (site_injective met).2)

section

variable (fits : g.Fits b.settings) (holds : b.Holds g tasks scene) (listed : t ∈ tasks)
include fits holds listed

theorem drawn_holds (at_ : scene.progress t = .waiting) (done : b.draw t scene.files = (later, .ok ())) :
    b.Holds g tasks (scene.advance t (.solving fun _ => none) later) := by
  obtain ⟨one, two⟩ : b.Agrees g t scene.files .waiting := at_ ▸ holds.agrees t listed
  rw [draw_exact fits holds.keeps one] at done
  cases made : b.drawn g t with
  | error e => rw [made] at done; cases done
  | ok text =>
    rw [made] at done
    obtain ⟨rfl, _⟩ := Prod.mk.inj done
    have vacant := one ▸ drawn_vacant made
    have only := put_only (e := overwritten (g.files.lookup? (site g.input t)) text) vacant
    refine holds.advance listed (.inl rfl) only ⟨text, made, ?_, (only.elsewhere _ fits.sites_apart).trans two, nofun⟩
    rw [lookup?_put vacant, if_pos rfl, lastDiagram, made]

theorem undrawn_holds {e : RunError} (at_ : scene.progress t = .waiting) (failed : b.draw t scene.files = (later, .error e)) :
    b.Holds g tasks (scene.advance t (.failing e) later) := by
  obtain ⟨one, two⟩ : b.Agrees g t scene.files .waiting := at_ ▸ holds.agrees t listed
  rw [draw_exact fits holds.keeps one] at failed
  cases made : b.drawn g t with
  | ok text => rw [made] at failed; cases failed
  | error cause =>
    rw [made] at failed
    obtain ⟨rfl, same⟩ := Prod.mk.inj failed
    obtain rfl := Except.error.inj same
    refine holds.advance listed (.inl rfl) (.refl _ _) ⟨?_, two, .inl made⟩
    rw [one, lastDiagram, made]

theorem solved_holds (m : Mode) (at_ : scene.progress t = .solving outcomes) : b.Holds g tasks
    ((scene.advance t (.solving (Function.update outcomes m (some (b.outcome t (b.found t scene.files) m)))) scene.files).read
      ⟨t, m, b.found t scene.files⟩) := by
  obtain ⟨text, made, one, two, answers⟩ : b.Agrees g t scene.files (.solving outcomes) := at_ ▸ holds.agrees t listed
  have found := found_exact fits holds.keeps made one
  have after := holds.advance (p := .solving (Function.update outcomes m (some (b.outcome t (b.found t scene.files) m)))) listed
    (.inl rfl) (.refl scene.files (site g.input t)) ⟨text, made, one, two, fun m' x known => ?_⟩
  · exact ⟨after.keeps, after.others, after.agrees, List.forall_mem_cons.mpr ⟨⟨text, drawn_drawing made, found⟩, holds.readings⟩⟩
  · by_cases same : m' = m
    · rw [same, Function.update_self, found] at known
      rw [same, Option.some.inj known]
    · rw [Function.update_of_ne same] at known
      exact answers m' x known

theorem written_holds (free : b.recordFate g t = none) (one : scene.files.lookup? (site g.input t) = b.lastDiagram g t)
    (two : scene.files.lookup? (site g.output t) = g.files.lookup? (site g.output t)) :
    b.Holds g tasks (scene.advance t .finished
      (scene.files.put (site g.output t) (overwritten (g.files.lookup? (site g.output t)) (b.resultText g t)))) := by
  have vacant := two ▸ fate_vacant free
  have only := put_only (e := overwritten (g.files.lookup? (site g.output t)) (b.resultText g t)) vacant
  refine holds.advance listed (.inr rfl) only ⟨(only.elsewhere _ fits.sites_apart.symm).trans one, ?_⟩
  rw [lookup?_put vacant, if_pos rfl, lastResult, free]

theorem recorded_holds (at_ : scene.progress t = .solving outcomes) (withSd : outcomes .withSd = some x)
    (withoutSd : outcomes .withoutSd = some y) (done : b.record t (t.outcomeText x y) scene.files = (later, .ok ())) :
    b.Holds g tasks (scene.advance t .finished later) := by
  obtain ⟨text, made, one, two, answers⟩ : b.Agrees g t scene.files (.solving outcomes) := at_ ▸ holds.agrees t listed
  have told : t.outcomeText x y = b.resultText g t := by
    rw [resultText, made, answers _ _ withSd, answers _ _ withoutSd]
  rw [record_exact fits holds.keeps two, told] at done
  cases free : b.recordFate g t with
  | some e => rw [free] at done; cases done
  | none =>
    rw [free] at done
    obtain ⟨rfl, _⟩ := Prod.mk.inj done
    exact written_holds fits holds listed free one two

theorem unrecorded_holds {e : RunError} (at_ : scene.progress t = .solving outcomes)
    (failed : b.record t text scene.files = (later, .error e)) : b.Holds g tasks (scene.advance t (.failing e) later) := by
  obtain ⟨_, _, one, two, _⟩ : b.Agrees g t scene.files (.solving outcomes) := at_ ▸ holds.agrees t listed
  rw [record_exact fits holds.keeps two] at failed
  cases refused : b.recordFate g t with
  | none => rw [refused] at failed; cases failed
  | some cause =>
    rw [refused] at failed
    obtain ⟨rfl, _⟩ := Prod.mk.inj failed
    exact holds.advance listed (.inr rfl) (.refl _ _) ⟨one, two, .inr ⟨cause, refused⟩⟩

theorem excused_holds {e : RunError} (at_ : scene.progress t = .failing e) :
    b.Holds g tasks (scene.advance t .finished (b.record t (t.failureText e) scene.files).1) := by
  obtain ⟨one, two, cause⟩ : b.Agrees g t scene.files (.failing e) := at_ ▸ holds.agrees t listed
  rw [record_exact fits holds.keeps two]
  cases free : b.recordFate g t with
  | some cause =>
    refine holds.advance listed (.inr rfl) (.refl _ _) ⟨one, ?_⟩
    rw [two, lastResult, free]
  | none =>
    -- Only a diagram that could not be drawn is left as a reason.
    have made : b.drawn g t = .error e := cause.resolve_right fun ⟨_, refused⟩ => by
      rw [free] at refused
      cases refused
    have told : t.failureText e = b.resultText g t := by rw [resultText, made]
    rw [told]
    exact written_holds fits holds listed free one two

end

theorem step_holds (fits : g.Fits b.settings) (holds : b.Holds g tasks scene) (step : b.Step tasks scene next) : b.Holds g tasks next := by
  cases step with
  | drawn listed at_ done => exact drawn_holds fits holds listed at_ done
  | undrawn listed at_ failed => exact undrawn_holds fits holds listed at_ failed
  | @solved _ _ m listed at_ _ => exact solved_holds fits holds listed m at_
  | recorded listed at_ withSd withoutSd done => exact recorded_holds fits holds listed at_ withSd withoutSd done
  | unrecorded listed at_ _ _ failed => exact unrecorded_holds fits holds listed at_ failed
  | excused listed at_ => exact excused_holds fits holds listed at_

theorem reaches_holds (fits : g.Fits b.settings) (reached : b.Reaches tasks (.start g.files) scene) : b.Holds g tasks scene := by
  induction reached with
  | refl => exact holds_start
  | tail _ step ih => exact step_holds fits ih step

theorem finished_entries (fits : g.Fits b.settings) (one : b.Reaches tasks (.start g.files) scene) (done : scene.Finished tasks)
    (two : b.Reaches tasks (.start g.files) next) (done' : next.Finished tasks) (place : Place) :
    scene.files.lookup? place = next.files.lookup? place := by
  have left := reaches_holds fits one
  have right := reaches_holds fits two
  by_cases own : ∃ t ∈ tasks, place = site g.input t ∨ place = site g.output t
  · obtain ⟨t, listed, met⟩ := own
    obtain ⟨input, output⟩ : b.Agrees g t scene.files .finished := done t listed ▸ left.agrees t listed
    obtain ⟨input', output'⟩ : b.Agrees g t next.files .finished := done' t listed ▸ right.agrees t listed
    rcases met with rfl | rfl
    · exact input.trans input'.symm
    · exact output.trans output'.symm
  · have away : ∀ t ∈ tasks, place ≠ site g.input t ∧ place ≠ site g.output t := fun t listed =>
      ⟨fun met => own ⟨t, listed, .inl met⟩, fun met => own ⟨t, listed, .inr met⟩⟩
    exact (left.others place away).trans (right.others place away).symm

theorem prepared_leads {s : Settings} {before : Files} (prepared : Run.prepare s before = (fs, .ok ())) :
    (∃ place, fs.Leads s.inputDir place) ∧ ∃ place, fs.Leads s.outputDir place := by
  have made : ∀ {dir} {fs later : Files}, Run.makeDirectory dir fs = (later, .ok ()) → Keeps fs later ∧ ∃ place, later.Leads dir place := by
    intro dir fs later made
    rw [Run.makeDirectory] at made
    rcases done : fs.makeDirectories dir with ⟨after, e | _⟩
    · rw [done] at made
      cases made
    · rw [done] at made
      obtain ⟨rfl, _⟩ := Prod.mk.inj made
      exact makeDirectories_ok done
  rw [Run.prepare] at prepared
  rcases first : Run.makeDirectory s.inputDir before with ⟨middle, e | _⟩
  · rw [first] at prepared
    cases prepared
  · rw [first] at prepared
    obtain ⟨_, place, leads⟩ := made first
    obtain ⟨keeps, output⟩ := made prepared
    exact ⟨⟨place, leads.keeps keeps⟩, output⟩

-- The tasks of a run, in whatever order they take their steps: the solver finds what its own task has
-- drawn, and the files end as if the tasks had followed each other, which is one of the orders.
theorem tasks_undisturbed (b : Surroundings) (tasks : List Task) (once : tasks.Nodup) (before fs : Files)
    (prepared : Run.prepare b.settings before = (fs, .ok ()))
    (different : ∀ place, fs.Leads b.settings.inputDir place → ¬fs.Leads b.settings.outputDir place) :
    (∀ scene, b.Reaches tasks (.start fs) scene → ∀ r ∈ scene.readings,
      ∃ text, r.task.drawing b.settings = .ok text ∧ r.found = .ok text) ∧
    (∀ scene, b.Reaches tasks (.start fs) scene → scene.Finished tasks →
      (∀ place, scene.files.lookup? place = (b.inTurn tasks fs).lookup? place) ∧
      ∀ t ∈ tasks, scene.files.read (t.diagramPath b.settings) = (b.inTurn tasks fs).read (t.diagramPath b.settings) ∧
        scene.files.read (t.resultPath b.settings) = (b.inTurn tasks fs).read (t.resultPath b.settings)) ∧
    (∃ scene, b.Reaches tasks (.start fs) scene ∧ scene.Finished tasks ∧ scene.files = b.inTurn tasks fs) ∧
    ((∀ path, b.refuses path = none) → b.inTurn tasks fs = (Run.steps b.settings b.solver fs tasks).1) := by
  obtain ⟨⟨input, leads⟩, output, leads'⟩ := prepared_leads prepared
  have fits : (Ground.mk fs input output).Fits b.settings := by
    refine ⟨leads, leads', fun same => ?_⟩
    obtain rfl : input = output := same
    exact different input leads leads'
  obtain ⟨turn, reached, files, progress⟩ : ∃ next, b.Reaches tasks (.start fs) next ∧ next.files = b.inTurn tasks fs ∧
      ∀ t, next.progress t = if t ∈ tasks then .finished else .waiting := inTurn_reached (fun _ => id) once fun _ _ => rfl
  have done : turn.Finished tasks := fun t listed => by rw [progress, if_pos listed]
  refine ⟨fun scene path => (reaches_holds fits path).readings, fun scene path finished => ?_, ⟨turn, reached, done, files⟩, inTurn_steps⟩
  have entries := finished_entries fits path finished reached done
  have left := (reaches_holds fits path).keeps
  have right := (reaches_holds fits reached).keeps
  have files : turn.files = b.inTurn tasks fs := files
  rw [files] at entries right
  refine ⟨entries, fun t listed => ⟨?_, ?_⟩⟩
  · rw [Task.diagramPath, Task.fileIn, read_join (leads.keeps left) t.fileName_ordinary, read_join (leads.keeps right) t.fileName_ordinary, entries]
  · rw [Task.resultPath, Task.fileIn, read_join (leads'.keeps left) t.fileName_ordinary, read_join (leads'.keeps right) t.fileName_ordinary, entries]

-- Two tasks of one seed, where the record of one of them cannot be written.
def deniedRecord : Surroundings where
  settings := {}
  refuses := fun path => if path = "benchmark_output/2_0_4_0_5.txt" then some .denied else none
  answer := fun call found => match found with
    | .ok text => .completed (call.mode.flag ++ text) (some 0) ⟨1, 0⟩
    | .error e => .failed e.message

def twoTasks : List Task := [⟨3, 1, 2, 0, 5⟩, ⟨2, 0, 4, 0, 5⟩]

def preparedFiles : Files := (Run.prepare deniedRecord.settings {}).1

theorem tasks_undisturbed_denied : twoTasks.Nodup ∧ Run.prepare deniedRecord.settings {} = (preparedFiles, .ok ()) ∧
    (∀ scene, deniedRecord.Reaches twoTasks (.start preparedFiles) scene → ∀ r ∈ scene.readings,
      ∃ text, r.task.drawing deniedRecord.settings = .ok text ∧ r.found = .ok text) ∧
    ∀ scene, deniedRecord.Reaches twoTasks (.start preparedFiles) scene → scene.Finished twoTasks →
      ∀ place, scene.files.lookup? place = (deniedRecord.inTurn twoTasks preparedFiles).lookup? place := by
  have once : twoTasks.Nodup := by decide
  have prepared : Run.prepare deniedRecord.settings {} = (preparedFiles, .ok ()) := rfl
  have input : preparedFiles.Leads deniedRecord.settings.inputDir ["benchmark_dot_repr"] := rfl
  have output : preparedFiles.Leads deniedRecord.settings.outputDir ["benchmark_output"] := rfl
  have different : ∀ place, preparedFiles.Leads deniedRecord.settings.inputDir place →
      ¬preparedFiles.Leads deniedRecord.settings.outputDir place := by
    intro place one two
    have left := Except.ok.inj (input.symm.trans one)
    have right := Except.ok.inj (output.symm.trans two)
    exact absurd (left.trans right.symm) (by decide)
  obtain ⟨readings, entries, _⟩ := tasks_undisturbed deniedRecord twoTasks once {} preparedFiles prepared different
  exact ⟨once, prepared, readings, fun scene reached finished => (entries scene reached finished).1⟩

end Surroundings

end ToffoliBench

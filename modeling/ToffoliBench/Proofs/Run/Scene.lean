import Mathlib.Logic.Function.Basic
import Mathlib.Logic.Relation
import ToffoliBench.Run.Tasks

namespace ToffoliBench

open Files

-- What tasks meet: the settings, paths that cannot be written to whatever is there, and a solver that
-- answers by what it is asked and by what it finds in the file.
structure Surroundings where
  settings : Settings
  refuses : String → Option FileError
  answer : Invocation → Except FileError String → Outcome

inductive Progress where
  | waiting
  -- drawn, with the outcome of each mode once there is one
  | solving (outcomes : Mode → Option Outcome)
  -- stopped by an error that is not yet put on record
  | failing (e : RunError)
  | finished

-- What the solver found in the file it was given for a task.
structure Reading where
  task : Task
  mode : Mode
  found : Except FileError String

structure Scene where
  files : Files
  progress : Task → Progress
  readings : List Reading

namespace Scene

def start (fs : Files) : Scene := ⟨fs, fun _ => .waiting, []⟩

-- Task `t` has come so far, and has left these files.
def advance (scene : Scene) (t : Task) (p : Progress) (fs : Files) : Scene :=
  { scene with files := fs, progress := Function.update scene.progress t p }

def read (scene : Scene) (r : Reading) : Scene := { scene with readings := r :: scene.readings }

def Finished (scene : Scene) (tasks : List Task) : Prop := ∀ t ∈ tasks, scene.progress t = .finished

end Scene

namespace Surroundings

variable (b : Surroundings)

def write (fs : Files) (path text : String) : Files × Except FileError Unit :=
  match b.refuses path with
  | some e => (fs, .error e)
  | none => fs.writeBelow path text

def draw (t : Task) (fs : Files) : Files × Except RunError Unit :=
  match t.drawing b.settings with
  | .error e => (fs, .error e)
  | .ok text => Task.written (t.diagramPath b.settings) (b.write fs (t.diagramPath b.settings) text)

def record (t : Task) (text : String) (fs : Files) : Files × Except RunError Unit :=
  Task.written (t.resultPath b.settings) (b.write fs (t.resultPath b.settings) text)

def found (t : Task) (fs : Files) : Except FileError String := fs.read (t.diagramPath b.settings)

def outcome (t : Task) (found : Except FileError String) (m : Mode) : Outcome := b.answer (t.invocation b.settings m) found

inductive Step (tasks : List Task) (scene : Scene) : Scene → Prop
  | drawn {t : Task} {fs : Files} (listed : t ∈ tasks) (at_ : scene.progress t = .waiting) (done : b.draw t scene.files = (fs, .ok ())) :
      Step tasks scene (scene.advance t (.solving fun _ => none) fs)
  | undrawn {t : Task} {fs : Files} {e : RunError} (listed : t ∈ tasks) (at_ : scene.progress t = .waiting)
      (failed : b.draw t scene.files = (fs, .error e)) : Step tasks scene (scene.advance t (.failing e) fs)
  | solved {t : Task} {outcomes : Mode → Option Outcome} {m : Mode} (listed : t ∈ tasks) (at_ : scene.progress t = .solving outcomes)
      (open_ : outcomes m = none) : Step tasks scene
        ((scene.advance t (.solving (Function.update outcomes m (some (b.outcome t (b.found t scene.files) m)))) scene.files).read
          ⟨t, m, b.found t scene.files⟩)
  | recorded {t : Task} {outcomes : Mode → Option Outcome} {x y : Outcome} {fs : Files} (listed : t ∈ tasks)
      (at_ : scene.progress t = .solving outcomes) (withSd : outcomes .withSd = some x) (withoutSd : outcomes .withoutSd = some y)
      (done : b.record t (t.outcomeText x y) scene.files = (fs, .ok ())) : Step tasks scene (scene.advance t .finished fs)
  | unrecorded {t : Task} {outcomes : Mode → Option Outcome} {x y : Outcome} {fs : Files} {e : RunError} (listed : t ∈ tasks)
      (at_ : scene.progress t = .solving outcomes) (withSd : outcomes .withSd = some x) (withoutSd : outcomes .withoutSd = some y)
      (failed : b.record t (t.outcomeText x y) scene.files = (fs, .error e)) : Step tasks scene (scene.advance t (.failing e) fs)
  | excused {t : Task} {e : RunError} (listed : t ∈ tasks) (at_ : scene.progress t = .failing e) :
      Step tasks scene (scene.advance t .finished (b.record t (t.failureText e) scene.files).1)

abbrev Reaches (tasks : List Task) : Scene → Scene → Prop := Relation.ReflTransGen (b.Step tasks)

-- All steps of one task with nothing in between.
def alone (t : Task) (fs : Files) : Files :=
  match b.draw t fs with
  | (fs, .error e) => (b.record t (t.failureText e) fs).1
  | (fs, .ok _) =>
    match b.record t (t.outcomeText (b.outcome t (b.found t fs) .withSd) (b.outcome t (b.found t fs) .withoutSd)) fs with
    | (fs, .error e) => (b.record t (t.failureText e) fs).1
    | (fs, .ok _) => fs

def inTurn : List Task → Files → Files
  | [], fs => fs
  | t :: rest, fs => inTurn rest (b.alone t fs)

def solver : Solver := fun call fs => (b.answer call (fs.read call.diagram), fs)

variable {b} {tasks rest : List Task} {scene : Scene} {t : Task} {fs : Files} {text : String}

theorem solver_outcome {m : Mode} : b.solver (t.invocation b.settings m) fs = (b.outcome t (b.found t fs) m, fs) := by
  simp only [solver, outcome, found, Task.invocation]

section

variable (unrefused : ∀ path, b.refuses path = none)
include unrefused

theorem draw_unrefused : b.draw t fs = t.writeDiagram b.settings fs := by
  unfold draw Task.writeDiagram
  cases t.drawing b.settings with
  | error e => rfl
  | ok text =>
    dsimp only
    rw [write, unrefused]

theorem record_unrefused : b.record t text fs = Task.written (t.resultPath b.settings) (fs.writeBelow (t.resultPath b.settings) text) := by
  rw [record, write, unrefused]

theorem excuse_unrefused {e : RunError} : (b.record t (t.failureText e) fs).1 = t.writeFailure b.settings e fs := by
  rw [record_unrefused unrefused, Task.writeFailure]
  generalize fs.writeBelow (t.resultPath b.settings) (t.failureText e) = done
  rfl

theorem result_unrefused {x y : Outcome} : b.record t (t.outcomeText x y) fs = t.writeResult b.settings x y fs := by
  rw [record_unrefused unrefused, Task.writeResult]

theorem alone_step : b.alone t fs = (Run.step b.settings b.solver fs t).1 := by
  unfold alone Run.step Task.run
  rw [draw_unrefused unrefused]
  generalize t.writeDiagram b.settings fs = drawn
  obtain ⟨drawn, made⟩ := drawn
  cases made with
  | error e =>
    dsimp only
    exact excuse_unrefused unrefused
  | ok _ =>
    simp only [solver_outcome, result_unrefused unrefused]
    generalize t.writeResult b.settings _ _ drawn = done
    obtain ⟨after, result⟩ := done
    cases result with
    | error e =>
      dsimp only
      exact excuse_unrefused unrefused
    | ok _ => rfl

theorem inTurn_steps : b.inTurn tasks fs = (Run.steps b.settings b.solver fs tasks).1 := by
  induction tasks generalizing fs with
  | nil => rfl
  | cons t rest ih => rw [inTurn, alone_step unrefused, ih, Run.steps]

end

theorem solved_step {outcomes : Mode → Option Outcome} {m : Mode} (listed : t ∈ tasks) (at_ : scene.progress t = .solving outcomes)
    (open_ : outcomes m = none) : ∃ next, b.Step tasks scene next ∧ next.files = scene.files ∧ next.progress =
      Function.update scene.progress t (.solving (Function.update outcomes m (some (b.outcome t (b.found t scene.files) m)))) :=
  ⟨_, .solved listed at_ open_, rfl, rfl⟩

theorem solving_reached (listed : t ∈ tasks) (at_ : scene.progress t = .solving fun _ => none) :
    ∃ next outcomes, b.Reaches tasks scene next ∧ next.files = scene.files ∧
      next.progress = Function.update scene.progress t (.solving outcomes) ∧
      ∀ m, outcomes m = some (b.outcome t (b.found t scene.files) m) := by
  obtain ⟨middle, first, held, progress⟩ := solved_step (b := b) (m := .withSd) listed at_ rfl
  have now := congrFun progress t
  rw [Function.update_self] at now
  obtain ⟨next, second, held', progress'⟩ := solved_step (b := b) (m := .withoutSd) listed now rfl
  rw [progress, Function.update_idem, held] at progress'
  refine ⟨next, _, .tail (.single first) second, held'.trans held, progress', ?_⟩
  rintro (_ | _) <;> rfl

theorem failing_reached {e : RunError} (listed : t ∈ tasks) (at_ : scene.progress t = .failing e) :
    ∃ next, b.Reaches tasks scene next ∧ next.files = (b.record t (t.failureText e) scene.files).1 ∧
      next.progress = Function.update scene.progress t .finished :=
  ⟨_, .single (.excused listed at_), rfl, rfl⟩

theorem alone_reached (listed : t ∈ tasks) (at_ : scene.progress t = .waiting) : ∃ next, b.Reaches tasks scene next ∧
    next.files = b.alone t scene.files ∧ next.progress = Function.update scene.progress t .finished := by
  unfold alone
  rcases drawn : b.draw t scene.files with ⟨fs, e | _⟩
  · have at_' : (scene.advance t (.failing e) fs).progress t = .failing e := Function.update_self ..
    obtain ⟨next, excused, files, progress⟩ := failing_reached (b := b) listed at_'
    exact ⟨next, excused.head (.undrawn listed at_ drawn), files, progress.trans (Function.update_idem ..)⟩
  · have at_' : (scene.advance t (.solving fun _ => none) fs).progress t = .solving fun _ => none := Function.update_self ..
    obtain ⟨middle, outcomes, solved, held, progress, answers⟩ := solving_reached (b := b) listed at_'
    have reached := solved.head (.drawn listed at_ drawn)
    have now : middle.progress t = .solving outcomes := by rw [progress, Function.update_self]
    have merged : ∀ p, Function.update middle.progress t p = Function.update scene.progress t p := fun p => by
      rw [progress, Function.update_idem]
      exact Function.update_idem ..
    have held : middle.files = fs := held
    have answers : ∀ m, outcomes m = some (b.outcome t (b.found t fs) m) := answers
    dsimp only
    have asked := fun fs' result (recorded : b.record t (t.outcomeText (b.outcome t (b.found t fs) .withSd)
      (b.outcome t (b.found t fs) .withoutSd)) fs = (fs', result)) => (congrArg _ held).trans recorded
    rcases recorded : b.record t (t.outcomeText (b.outcome t (b.found t fs) .withSd) (b.outcome t (b.found t fs) .withoutSd)) fs
      with ⟨fs', e | _⟩
    · have last := Step.unrecorded (b := b) listed now (answers .withSd) (answers .withoutSd) (asked _ _ recorded)
      have at_' : (middle.advance t (.failing e) fs').progress t = .failing e := Function.update_self ..
      obtain ⟨next, excused, files, progress⟩ := failing_reached (b := b) listed at_'
      refine ⟨next, (reached.tail last).trans excused, files, progress.trans ((Function.update_idem ..).trans (merged _))⟩
    · have last := Step.recorded (b := b) listed now (answers .withSd) (answers .withoutSd) (asked _ _ recorded)
      exact ⟨_, reached.tail last, rfl, merged _⟩

theorem inTurn_reached (within : ∀ t ∈ rest, t ∈ tasks) (once : rest.Nodup) (waiting : ∀ t ∈ rest, scene.progress t = .waiting) :
    ∃ next, b.Reaches tasks scene next ∧ next.files = b.inTurn rest scene.files ∧
      ∀ t, next.progress t = if t ∈ rest then .finished else scene.progress t := by
  induction rest generalizing scene with
  | nil => exact ⟨scene, .refl, rfl, fun _ => rfl⟩
  | cons t rest ih =>
    obtain ⟨listed, within⟩ := List.forall_mem_cons.mp within
    obtain ⟨new, once⟩ := List.nodup_cons.mp once
    obtain ⟨here, waiting⟩ := List.forall_mem_cons.mp waiting
    obtain ⟨middle, reached, files, progress⟩ := alone_reached (b := b) listed here
    have others : ∀ u ∈ rest, middle.progress u = .waiting := fun u held => by
      have different : u ≠ t := fun same => new (same ▸ held)
      rw [progress, Function.update_of_ne different, waiting u held]
    obtain ⟨next, reached', files', progress'⟩ := ih within once others
    refine ⟨next, reached.trans reached', by rw [files', files]; rfl, fun u => ?_⟩
    rw [progress', progress]
    by_cases same : u = t
    · simp [same, new]
    · simp [same]

end Surroundings

end ToffoliBench

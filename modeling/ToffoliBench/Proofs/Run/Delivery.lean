import Mathlib.Data.List.Perm.Basic
import Mathlib.Logic.Relation
import ToffoliBench.Proofs.Run.Check

namespace ToffoliBench

namespace TaskRun

def outcomes (run : TaskRun) : List Outcome :=
  match run.result with
  | .ok report => report.outcomes.map Prod.snd
  | .error _ => []

def failure? (run : TaskRun) : Option Failure :=
  match run.result with
  | .ok _ => none
  | .error e => some ⟨run.task, e.message⟩

theorem outcomes_or_failure (run : TaskRun) : run.outcomes.length + 2 * run.failure?.toList.length = 2 := by
  unfold outcomes failure?
  split <;> rfl

end TaskRun

theorem Outcome.kinds (outcomes : List Outcome) :
    outcomes.countP isCompleted + outcomes.countP isTimedOut + outcomes.countP isFailed = outcomes.length := by
  induction outcomes with
  | nil => rfl
  | cons outcome rest ih =>
    cases outcome <;> simp only [List.countP_cons, List.length_cons, isCompleted, isTimedOut, isFailed, if_true, Bool.false_eq_true, if_false] <;> omega

namespace Summary

def including (s : Summary) (runs : List TaskRun) : Summary where
  tasks := s.tasks
  completed := s.completed + (runs.flatMap TaskRun.outcomes).countP Outcome.isCompleted
  timedOut := s.timedOut + (runs.flatMap TaskRun.outcomes).countP Outcome.isTimedOut
  failed := s.failed + (runs.flatMap TaskRun.outcomes).countP Outcome.isFailed
  failedTasks := s.failedTasks ++ runs.filterMap TaskRun.failure?

theorem add_including (s : Summary) (run : TaskRun) : s.add run = s.including [run] := by
  obtain ⟨task, calls, result⟩ := run
  cases result with
  | error e => simp [add, including, TaskRun.outcomes, TaskRun.failure?]
  | ok report =>
    obtain ⟨_, withSd, withoutSd, _, _⟩ := report
    cases withSd <;> cases withoutSd <;>
      simp [add, count, including, TaskRun.outcomes, TaskRun.failure?, Report.outcomes, List.countP_cons,
        Outcome.isCompleted, Outcome.isTimedOut, Outcome.isFailed]

theorem including_append (s : Summary) (early late : List TaskRun) : (s.including early).including late = s.including (early ++ late) := by
  simp only [including, List.flatMap_append, List.countP_append, List.filterMap_append, Nat.add_assoc, List.append_assoc]

theorem including_cons (s : Summary) (run : TaskRun) (rest : List TaskRun) : (s.add run).including rest = s.including (run :: rest) := by
  rw [add_including, including_append, List.singleton_append]

theorem foldl_including (s : Summary) (runs : List TaskRun) : runs.foldl add s = s.including runs := by
  induction runs generalizing s with
  | nil => simp [including]
  | cons run rest ih => rw [List.foldl_cons, ih, including_cons]

-- The same but for the order in which the failures are listed.
structure Alike (s t : Summary) : Prop where
  tasks : s.tasks = t.tasks
  completed : s.completed = t.completed
  timedOut : s.timedOut = t.timedOut
  failed : s.failed = t.failed
  failedTasks : s.failedTasks.Perm t.failedTasks

theorem including_perm (s : Summary) {one two : List TaskRun} (same : one.Perm two) : (s.including one).Alike (s.including two) where
  tasks := rfl
  completed := congrArg (s.completed + ·) ((same.flatMap_right _).countP_eq _)
  timedOut := congrArg (s.timedOut + ·) ((same.flatMap_right _).countP_eq _)
  failed := congrArg (s.failed + ·) ((same.flatMap_right _).countP_eq _)
  failedTasks := (same.filterMap _).append_left _

theorem including_balance (s : Summary) (runs : List TaskRun) :
    (s.including runs).completed + (s.including runs).timedOut + (s.including runs).failed + 2 * (s.including runs).failedTasks.length =
      s.completed + s.timedOut + s.failed + 2 * s.failedTasks.length + 2 * runs.length := by
  have each : (runs.flatMap TaskRun.outcomes).length + 2 * (runs.filterMap TaskRun.failure?).length = 2 * runs.length := by
    induction runs with
    | nil => rfl
    | cons run rest ih =>
      have one := run.outcomes_or_failure
      rw [List.flatMap_cons, List.length_append, List.filterMap_cons, List.length_cons]
      cases failed : run.failure? <;> simp_all <;> omega
  have kinds := Outcome.kinds (runs.flatMap TaskRun.outcomes)
  simp only [including, List.length_append]
  omega

theorem including_nothing (s : Summary) : s.including [] = s := by simp [including]

-- What a summary is to say of the results of so many tasks.
structure Accounts (s : Summary) (count : Nat) (runs : List TaskRun) : Prop where
  tasks : s.tasks = count
  balance : s.completed + s.timedOut + s.failed + 2 * s.failedTasks.length = 2 * count
  completed : s.completed = (runs.flatMap TaskRun.outcomes).countP Outcome.isCompleted
  timedOut : s.timedOut = (runs.flatMap TaskRun.outcomes).countP Outcome.isTimedOut
  failed : s.failed = (runs.flatMap TaskRun.outcomes).countP Outcome.isFailed
  failedTasks : s.failedTasks = runs.filterMap TaskRun.failure?

end Summary

namespace Run

variable {s : Settings} {solver : Solver} {tasks : List Task} {fs before : Files}

theorem total_including (count : Nat) (runs : List TaskRun) : total count runs = Summary.including { tasks := count } runs :=
  Summary.foldl_including _ runs

theorem total_accounts (runs : List TaskRun) : (total runs.length runs).Accounts runs.length runs := by
  rw [total_including]
  have balance := Summary.including_balance { tasks := runs.length } runs
  exact ⟨rfl, balance.trans (Nat.zero_add _), Nat.zero_add _, Nat.zero_add _, Nat.zero_add _, List.nil_append _⟩

theorem run_task (t : Task) : (t.run s solver fs).2.task = t := by
  unfold Task.run
  split
  · rfl
  · dsimp only
    split <;> rfl

theorem steps_tasks : (steps s solver fs tasks).2.map TaskRun.task = tasks := by
  induction tasks generalizing fs with
  | nil => rfl
  | cons t rest ih => rw [steps, List.map_cons, step_run, run_task, ih]

theorem steps_each {early late : List Task} {t : Task} :
    (steps s solver fs (early ++ t :: late)).2[early.length]? = some (t.run s solver (steps s solver fs early).1).2 := by
  induction early generalizing fs with
  | nil => simp only [List.nil_append, steps, List.length_nil, List.getElem?_cons_zero, step_run]
  | cons first rest ih => simp only [List.cons_append, steps, List.length_cons, List.getElem?_cons_succ, ih]

-- What the caller has of a run for which the directories were made: each entry with what its own run came
-- to, and the totals of just these, unless they could not be written.
structure Accounted (s : Settings) (solver : Solver) (fs : Files) (tasks : List Task) (run : Run) : Prop where
  told : run.tasks = (steps s solver fs tasks).2
  entries : run.tasks.map TaskRun.task = tasks
  each : ∀ early t late, tasks = early ++ t :: late →
    run.tasks[early.length]? = some (t.run s solver (steps s solver fs early).1).2
  counted : (total tasks.length run.tasks).Accounts tasks.length run.tasks
  files : run.files = (writeSummary s (total tasks.length run.tasks) (steps s solver fs tasks).1).1
  summary : run.summary = (writeSummary s (total tasks.length run.tasks) (steps s solver fs tasks).1).2.map
    fun _ => total tasks.length run.tasks

theorem ofTasks_accounted (checked : Task.check s [] tasks = .ok ()) (prepared : prepare s before = (fs, .ok ())) :
    Accounted s solver fs tasks (ofTasks s solver tasks before) := by
  have length : (steps s solver fs tasks).2.length = tasks.length := by
    rw [← List.length_map (f := TaskRun.task), steps_tasks]
  have counted := total_accounts (steps s solver fs tasks).2
  rw [length] at counted
  rw [ofTasks_prepared checked prepared]
  refine ⟨rfl, steps_tasks, fun early t late same => same ▸ steps_each, counted, ?files, ?summary⟩
  case files => dsimp only
  case summary => dsimp only

end Run

structure Pool where
  waiting : List Task
  active : List Task
  told : List TaskRun
  summary : Summary

namespace Pool

variable {workers : Nat} {tasks : List Task} {pool next : Pool} {runs : List TaskRun}

def start (tasks : List Task) : Pool := ⟨tasks, [], [], { tasks := tasks.length }⟩

-- A task is taken up while there is room. Any task under way may finish next, and with any result.
inductive Step (workers : Nat) (pool : Pool) : Pool → Prop
  | taken {t : Task} {rest : List Task} (first : pool.waiting = t :: rest) (room : pool.active.length < workers) :
      Step workers pool { pool with waiting := rest, active := t :: pool.active }
  | told {run : TaskRun} (active : run.task ∈ pool.active) : Step workers pool
      { pool with active := pool.active.erase run.task, told := pool.told ++ [run], summary := pool.summary.add run }

abbrev Reaches (workers : Nat) : Pool → Pool → Prop := Relation.ReflTransGen (Step workers)

def Done (pool : Pool) : Prop := pool.waiting = [] ∧ pool.active = []

structure Holds (workers : Nat) (tasks : List Task) (pool : Pool) : Prop where
  entries : (pool.waiting ++ pool.active ++ pool.told.map TaskRun.task).Perm tasks
  room : pool.active.length ≤ workers
  counted : pool.summary = Run.total tasks.length pool.told

theorem holds_start : Holds workers tasks (start tasks) := ⟨by simp [start], Nat.zero_le _, rfl⟩

theorem step_holds (holds : Holds workers tasks pool) (step : Step workers pool next) : Holds workers tasks next := by
  cases step with
  | @taken t rest first room =>
    refine ⟨.trans (.append_right _ ?_) holds.entries, room, holds.counted⟩
    rw [first]
    exact List.perm_middle
  | @told run active =>
    refine ⟨.trans ?_ holds.entries, Nat.le_trans List.length_erase_le holds.room, ?_⟩
    · -- the entry goes from the tasks under way to those that were told
      have moved : (run.task :: pool.active.erase run.task).Perm pool.active := (List.perm_cons_erase active).symm
      rw [List.map_append, ← List.append_assoc, List.map_singleton]
      refine .trans (List.perm_append_singleton _ _) (.trans ?_ (.append_right _ (moved.append_left pool.waiting)))
      rw [← List.cons_append]
      exact List.perm_middle.symm.append_right _
    · rw [holds.counted, Run.total, Run.total, List.foldl_append]
      rfl

theorem reaches_holds (reached : Reaches workers (start tasks) pool) : Holds workers tasks pool := by
  induction reached with
  | refl => exact holds_start
  | tail _ step ih => exact step_holds ih step

-- Every task is taken up and told of, so every step is one fewer to come.
def stepsLeft (pool : Pool) : Nat := 2 * pool.waiting.length + pool.active.length

theorem step_left (step : Step workers pool next) : next.stepsLeft + 1 = pool.stepsLeft := by
  cases step with
  | taken first room =>
    simp only [stepsLeft, first, List.length_cons]
    omega
  | told active =>
    have some_ := List.length_pos_of_mem active
    simp only [stepsLeft, List.length_erase_of_mem active]
    omega

theorem step_possible (free : 0 < workers) (unfinished : ¬pool.Done) : ∃ next, Step workers pool next := by
  cases under : pool.active with
  | cons t rest => exact ⟨_, @Step.told workers pool ⟨t, [], .error default⟩ (under ▸ List.mem_cons_self)⟩
  | nil =>
    cases first : pool.waiting with
    | nil => exact absurd ⟨first, under⟩ unfinished
    | cons t rest => exact ⟨_, .taken first (by simpa [under] using free)⟩

theorem done_reached (free : 0 < workers) (pool : Pool) : ∃ last, Reaches workers pool last ∧ last.Done := by
  induction left : pool.stepsLeft using Nat.strongRecOn generalizing pool with
  | _ n ih =>
    by_cases done : pool.Done
    · exact ⟨pool, .refl, done⟩
    · obtain ⟨next, step⟩ := step_possible free done
      have fewer := step_left step
      obtain ⟨last, reached, done⟩ := ih next.stepsLeft (by omega) next rfl
      exact ⟨last, reached.head step, done⟩

-- The pool when these results were told and nothing is left to do.
def closed (pool : Pool) (runs : List TaskRun) : Pool := ⟨[], [], pool.told ++ runs, pool.summary.including runs⟩

theorem taken_all (room : pool.waiting.length + pool.active.length ≤ workers) :
    ∃ active, Reaches workers pool { pool with waiting := [], active } ∧ active.Perm (pool.waiting ++ pool.active) := by
  obtain ⟨waiting, active, told, summary⟩ := pool
  induction waiting generalizing active with
  | nil => exact ⟨active, .refl, .refl _⟩
  | cons t rest ih =>
    dsimp only [List.length_cons] at room
    obtain ⟨all, reached, same⟩ := ih (t :: active) (by dsimp only [List.length_cons]; omega)
    exact ⟨all, reached.head (.taken rfl (by dsimp only; omega)), same.trans List.perm_middle⟩

theorem told_all (idle : pool.waiting = []) (named : pool.active.Perm (runs.map TaskRun.task)) : Reaches workers pool (pool.closed runs) := by
  obtain ⟨waiting, active, told, summary⟩ := pool
  obtain rfl : waiting = [] := idle
  induction runs generalizing active told summary with
  | nil =>
    obtain rfl : active = [] := List.perm_nil.mp named
    rw [closed, Summary.including_nothing, List.append_nil]
  | cons run rest ih =>
    have listed : run.task ∈ active := named.mem_iff.mpr List.mem_cons_self
    have others := named.erase run.task
    rw [List.map_cons, List.erase_cons_head] at others
    have later := ih (active.erase run.task) (told ++ [run]) (summary.add run) others
    simp only [closed, Summary.including_cons, List.append_assoc, List.singleton_append] at later
    exact later.head (.told listed)

theorem inTurn_reached (free : 0 < workers) (idle : pool.active = []) (named : pool.waiting = runs.map TaskRun.task) :
    Reaches workers pool (pool.closed runs) := by
  obtain ⟨waiting, active, told, summary⟩ := pool
  obtain rfl : active = [] := idle
  induction runs generalizing waiting told summary with
  | nil =>
    obtain rfl : waiting = [] := named
    rw [closed, Summary.including_nothing, List.append_nil]
  | cons run rest ih =>
    have later := ih (rest.map TaskRun.task) (told ++ [run]) (summary.add run) rfl
    simp only [closed, Summary.including_cons, List.append_assoc, List.singleton_append] at later
    have first : Step workers ⟨waiting, [], told, summary⟩ ⟨rest.map TaskRun.task, [run.task], told, summary⟩ := .taken named free
    have second : Step workers ⟨rest.map TaskRun.task, [run.task], told, summary⟩
        ⟨rest.map TaskRun.task, [run.task].erase run.task, told ++ [run], summary.add run⟩ := .told List.mem_cons_self
    rw [List.erase_cons_head] at second
    exact (later.head second).head first

theorem Done.accounts (done : pool.Done) (reached : Reaches workers (start tasks) pool) :
    (pool.told.map TaskRun.task).Perm tasks ∧ pool.summary.Accounts tasks.length pool.told := by
  obtain ⟨entries, _, counted⟩ := reaches_holds reached
  rw [done.1, done.2, List.nil_append, List.nil_append] at entries
  have length : pool.told.length = tasks.length := by simpa using entries.length_eq
  rw [counted, ← length]
  exact ⟨entries, Run.total_accounts _⟩

end Pool

namespace Run

-- Whatever becomes of the tasks of a list and in whatever order they finish: the caller is told of
-- each entry once, and the summary says what the results come to, which does not depend on the order.
-- Every order is possible among as many tasks as there are workers, no run goes on for ever, and a run
-- that takes the tasks in turn is one of these.
theorem results_accounted (s : Settings) (tasks : List Task) :
    (∀ pool, Pool.Reaches s.workers (.start tasks) pool → pool.Done →
      (pool.told.map TaskRun.task).Perm tasks ∧ pool.summary.Accounts tasks.length pool.told) ∧
    (∀ one two, Pool.Reaches s.workers (.start tasks) one → one.Done → Pool.Reaches s.workers (.start tasks) two → two.Done →
      one.told.Perm two.told → one.summary.Alike two.summary) ∧
    (∀ runs, (runs.map TaskRun.task).Perm tasks → tasks.length ≤ s.workers →
      ∃ pool, Pool.Reaches s.workers (.start tasks) pool ∧ pool.Done ∧ pool.told = runs) ∧
    (0 < s.workers → ∀ pool, Pool.Reaches s.workers (.start tasks) pool → ∃ last, Pool.Reaches s.workers pool last ∧ last.Done) ∧
    (WellFounded fun next pool => Pool.Step s.workers pool next) ∧
    ∀ solver before fs, Task.check s [] tasks = .ok () →
      (∀ e, prepare s before = (fs, .error e) → ofTasks s solver tasks before = { files := fs, summary := .error e }) ∧
      (prepare s before = (fs, .ok ()) → Accounted s solver fs tasks (ofTasks s solver tasks before) ∧
        (0 < s.workers → ∃ pool, Pool.Reaches s.workers (.start tasks) pool ∧ pool.Done ∧
          pool.told = (ofTasks s solver tasks before).tasks ∧ pool.summary = total tasks.length (ofTasks s solver tasks before).tasks)) := by
  refine ⟨fun pool reached done => done.accounts reached, ?alike, ?orders, fun free pool _ => Pool.done_reached free pool, ?ends, ?turn⟩
  case alike =>
    intro one two first _ second _ same
    rw [(Pool.reaches_holds first).counted, (Pool.reaches_holds second).counted, total_including, total_including]
    exact Summary.including_perm _ same
  case orders =>
    intro runs named room
    have fits : (Pool.start tasks).waiting.length + (Pool.start tasks).active.length ≤ s.workers := room
    obtain ⟨active, reached, same⟩ := Pool.taken_all fits
    have all : active.Perm (runs.map TaskRun.task) := (same.trans (.of_eq (List.append_nil tasks))).trans named.symm
    exact ⟨_, reached.trans (Pool.told_all rfl all), ⟨rfl, rfl⟩, rfl⟩
  case ends =>
    refine Subrelation.wf (fun {next pool} step => ?_) (measure Pool.stepsLeft).wf
    have fewer := Pool.step_left step
    change next.stepsLeft < pool.stepsLeft
    omega
  case turn =>
    intro solver before fs checked
    refine ⟨fun e => ofTasks_unprepared checked, fun prepared => ?_⟩
    have accounted : Accounted s solver fs tasks (ofTasks s solver tasks before) := ofTasks_accounted checked prepared
    refine ⟨accounted, fun free => ⟨_, Pool.inTurn_reached free rfl accounted.entries.symm, ⟨rfl, rfl⟩, List.nil_append _, ?_⟩⟩
    rw [total_including]
    rfl

def twiceListed : List Task := [⟨3, 0, 0, 0, 5⟩, ⟨2, 0, 0, 0, 5⟩, ⟨3, 0, 0, 0, 5⟩]

def mixedRuns : List TaskRun :=
  [⟨⟨2, 0, 0, 0, 5⟩, [], .error (.unwritable "out" .denied)⟩,
    ⟨⟨3, 0, 0, 0, 5⟩, [], .ok ⟨⟨3, 0, 0, 0, 5⟩, .completed "" (some 0) ⟨1, 0⟩, .timedOut ⟨180, 0⟩, "in", "out"⟩⟩,
    ⟨⟨3, 0, 0, 0, 5⟩, [], .ok ⟨⟨3, 0, 0, 0, 5⟩, .failed "gone", .completed "" none ⟨2, 0⟩, "in", "out"⟩⟩]

theorem results_accounted_mixed :
    (∃ pool, Pool.Reaches 12 (.start twiceListed) pool ∧ pool.Done ∧ pool.told = mixedRuns ∧
      (pool.told.map TaskRun.task).Perm twiceListed ∧ pool.summary.tasks = 3 ∧ pool.summary.completed = 2 ∧
      pool.summary.timedOut = 1 ∧ pool.summary.failed = 1 ∧
      pool.summary.failedTasks = [⟨⟨2, 0, 0, 0, 5⟩, "Cannot write out: Permission denied (os error 13)"⟩]) ∧
    Task.check {} [] twiceListed = .ok () ∧
    ∀ solver, ∃ fs, prepare {} {} = (fs, .ok ()) ∧ Accounted {} solver fs twiceListed (ofTasks {} solver twiceListed {}) ∧
      ∃ pool, Pool.Reaches 12 (.start twiceListed) pool ∧ pool.Done ∧ pool.told = (ofTasks {} solver twiceListed {}).tasks := by
  obtain ⟨accounts, _, orders, _, _, turn⟩ := results_accounted {} twiceListed
  have empty : ∀ t ∈ twiceListed, t.nots = 0 ∧ t.cnots = 0 ∧ t.toffolis = 0 := by decide
  have checked : Task.check {} [] twiceListed = .ok () := by
    refine Task.check_passes.mpr fun t listed _ => Recipe.validate_ok.mpr ?_
    obtain ⟨nots, cnots, toffolis⟩ := empty t listed
    constructor
    case range => exact ⟨Nat.sub_le _ _, Nat.le_refl _⟩
    case nots => exact fun asked => absurd asked (nots ▸ Nat.lt_irrefl 0)
    case cnots => exact fun asked => absurd asked (cnots ▸ Nat.lt_irrefl 0)
    case targets => exact fun asked => absurd asked (toffolis ▸ Nat.lt_irrefl 0)
    case controls => exact fun asked => absurd asked (toffolis ▸ Nat.lt_irrefl 0)
  refine ⟨?_, checked, fun solver => ?_⟩
  · obtain ⟨pool, reached, done, told⟩ := orders mixedRuns (by decide) (by decide)
    obtain ⟨once, sums⟩ := accounts pool reached done
    rw [told] at sums
    exact ⟨pool, reached, done, told, once, sums.tasks, sums.completed, sums.timedOut, sums.failed, sums.failedTasks⟩
  · have prepared : prepare {} {} = (_, .ok ()) := rfl
    obtain ⟨accounted, inTurn⟩ := (turn solver {} _ checked).2 prepared
    obtain ⟨pool, reached, done, same, _⟩ := inTurn (by decide)
    exact ⟨_, prepared, accounted, pool, reached, done, same⟩

end Run

end ToffoliBench

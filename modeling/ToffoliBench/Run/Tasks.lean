import ToffoliBench.Run.Summary
import ToffoliBench.Task.Grid

namespace ToffoliBench

def summaryFile : String := "summary.json"

structure Run where
  files : Files
  -- the tasks in the order in which they were run
  tasks : List TaskRun := []
  summary : Except RunError Summary

namespace Run

def makeDirectory (dir : String) (fs : Files) : Files × Except RunError Unit :=
  Task.written dir (fs.makeDirectories dir)

def prepare (s : Settings) (fs : Files) : Files × Except RunError Unit :=
  match makeDirectory s.inputDir fs with
  | (fs, .error e) => (fs, .error e)
  | (fs, .ok _) => makeDirectory s.outputDir fs

def step (s : Settings) (solver : Solver) (fs : Files) (t : Task) : Files × TaskRun :=
  match t.run s solver fs with
  | (fs, run) =>
    match run.result with
    | .ok _ => (fs, run)
    | .error e => (t.writeFailure s e fs, run)

def steps (s : Settings) (solver : Solver) (fs : Files) : List Task → Files × List TaskRun
  | [] => (fs, [])
  | t :: rest =>
    let (fs, run) := step s solver fs t
    let (fs, runs) := steps s solver fs rest
    (fs, run :: runs)

def total (count : Nat) (runs : List TaskRun) : Summary := runs.foldl .add { tasks := count }

def writeSummary (s : Settings) (summary : Summary) (fs : Files) : Files × Except RunError Unit :=
  let path := Files.join s.outputDir summaryFile
  Task.written path (fs.writeBelow path (summary.toJson.indented 0))

-- Nothing is touched unless the circuits of all tasks can be generated.
def ofTasks (s : Settings) (solver : Solver) (tasks : List Task) (fs : Files) : Run :=
  match Task.check s [] tasks with
  | .error e => { files := fs, summary := .error (.generation e) }
  | .ok _ =>
    match prepare s fs with
    | (fs, .error e) => { files := fs, summary := .error e }
    | (fs, .ok _) =>
      let (fs, runs) := steps s solver fs tasks
      let summary := total tasks.length runs
      match writeSummary s summary fs with
      | (fs, .error e) => { files := fs, tasks := runs, summary := .error e }
      | (fs, .ok _) => { files := fs, tasks := runs, summary := .ok summary }

end Run

end ToffoliBench

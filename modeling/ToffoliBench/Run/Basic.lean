import ToffoliBench.Drawing.Writing
import ToffoliBench.Solver.Outcome
import ToffoliBench.Task.Basic

namespace ToffoliBench

structure Invocation where
  mode : Mode
  diagram : String
  limit : Option Duration
deriving DecidableEq, Repr, Inhabited

abbrev Solver := Invocation → Files → Outcome × Files

inductive RunError where
  | generation (e : CircuitError)
  | unwritable (path : String) (e : FileError)
deriving DecidableEq, Repr, Inhabited

def RunError.message : RunError → String
  | .generation e => s!"Circuit generation failed: {e.message}"
  | .unwritable path e => s!"Cannot write {path}: {e.message}"

-- The time limit of a mode. The first mode has none if only the second is limited.
def Settings.limit (s : Settings) (m : Mode) : Option Duration :=
  match s.timeoutPolicy, m with
  | .secondOnly, .withSd => none
  | _, _ => some (.ofSeconds s.timeoutSeconds)

structure Report where
  task : Task
  withSd : Outcome
  withoutSd : Outcome
  diagramPath : String
  resultPath : String
deriving DecidableEq, Repr, Inhabited

def Report.outcomes (r : Report) : List (Mode × Outcome) := [(.withSd, r.withSd), (.withoutSd, r.withoutSd)]

namespace Task

def diagramPath (t : Task) (s : Settings) : String := t.fileIn s.inputDir
def resultPath (t : Task) (s : Settings) : String := t.fileIn s.outputDir

def drawing (t : Task) (s : Settings) : Except RunError String :=
  match t.circuit s with
  | .ok c => .ok (Drawing.trimmedText c.diagram)
  | .error e => .error (.generation e)

def written (path : String) : Files × Except FileError Unit → Files × Except RunError Unit
  | (fs, r) => (fs, r.mapError (.unwritable path))

def writeDiagram (t : Task) (s : Settings) (fs : Files) : Files × Except RunError Unit :=
  match t.drawing s with
  | .error e => (fs, .error e)
  | .ok text => written (t.diagramPath s) (fs.writeBelow (t.diagramPath s) text)

def invocation (t : Task) (s : Settings) (m : Mode) : Invocation := ⟨m, t.diagramPath s, s.limit m⟩

def recordText (t : Task) (withSd withoutSd : String) : String := t.stem ++ "\n" ++ withSd ++ withoutSd

def outcomeText (t : Task) (withSd withoutSd : Outcome) : String :=
  t.recordText (withSd.recordText .withSd) (withoutSd.recordText .withoutSd)

def failureText (t : Task) (e : RunError) : String :=
  t.recordText (Mode.withSd.failedText e.message) (Mode.withoutSd.failedText e.message)

def writeResult (t : Task) (s : Settings) (withSd withoutSd : Outcome) (fs : Files) :
    Files × Except RunError Unit :=
  written (t.resultPath s) (fs.writeBelow (t.resultPath s) (t.outcomeText withSd withoutSd))

-- if even the error cannot be written, nothing is
def writeFailure (t : Task) (s : Settings) (e : RunError) (fs : Files) : Files :=
  (fs.writeBelow (t.resultPath s) (t.failureText e)).1

end Task

structure TaskRun where
  task : Task
  calls : List Invocation
  result : Except RunError Report

-- All steps of a task, without the record of its error.
def Task.run (t : Task) (s : Settings) (solver : Solver) (fs : Files) : Files × TaskRun :=
  match t.writeDiagram s fs with
  | (fs, .error e) => (fs, ⟨t, [], .error e⟩)
  | (fs, .ok _) =>
    let (withSd, fs) := solver (t.invocation s .withSd) fs
    let (withoutSd, fs) := solver (t.invocation s .withoutSd) fs
    let calls := Mode.all.map (t.invocation s)
    match t.writeResult s withSd withoutSd fs with
    | (fs, .error e) => (fs, ⟨t, calls, .error e⟩)
    | (fs, .ok _) => (fs, ⟨t, calls, .ok ⟨t, withSd, withoutSd, t.diagramPath s, t.resultPath s⟩⟩)

end ToffoliBench

import ToffoliBench.Exchange.Run
import ToffoliBench.Run.Basic

namespace ToffoliBench

structure Failure where
  task : Task
  error : String
deriving DecidableEq, Repr, Inhabited

structure Summary where
  tasks : Nat
  completed : Nat := 0
  timedOut : Nat := 0
  failed : Nat := 0
  failedTasks : List Failure := []
deriving DecidableEq, Repr, Inhabited

namespace Summary

def count (s : Summary) : Outcome → Summary
  | .completed _ _ _ => { s with completed := s.completed + 1 }
  | .timedOut _ => { s with timedOut := s.timedOut + 1 }
  | .failed _ => { s with failed := s.failed + 1 }

def add (s : Summary) (run : TaskRun) : Summary :=
  match run.result with
  | .ok report => (s.count report.withSd).count report.withoutSd
  | .error e => { s with failedTasks := s.failedTasks ++ [⟨run.task, e.message⟩] }

end Summary

def Failure.toJson (f : Failure) : Json := .object [("task", f.task.toJson), ("error", .string f.error)]

def Summary.toJson (s : Summary) : Json :=
  .object
    [("tasks", .ofNat s.tasks), ("completed", .ofNat s.completed), ("timed_out", .ofNat s.timedOut),
      ("failed", .ofNat s.failed), ("failed_tasks", .ofList Failure.toJson s.failedTasks)]

end ToffoliBench

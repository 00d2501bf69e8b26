import ToffoliBench.Run.Basic
import ToffoliBench.Shell.Running

namespace ToffoliBench

namespace Solver

def startNanos : Nat := 1000000

def isStop (stop : Shell.Stop) : Except Shell.Stop Unit → Bool
  | .error other => other == stop
  | .ok _ => false

def outcome (limit : Option Duration) (result : Except Shell.Stop Unit) (s : Shell.State) : Outcome :=
  match limit.filter fun l => isStop .endless result || l.toNanos ≤ s.nanos with
  | some l => .timedOut l
  | none =>
    if isStop .endless result then .failed "Solver does not end"
    else
      let exitCode := if isStop .killed result then none else some (s.status : Int)
      .completed (Shell.toText s.output) exitCode (.ofNanos s.nanos)

-- A program that cannot be started, or that would never end and has no limit, has failed.
def ofProgram (program : String) : Solver := fun call fs =>
  match Shell.resolve fs program 4 with
  | .error e => (.failed e.message, fs)
  | .ok _ =>
    let args := [call.mode.flag, call.diagram].map Shell.ofText
    let action := Shell.external (Shell.ofText program) args Shell.depth
    let (result, s) := (action.run.run { files := fs, nanos := startNanos } : Except Shell.Stop Unit × Shell.State)
    (outcome call.limit result s, s.files)

end Solver

end ToffoliBench

import ToffoliBench.Decimal.Rounded
import ToffoliBench.Drawing.Error
import ToffoliBench.Run.Tasks

namespace ToffoliBench

def CircuitError.causes : CircuitError → List String
  | .diagram e => [CircuitError.message (.diagram e), e.message]
  | e => [e.message]

def DrawingError.causes : DrawingError → List String
  | .diagram e => [DrawingError.message (.diagram e), e.message]
  | e => [e.message]

def RunError.causes : RunError → List String
  | .generation e => RunError.message (.generation e) :: e.causes
  | .unwritable path e => [RunError.message (.unwritable path e), e.message]

def CircuitError.isFault : CircuitError → Bool
  | .diagram (.fault _) => true
  | _ => false

namespace Command

-- A piece of output. Only the end of a run tells the time.
inductive Line where
  | text (s : String)
  | finished (summary : Summary)

structure Report where
  lines : List Line := []
  note : Option String := none
  exit : Nat := 0
  files : Files

def Line.render (seconds : String) : Line → String
  | .text s => s ++ "\n"
  | .finished s =>
    s!"✓ Finished in {seconds}s: {s.completed} completed, {s.timedOut} timed out, {s.failed} failed solver runs\n"

def Report.output (r : Report) (seconds : String) : String := String.join (r.lines.map (Line.render seconds))

def failed (fs : Files) (causes : List String) (lines : List Line := []) : Report :=
  { lines, note := some ("Error: " ++ Text.joined ": " causes), exit := 1, files := fs }

def aborted (fs : Files) (lines : List Line := []) : Report := { lines, exit := 101, files := fs }

def refused (fs : Files) : Report := { exit := 2, files := fs }

end Command

end ToffoliBench

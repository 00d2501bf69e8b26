import ToffoliBench.Text.Integer

namespace ToffoliBench

inductive Mode where
  | withSd
  | withoutSd
deriving DecidableEq, Repr, Inhabited

namespace Mode

def all : List Mode := [.withSd, .withoutSd]

def flag : Mode → String
  | .withSd => "WITH_SD"
  | .withoutSd => "WITHOUT_SD"

def label : Mode → String
  | .withSd => "QUIZX_WITH"
  | .withoutSd => "QUIZX_WITHOUT"

def emptyRecord (m : Mode) (reason : String) : String :=
  m.label ++ " NUM OF TERMS: NONE\n" ++ m.label ++ " RUNTIME: " ++ reason ++ "\n\n"

def stoppedText (m : Mode) : String := m.emptyRecord "STOPPED"

def failedText (m : Mode) (message : String) : String := m.emptyRecord ("FAILED (" ++ message ++ ")")

end Mode

structure Duration where
  seconds : Nat
  nanos : Nat
deriving DecidableEq, Repr, Inhabited

namespace Duration

def perSecond : Nat := 1000000000

def ofNanos (n : Nat) : Duration := ⟨n / perSecond, n % perSecond⟩
def ofMillis (n : Nat) : Duration := ofNanos (n * 1000000)
def ofSeconds (n : Nat) : Duration := ⟨n, 0⟩
def toNanos (d : Duration) : Nat := d.seconds * perSecond + d.nanos
def toMillis (d : Duration) : Nat := d.toNanos / 1000000

end Duration

-- A solver that exits counts as completed, whatever its exit code; it has none if it was killed by a
-- signal.
inductive Outcome where
  | completed (stdout : String) (exitCode : Option Int) (elapsed : Duration)
  | timedOut (limit : Duration)
  | failed (message : String)
deriving DecidableEq, Repr, Inhabited

namespace Outcome

def isCompleted : Outcome → Bool
  | .completed _ _ _ => true
  | _ => false

def isTimedOut : Outcome → Bool
  | .timedOut _ => true
  | _ => false

def isFailed : Outcome → Bool
  | .failed _ => true
  | _ => false

def recordText (m : Mode) : Outcome → String
  | .completed stdout _ _ => stdout
  | .timedOut _ => m.stoppedText
  | .failed message => m.failedText message

end Outcome

end ToffoliBench

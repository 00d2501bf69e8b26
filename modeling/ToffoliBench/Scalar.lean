import ToffoliBench.Decimal.Rounded
import ToffoliBench.Phase

namespace ToffoliBench

structure Scalar where
  power : Int
  phase : Phase
deriving DecidableEq, Repr

namespace Scalar

def one : Scalar := ⟨0, .zero⟩

instance : Inhabited Scalar := ⟨one⟩

def mulPower (s : Scalar) (k : Int) : Except Fault Scalar := do
  let power ← within Range.signed32 (s.power + k)
  pure { s with power }

def mulPhase (s : Scalar) (p : Phase) : Except Fault Scalar := do
  let phase ← s.phase.add p
  pure { s with phase }

def mul (s t : Scalar) : Except Fault Scalar := do
  let power ← within Range.signed32 (s.power + t.power)
  let phase ← s.phase.add t.phase
  pure ⟨power, phase⟩

def isOne (s : Scalar) : Bool := s.power == 0 && s.phase.isZero

def sqrtTwo : Float := Float.ofBits 0x3ff6a09e667f3bcd
def circleHalf : Float := Float.ofBits 0x400921fb54442d18

-- `acc · base^n` by repeated squaring, lowest bit first.
def powerLoop (acc base : Float) (n : Nat) : Float :=
  let acc := if n % 2 = 1 then acc * base else acc
  if n / 2 = 0 then acc else powerLoop acc (base * base) (n / 2)
termination_by n
decreasing_by omega

def magnitude (s : Scalar) : Float :=
  let m := powerLoop 1 sqrtTwo s.power.natAbs
  if s.power < 0 then 1 / m else m

def angle (s : Scalar) : Float := circleHalf * s.phase.toFloat

def re (s : Scalar) : Float := s.magnitude * s.angle.cos
def im (s : Scalar) : Float := s.magnitude * s.angle.sin

def text (s : Scalar) : String :=
  let turn := if s.phase.isZero then "" else "·e^(iπ·" ++ s.phase.text ++ ")"
  "√2^" ++ String.ofList (Text.ofInt s.power) ++ turn ++ " ≈ " ++
    Decimal.fixed 6 false s.re ++ Decimal.fixed 6 true s.im ++ "i"

end Scalar

end ToffoliBench

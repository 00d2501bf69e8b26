import ToffoliBench.Diagram.Error
import ToffoliBench.Fraction
import ToffoliBench.Text.Blank

namespace ToffoliBench

-- Operations bring their results into `[0, 2)`. Only a phase that is read back field by field may lie
-- outside.
structure Phase where
  coeff : Fraction
deriving DecidableEq, Repr

namespace Phase

def zero : Phase := ⟨⟨0, 1⟩⟩
def pi : Phase := ⟨⟨1, 1⟩⟩
def third : Phase := ⟨⟨1, 3⟩⟩

instance : Inhabited Phase := ⟨zero⟩

def ofFraction (r : Fraction) : Except Fault Phase := do
  let turned ← r.rem (.ofInt 2)
  if turned.numer < 0 then
    let up ← turned.add (.ofInt 2)
    pure ⟨up⟩
  else pure ⟨turned⟩

def make (numer denom : Int) : Except Fault Phase := do
  let r ← Fraction.make numer denom
  ofFraction r

def ofInt (n : Int) : Except Fault Phase := ofFraction (.ofInt n)

def ofParts (numer denom : Int) : Option Phase :=
  if denom = 0 then none else some ⟨⟨numer, denom⟩⟩

def add (p q : Phase) : Except Fault Phase := do
  let sum ← p.coeff.add q.coeff
  ofFraction sum

def neg (p : Phase) : Except Fault Phase := do
  let flipped ← p.coeff.neg
  ofFraction flipped

def isZero (p : Phase) : Bool := p.coeff.numer == 0

def isClifford (p : Phase) : Bool := decide (p.coeff.denom ≤ 2)

def toFloat (p : Phase) : Float := Float.ofInt p.coeff.numer / Float.ofInt p.coeff.denom

def chars (p : Phase) : List Char :=
  if p.coeff.denom = 1 then Text.ofInt p.coeff.numer
  else Text.ofInt p.coeff.numer ++ '/' :: Text.ofInt p.coeff.denom

def text (p : Phase) : String := String.ofList p.chars

-- The fraction that a trimmed text spells, before it is brought into `[0, 2)`.
def fraction? (cs : List Char) : Option (Except Fault Fraction) :=
  match Text.splitAt? '/' cs with
  | some (n, d) => do
    let numer ← Text.intIn? Range.signed64 (Text.trim n)
    let denom ← Text.intIn? Range.signed64 (Text.trim d)
    if denom = 0 then none else some (Fraction.make numer denom)
  | none => (Text.intIn? Range.signed64 cs).map fun n => .ok (.ofInt n)

def parse (cs : List Char) : Except DiagramError Phase :=
  match fraction? (Text.trim cs) with
  | none => .error (.invalidPhase (String.ofList (Text.trim cs)))
  | some r => (r.bind ofFraction).mapError .fault

end Phase

end ToffoliBench

import ToffoliBench.Fault

namespace ToffoliBench

structure Fraction where
  numer : Int
  denom : Int
deriving DecidableEq, Repr, Inhabited

namespace Fraction

def checked (x : Int) : Except Fault Int := within Range.signed64 x

def make (n d : Int) : Except Fault Fraction :=
  if d = 0 then .error .zeroDenominator
  else if n = 0 then .ok ⟨0, 1⟩
  else if n = d then .ok ⟨1, 1⟩
  else
    let g : Int := Int.gcd n d
    let numer := n.tdiv g
    let denom := d.tdiv g
    if denom < 0 then do
      let flipped ← checked (0 - numer)
      let positive ← checked (0 - denom)
      pure ⟨flipped, positive⟩
    else .ok ⟨numer, denom⟩

def ofInt (n : Int) : Fraction := ⟨n, 1⟩

def lcm (a b : Int) : Except Fault Int := do
  let product ← checked (a * b.tdiv (Int.gcd a b))
  checked product.natAbs

-- Every intermediate product stays in range or the whole operation faults.
def overCommon (op : Int → Int → Int) (x y : Fraction) : Except Fault Fraction :=
  if x.denom = y.denom then do
    let numer ← checked (op x.numer y.numer)
    make numer x.denom
  else do
    let common ← lcm x.denom y.denom
    let left ← checked (x.numer * common.tdiv x.denom)
    let right ← checked (y.numer * common.tdiv y.denom)
    let numer ← checked (op left right)
    make numer common

def add (x y : Fraction) : Except Fault Fraction := overCommon (· + ·) x y

-- the remainder takes the sign of the dividend
def rem (x y : Fraction) : Except Fault Fraction := overCommon Int.tmod x y

def neg (x : Fraction) : Except Fault Fraction := do
  let numer ← checked (-x.numer)
  pure ⟨numer, x.denom⟩

end Fraction

end ToffoliBench

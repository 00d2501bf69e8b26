import ToffoliBench.Decimal.Shortest

namespace ToffoliBench.Decimal

def roundEven (r : Ratio) : Nat :=
  let down := r.num / r.den
  let rest := 2 * (r.num % r.den)
  if rest < r.den then down
  else if r.den < rest then down + 1
  else if down % 2 = 0 then down else down + 1

def Ratio.shift (r : Ratio) (e : Int) : Ratio :=
  if e < 0 then ⟨r.num, r.den * Nat.pow 10 e.natAbs⟩ else ⟨r.num * Nat.pow 10 e.natAbs, r.den⟩

-- The exact binary value is rounded once; a half goes to the even neighbour.
def fixedMagnitude (places : Nat) (x : Float) : List Char :=
  pointed (Nat.toDigits 10 (roundEven ((Binary.ofFloat x).ratio.shift places))) places

def fixed (places : Nat) (plus : Bool) (x : Float) : String :=
  if x.isNaN then "NaN"
  else
    let body := if x.isInf then ['i', 'n', 'f'] else fixedMagnitude places x
    String.ofList (if sign x then '-' :: body else if plus then '+' :: body else body)

def scientific (places : Nat) (x : Float) : String :=
  if x.isNaN then "NaN"
  else
    let body :=
      if x.isInf then ['i', 'n', 'f']
      else if x == 0 then pointed ['0'] 0 ++ '.' :: List.replicate places '0' ++ ['e', '0']
      else
        let r := (Binary.ofFloat x).ratio
        let e := magnitude r
        let n := roundEven (r.shift (places - e))
        -- rounding up may add a digit
        let carried := digitCount n > places + 1
        let n := if carried then n / 10 else n
        let e := if carried then e + 1 else e
        let power := Nat.toDigits 10 e.natAbs
        pointed (Nat.toDigits 10 n) places ++ 'e' :: (if e < 0 then '-' :: power else power)
    String.ofList (if sign x then '-' :: body else body)

end ToffoliBench.Decimal

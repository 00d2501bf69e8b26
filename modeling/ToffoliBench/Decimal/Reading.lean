import ToffoliBench.Text.Integer

namespace ToffoliBench.Decimal

structure Signed where
  negative : Bool
  magnitude : Float
deriving DecidableEq

def Signed.value (x : Signed) : Float := if x.negative then -x.magnitude else x.magnitude

-- The place of a number among all numbers: by sign first, then by magnitude, with `nan` beyond infinity and
-- minus zero before zero.
def Signed.rank (x : Signed) : Int :=
  if x.negative then -(x.magnitude.toBits.toNat : Int) - 1 else x.magnitude.toBits.toNat

def lower (cs : List Char) : List Char := cs.map Char.toLower

def infinity : Float := Float.ofBits 0x7ff0000000000000
def nan : Float := Float.ofBits 0x7ff8000000000000

-- a power beyond these bounds cannot be reached by any number
def ofDecimal (digits : Nat) (exponent : Int) : Float :=
  if digits = 0 then 0
  else
    let top := (Nat.toDigits 10 digits).length + exponent
    if 400 < top then infinity
    else if top < -400 then 0
    else if exponent < 0 then Float.ofScientific digits true exponent.natAbs
    else Float.ofScientific digits false exponent.natAbs

def exponent? : List Char → Option Int
  | [] => some 0
  | c :: rest => if c = 'e' ∨ c = 'E' then Text.int? rest else none

def unsigned? (cs : List Char) : Option Float :=
  let whole := cs.takeWhile Char.isDigit
  let rest := cs.dropWhile Char.isDigit
  let (places, rest) :=
    match rest with
    | '.' :: more => (more.takeWhile Char.isDigit, more.dropWhile Char.isDigit)
    | _ => ([], rest)
  if whole = [] ∧ places = [] then none
  else (exponent? rest).map fun e => ofDecimal (Text.digitsValue (whole ++ places)) (e - places.length)

def magnitude? (cs : List Char) : Option Float :=
  if lower cs = "inf".toList ∨ lower cs = "infinity".toList then some infinity
  else if lower cs = "nan".toList then some nan
  else unsigned? cs

def signed? (cs : List Char) : Option Signed :=
  match cs with
  | '-' :: rest => (magnitude? rest).map (Signed.mk true)
  | '+' :: rest => (magnitude? rest).map (Signed.mk false)
  | _ => (magnitude? cs).map (Signed.mk false)

def float? (cs : List Char) : Option Float := (signed? cs).map Signed.value

end ToffoliBench.Decimal

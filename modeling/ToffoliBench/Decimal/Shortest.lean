namespace ToffoliBench.Decimal

-- `m · 2^q`, with `halved` when the gap below the number is half the gap above it.
structure Binary where
  m : Nat
  q : Int
  halved : Bool

def sign (x : Float) : Bool := x.toBits >>> 63 == 1

def Binary.ofFloat (x : Float) : Binary :=
  let bits := x.toBits.toNat
  let e := bits / 4503599627370496 % 2048
  let f := bits % 4503599627370496
  if e = 0 then ⟨f, -1074, false⟩
  else ⟨f + 4503599627370496, (e : Int) - 1075, f == 0 && e > 1⟩

structure Ratio where
  num : Nat
  den : Nat

def scaled (n : Nat) (base : Nat) (e : Int) : Ratio :=
  if e < 0 then ⟨n, Nat.pow base e.natAbs⟩ else ⟨n * Nat.pow base e.natAbs, 1⟩

def Ratio.le (x y : Ratio) : Bool := x.num * y.den ≤ y.num * x.den
def Ratio.lt (x y : Ratio) : Bool := x.num * y.den < y.num * x.den

def Binary.ratio (b : Binary) : Ratio := scaled b.m 2 b.q

structure Digits where
  digits : Nat
  exponent : Int
deriving DecidableEq, Repr

def Digits.ratio (d : Digits) : Ratio := scaled d.digits 10 d.exponent

def Binary.holds (b : Binary) (d : Digits) : Bool :=
  let low := scaled (4 * b.m - if b.halved then 1 else 2) 2 (b.q - 2)
  let high := scaled (4 * b.m + 2) 2 (b.q - 2)
  if b.m % 2 = 0 then low.le d.ratio && d.ratio.le high else low.lt d.ratio && d.ratio.lt high

def digitCount (n : Nat) : Nat := (Nat.toDigits 10 n).length

def magnitude (r : Ratio) : Int :=
  let guess : Int := (digitCount r.num : Int) - digitCount r.den
  if (scaled 1 10 guess).le r then guess else guess - 1

def floorAt (r : Ratio) (step : Int) : Digits :=
  let unit := scaled 1 10 step
  ⟨r.num * unit.den / (r.den * unit.num), step⟩

-- The grid points next to the number, the lower one only when it is strictly nearer.
def Binary.onGrid? (b : Binary) (step : Int) : Option Digits :=
  let below := floorAt b.ratio step
  let above : Digits := ⟨below.digits + 1, step⟩
  match b.holds below, b.holds above with
  | false, false => none
  | true, false => some below
  | false, true => some above
  | true, true =>
    let half := scaled (10 * below.digits + 5) 10 (step - 1)
    if b.ratio.lt half then some below else some above

def Binary.firstHit (b : Binary) (top : Int) : Nat → Nat → Digits
  | 0, count => floorAt b.ratio (top - count)
  | fuel + 1, count =>
    match b.onGrid? (top - count) with
    | some d => d
    | none => b.firstHit top fuel (count + 1)

-- trailing zeros belong to the exponent
def Digits.strip (d : Digits) : Nat → Digits
  | 0 => d
  | fuel + 1 =>
    if d.digits % 10 = 0 && d.digits ≠ 0 then
      Digits.strip ⟨d.digits / 10, d.exponent + 1⟩ fuel
    else d

def shortest (x : Float) : Digits :=
  let b := Binary.ofFloat x
  (b.firstHit (magnitude b.ratio) 17 0).strip 400

def pointed (cs : List Char) (places : Nat) : List Char :=
  let padded := List.replicate (places + 1 - cs.length) '0' ++ cs
  let whole := padded.take (padded.length - places)
  let rest := padded.drop (padded.length - places)
  if places = 0 then whole else whole ++ '.' :: rest

def Digits.positional (d : Digits) : List Char :=
  let cs := Nat.toDigits 10 d.digits
  if 0 ≤ d.exponent then cs ++ List.replicate d.exponent.natAbs '0'
  else pointed cs d.exponent.natAbs

def chars (x : Float) : List Char :=
  if x.isNaN then ['N', 'a', 'N']
  else
    let magnitude :=
      if x.isInf then ['i', 'n', 'f']
      else if x == 0 then ['0']
      else (shortest x.abs).positional
    if sign x then '-' :: magnitude else magnitude

def text (x : Float) : String := String.ofList (chars x)

-- Digits that always show they are no whole number type: `.0` after whole numbers, an exponent where the
-- point would stand more than 16 digits from the front or more than five places before it.
def Digits.marked (d : Digits) : List Char :=
  let cs := Nat.toDigits 10 d.digits
  let point : Int := cs.length + d.exponent
  if 0 ≤ d.exponent && point ≤ 16 then d.positional ++ ['.', '0']
  else if -5 < point && point ≤ 16 then d.positional
  else
    let e := Nat.toDigits 10 (point - 1).natAbs
    pointed cs (cs.length - 1) ++ 'e' :: (if point - 1 < 0 then '-' :: e else e)

def marked (x : Float) : String :=
  if x.isNaN then ".nan"
  else if x.isInf then (if sign x then "-.inf" else ".inf")
  else
    let body : List Char := if x == 0 then ['0', '.', '0'] else (shortest x.abs).marked
    String.ofList (if sign x then '-' :: body else body)

end ToffoliBench.Decimal

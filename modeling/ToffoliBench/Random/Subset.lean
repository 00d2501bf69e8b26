import ToffoliBench.Random.Draw

namespace ToffoliBench.Draw

inductive Sampling where
  | inPlace
  | lastPositions
  | untilNew
deriving DecidableEq, Repr

-- single precision on purpose: the bounds are compared in it
def single (n : Nat) : Float32 := Float32.ofNat n

def Sampling.pick (length amount : Nat) : Sampling :=
  let few := length < 500000
  if amount < 163 then
    let slope : Float32 := if few then 1.6 else 8.0 / 45.0
    let base : Float32 := if few then 10.0 else 70.0 / 9.0
    if 11 < amount && single length < (base + slope * single amount) * single amount then .inPlace
    else .lastPositions
  else
    let factor : Float32 := if few then 270.0 else 330.0 / 9.0
    if single length < factor * single amount then .inPlace else .untilNew

def swapForward (length : Nat) (xs : Array Nat) (i : Nat) : Nat → Draw (Array Nat)
  | 0 => pure xs
  | count + 1 => do
    let j ← between .w32 i (length - 1)
    swapForward length (xs.swapIfInBounds i j) (i + 1) count

def inPlace (length amount : Nat) : Draw (List Nat) := do
  let xs ← swapForward length (Array.range length) 0 amount
  pure (xs.toList.take amount)

def insertBefore (t j : Nat) : List Nat → List Nat
  | [] => []
  | x :: rest => if x = t then j :: x :: rest else x :: insertBefore t j rest

-- A position that was drawn before gives its place to `j`.
def lastPosition (keepsOrder : Bool) (chosen : List Nat) (j t : Nat) : List Nat :=
  if chosen.contains t then
    if keepsOrder then insertBefore t j chosen else chosen ++ [j]
  else chosen ++ [t]

def lastPositionsFrom (keepsOrder : Bool) (chosen : List Nat) (j : Nat) : Nat → Draw (List Nat)
  | 0 => pure chosen
  | count + 1 => do
    let t ← between .w32 0 j
    lastPositionsFrom keepsOrder (lastPosition keepsOrder chosen j t) (j + 1) count

def lastPositions (length amount : Nat) : Draw (List Nat) := do
  let keepsOrder := amount < 50
  let chosen ← lastPositionsFrom keepsOrder [] (length - amount) amount
  if keepsOrder then pure chosen
  else do
    let shuffled ← shuffleRange chosen.toArray amount
    pure shuffled.toList
where
  shuffleRange (xs : Array Nat) : Nat → Draw (Array Nat)
    | 0 => pure xs
    | 1 => pure xs
    | n + 2 => do
      let j ← between .w32 0 (n + 1)
      shuffleRange (xs.swapIfInBounds (n + 1) j) (n + 1)

-- A position not yet chosen. Once the patience is used up it is the first such.
def newPosition (length : Nat) (chosen : List Nat) : Nat → Draw Nat
  | 0 => pure (((List.range length).find? (!chosen.contains ·)).getD 0)
  | fuel + 1 => do
    let t ← scaled .w32 length (multipleZone .w32 length) patience
    if chosen.contains t then newPosition length chosen fuel else pure t

def untilNewFrom (length : Nat) (chosen : List Nat) : Nat → Draw (List Nat)
  | 0 => pure chosen
  | count + 1 => do
    let t ← newPosition length chosen patience
    untilNewFrom length (chosen ++ [t]) count

def positions (length amount : Nat) : Draw (List Nat) :=
  match Sampling.pick length amount with
  | .inPlace => inPlace length amount
  | .lastPositions => lastPositions length amount
  | .untilNew => untilNewFrom length [] amount

def subset (xs : List α) (amount : Nat) : Draw (List α) := do
  let chosen ← positions xs.length (min amount xs.length)
  let pool := xs.toArray
  pure (chosen.filterMap fun i => pool[i]?)

end ToffoliBench.Draw

namespace ToffoliBench

inductive Fault where
  | overflow
  | zeroDenominator
  -- a boundary list names a vertex that its diagram does not hold
  | unmappedVertex
deriving DecidableEq, Repr, Inhabited

namespace Range

def signed32 (x : Int) : Bool := decide (-2147483648 ≤ x) && decide (x ≤ 2147483647)

def signed64 (x : Int) : Bool :=
  decide (-9223372036854775808 ≤ x) && decide (x ≤ 9223372036854775807)

def maxWord : Nat := 18446744073709551615

def word (n : Nat) : Bool := decide (n ≤ maxWord)

-- a list may not take more bytes than half the addresses
def addressLimit : Nat := 9223372036854775807

end Range

def within (range : α → Bool) (x : α) : Except Fault α :=
  if range x then .ok x else .error .overflow

end ToffoliBench

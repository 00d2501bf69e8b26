import ToffoliBench.Random.Source

namespace ToffoliBench

abbrev Draw := StateM Source

namespace Draw

inductive Width where
  | w32
  | w64
deriving DecidableEq, Repr

def Width.bits : Width → Nat
  | .w32 => 32
  | .w64 => 64

def Width.size (width : Width) : Nat := 1 <<< width.bits

def patience : Nat := 4096

def word (width : Width) : Draw Nat := fun s =>
  match width with
  | .w32 => let (w, s) := s.next32; (w.toNat, s)
  | .w64 => let (w, s) := s.next64; (w.toNat, s)

-- After `patience` refused words in a row the least value is answered, so that every draw ends.
def scaled (width : Width) (length zone : Nat) : Nat → Draw Nat
  | 0 => pure 0
  | fuel + 1 => do
    let w ← word width
    if w * length % width.size ≤ zone then pure (w * length / width.size)
    else scaled width length zone fuel

-- The largest multiple of `length` by a power of two that fits the word, less one.
def shiftZone (width : Width) (length : Nat) : Nat :=
  length <<< (width.bits - (Nat.log2 length + 1)) - 1

-- The largest multiple of `length` that fits the word, less one.
def multipleZone (width : Width) (length : Nat) : Nat :=
  width.size - 1 - (width.size - length) % length

def between (width : Width) (lo hi : Nat) : Draw Nat := do
  let length := hi - lo + 1
  let k ← if length = width.size then word width else scaled width length (shiftZone width length) patience
  pure (lo + k)

def index (n : Nat) : Draw Nat := between .w32 0 (n - 1)

def choose? (xs : List α) : Draw (Option α) :=
  if xs.isEmpty then pure none
  else do
    let i ← index xs.length
    pure xs[i]?

def shuffleFrom (xs : Array α) : Nat → Draw (Array α)
  | 0 => pure xs
  | 1 => pure xs
  | n + 2 => do
    let j ← index (n + 2)
    shuffleFrom (xs.swapIfInBounds (n + 1) j) (n + 1)

def shuffle (xs : List α) : Draw (List α) := do
  let shuffled ← shuffleFrom xs.toArray xs.length
  pure shuffled.toList

end Draw

end ToffoliBench

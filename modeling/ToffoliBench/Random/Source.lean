namespace ToffoliBench

namespace ChaCha

abbrev State := Array UInt32

def word (s : State) (i : Nat) : UInt32 := s.getD i 0

def rotl (x : UInt32) (n : UInt32) : UInt32 := (x <<< n) ||| (x >>> (32 - n))

def quarter (s : State) (a b c d : Nat) : State :=
  let xa := word s a + word s b
  let xd := rotl (word s d ^^^ xa) 16
  let xc := word s c + xd
  let xb := rotl (word s b ^^^ xc) 12
  let xa := xa + xb
  let xd := rotl (xd ^^^ xa) 8
  let xc := xc + xd
  let xb := rotl (xb ^^^ xc) 7
  (((s.setIfInBounds a xa).setIfInBounds b xb).setIfInBounds c xc).setIfInBounds d xd

def doubleRound (s : State) : State :=
  let s := quarter s 0 4 8 12
  let s := quarter s 1 5 9 13
  let s := quarter s 2 6 10 14
  let s := quarter s 3 7 11 15
  let s := quarter s 0 5 10 15
  let s := quarter s 1 6 11 12
  let s := quarter s 2 7 8 13
  quarter s 3 4 9 14

def start (key : List UInt32) (counter : UInt64) : State :=
  let constants : State := #[0x61707865, 0x3320646e, 0x79622d32, 0x6b206574]
  constants ++ key.toArray ++ #[counter.toUInt32, (counter >>> 32).toUInt32, 0, 0]

def block (key : List UInt32) (counter : UInt64) : List UInt32 :=
  let s := start key counter
  let mixed := (List.range 6).foldl (fun s _ => doubleRound s) s
  (List.range 16).map fun i => word mixed i + word s i

end ChaCha

structure Source where
  key : List UInt32
  -- the block to be made next
  counter : UInt64
  -- words made and not yet handed out
  pending : List UInt32
deriving DecidableEq, Repr, Inhabited

namespace Source

def keyStep (s : UInt64) : UInt64 := s * 6364136223846793005 + 11634580027462260723

def keyWord (s : UInt64) : UInt32 :=
  let x := (((s >>> 18) ^^^ s) >>> 27).toUInt32
  let r := (s >>> 59).toUInt32
  (x >>> r) ||| (x <<< ((32 - r) % 32))

def keyWords : Nat → UInt64 → List UInt32
  | 0, _ => []
  | n + 1, s => keyWord (keyStep s) :: keyWords n (keyStep s)

def ofSeed (seed : UInt64) : Source := ⟨keyWords 8 seed, 0, []⟩

def next32 (s : Source) : UInt32 × Source :=
  match s.pending with
  | w :: rest => (w, { s with pending := rest })
  | [] =>
    match ChaCha.block s.key s.counter with
    | w :: rest => (w, { s with counter := s.counter + 1, pending := rest })
    | [] => (0, s)

def next64 (s : Source) : UInt64 × Source :=
  let (low, s) := s.next32
  let (high, s) := s.next32
  (low.toUInt64 ||| (high.toUInt64 <<< 32), s)

end Source

end ToffoliBench

namespace ToffoliBench.Text

def replacement : Char := Char.ofNat 0xFFFD

def isTail (b : UInt8) : Bool := 0x80 ≤ b && b ≤ 0xBF

-- May `b` be the second byte after the first byte `a`? Overlong forms, surrogates and numbers beyond the
-- last character are excluded here.
def isSecond (a b : UInt8) : Bool :=
  if a = 0xE0 then 0xA0 ≤ b && b ≤ 0xBF
  else if a = 0xED then 0x80 ≤ b && b ≤ 0x9F
  else if a = 0xF0 then 0x90 ≤ b && b ≤ 0xBF
  else if a = 0xF4 then 0x80 ≤ b && b ≤ 0x8F
  else isTail b

-- How many bytes a character has that starts with this one, 0 for none.
def width (a : UInt8) : Nat :=
  if a < 0x80 then 1
  else if a < 0xC2 then 0
  else if a < 0xE0 then 2
  else if a < 0xF0 then 3
  else if a < 0xF5 then 4
  else 0

def tailBits (b : UInt8) : Nat := b.toNat % 64

def firstChar (a : UInt8) (rest : List UInt8) : Char × Nat :=
  let seconds := (rest.take 1).takeWhile (isSecond a)
  let tails := if seconds = [] then [] else seconds ++ ((rest.drop 1).take (width a - 2)).takeWhile isTail
  if width a = 0 then (replacement, 1)
  else if width a = 1 then (Char.ofNat a.toNat, 1)
  else if tails.length + 1 < width a then (replacement, tails.length + 1)
  else
    let lead := a.toNat % (1 <<< (7 - width a))
    (Char.ofNat (tails.foldl (fun n b => 64 * n + tailBits b) lead), width a)

def charsOfBytes (bs : List UInt8) : List Char :=
  match bs with
  | [] => []
  | a :: rest => (firstChar a rest).1 :: charsOfBytes (rest.drop ((firstChar a rest).2 - 1))
termination_by bs.length
decreasing_by simp only [List.length_drop, List.length_cons]; omega

def ofBytes (bs : List UInt8) : String := String.ofList (charsOfBytes bs)

def toBytes (s : String) : List UInt8 := s.toUTF8.toList

end ToffoliBench.Text

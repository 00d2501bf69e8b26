namespace ToffoliBench.Text

def digitValue (c : Char) : Nat := c.toNat - 48

def digitsValue (cs : List Char) : Nat := cs.foldl (fun n c => 10 * n + digitValue c) 0

def digits? (cs : List Char) : Option Nat :=
  if cs ≠ [] ∧ cs.all Char.isDigit then some (digitsValue cs) else none

def nat? (cs : List Char) : Option Nat :=
  match cs with
  | '+' :: rest => digits? rest
  | _ => digits? cs

def int? (cs : List Char) : Option Int :=
  match cs with
  | '-' :: rest => (digits? rest).map fun n => -(n : Int)
  | _ => (nat? cs).map Int.ofNat

def natUpTo? (limit : Nat) (cs : List Char) : Option Nat :=
  (nat? cs).filter (· ≤ limit)

def intIn? (range : Int → Bool) (cs : List Char) : Option Int :=
  (int? cs).filter range

def ofNat (n : Nat) : List Char := Nat.toDigits 10 n

def ofInt : Int → List Char
  | .ofNat n => ofNat n
  | .negSucc n => '-' :: ofNat (n + 1)

def joined (sep : String) : List String → String
  | [] => ""
  | [s] => s
  | s :: t :: rest => s ++ sep ++ joined sep (t :: rest)

end ToffoliBench.Text

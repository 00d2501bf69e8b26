import ToffoliBench.Shell.State

namespace ToffoliBench.Shell.Arithmetic

def operators : List (Bytes × Nat × (Int → Int → Int)) :=
  let truth (b : Bool) : Int := if b then 1 else 0
  [("||".toList, 1, fun a b => truth (a != 0 || b != 0)),
    ("&&".toList, 2, fun a b => truth (a != 0 && b != 0)),
    ("==".toList, 3, fun a b => truth (a == b)),
    ("!=".toList, 3, fun a b => truth (a != b)),
    ("<=".toList, 4, fun a b => truth (a ≤ b)),
    (">=".toList, 4, fun a b => truth (b ≤ a)),
    (['<'], 4, fun a b => truth (a < b)),
    (['>'], 4, fun a b => truth (b < a)),
    (['+'], 5, fun a b => a + b),
    (['-'], 5, fun a b => a - b),
    (['*'], 6, fun a b => a * b),
    (['/'], 6, Int.tdiv),
    (['%'], 6, Int.tmod)]

def trimmed (cs : Bytes) : Bytes := cs.dropWhile fun c => c == ' ' || c == '\t' || c == '\n'

def operator? (lowest : Nat) (cs : Bytes) : Option (Nat × (Int → Int → Int) × Bytes) :=
  (operators.find? fun entry => entry.1.isPrefixOf cs).bind fun (text, level, f) =>
    if lowest ≤ level then some (level, f, cs.drop text.length) else none

mutual

def operand (s : State) : Nat → Bytes → Option (Int × Bytes)
  | 0, _ => none
  | fuel + 1, cs =>
    match trimmed cs with
    | '(' :: rest => do
      let (n, rest) ← expression s 0 fuel rest
      match trimmed rest with
      | ')' :: rest => pure (n, rest)
      | _ => none
    | '-' :: rest => do
      let (n, rest) ← operand s fuel rest
      pure (-n, rest)
    | '!' :: rest => do
      let (n, rest) ← operand s fuel rest
      pure (if n = 0 then 1 else 0, rest)
    | c :: rest =>
      if c.isDigit then
        some ((Text.digitsValue ((c :: rest).takeWhile Char.isDigit) : Int), (c :: rest).dropWhile Char.isDigit)
      else if c.isAlpha ∨ c = '_' then
        let isName := fun (d : Char) => d.isAlphanum || d == '_'
        let value := (s.bindings.lookup ((c :: rest).takeWhile isName)).bind Text.int?
        some (value.getD 0, (c :: rest).dropWhile isName)
      else none
    | [] => none
termination_by structural fuel => fuel

def expression (s : State) (lowest : Nat) : Nat → Bytes → Option (Int × Bytes)
  | 0, _ => none
  | fuel + 1, cs => do
    let (n, rest) ← operand s fuel cs
    expressionRest s lowest n fuel rest
termination_by structural fuel => fuel

def expressionRest (s : State) (lowest : Nat) (n : Int) : Nat → Bytes → Option (Int × Bytes)
  | 0, _ => none
  | fuel + 1, cs =>
    match operator? lowest (trimmed cs) with
    | none => some (n, cs)
    | some (level, f, rest) => do
      let (m, rest) ← expression s (level + 1) fuel rest
      expressionRest s lowest (f n m) fuel rest
termination_by structural fuel => fuel

end

def value? (s : State) (cs : Bytes) : Option Int := do
  if trimmed cs = [] then pure 0
  else
    let (n, rest) ← expression s 0 (3 * cs.length + 3) cs
    if trimmed rest = [] then pure n else none

end ToffoliBench.Shell.Arithmetic

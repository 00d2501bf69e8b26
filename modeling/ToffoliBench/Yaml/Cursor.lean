import ToffoliBench.Yaml.Node

namespace ToffoliBench.Yaml

structure Cursor where
  rest : List Char
  line : Nat := 0
  column : Nat := 0
  -- nodes that an alias may name, the last one first
  anchors : List (String × Node) := []
  -- what the handle of a tag stands for
  handles : List (String × String) := [("!", "!"), ("!!", "tag:yaml.org,2002:")]

abbrev Reader := StateT Cursor Option

def fail : Reader α := fun _ => none

def isOrderMark (c : Char) : Bool := c.toNat == 0xFEFF

def isAllowed (c : Char) : Bool :=
  c.toNat == 0x09 || c.toNat == 0x0A || (0x20 ≤ c.toNat && c.toNat ≤ 0x7E) ||
    (0xA0 ≤ c.toNat && c.toNat ≤ 0xFFFD) || 0x10000 ≤ c.toNat

def isBreak (c : Char) : Bool :=
  c == '\n' || c == '\r' || c.toNat == 0x85 || c.toNat == 0x2028 || c.toNat == 0x2029

def isTabOrSpace (c : Char) : Bool := c == ' ' || c == '\t'

def unifyBreaks : List Char → List Char
  | [] => []
  | '\r' :: '\n' :: rest => '\n' :: unifyBreaks rest
  | c :: rest => (if c = '\r' ∨ c.toNat = 0x85 then '\n' else c) :: unifyBreaks rest

def Cursor.step (c : Cursor) : Cursor :=
  match c.rest with
  | [] => c
  | d :: rest =>
    if isBreak d then { c with rest, line := c.line + 1, column := 0 }
    else { c with rest, column := c.column + 1 }

def Cursor.steps (c : Cursor) : Nat → Cursor
  | 0 => c
  | n + 1 => c.step.steps n

def move (n : Nat) : Reader Unit := modify fun c => c.steps n

def ahead : Reader (List Char) := do return (← get).rest

def skipWhile (p : Char → Bool) : Reader Nat := do
  let n := ((← ahead).takeWhile p).length
  move n
  pure n

def breakNext : List Char → Bool
  | [] => true
  | c :: _ => isBreak c

def blankNext : List Char → Bool
  | [] => true
  | c :: _ => isTabOrSpace c || isBreak c

def lineEnds (cs : List Char) : Bool := breakNext cs || cs.head? == some '#'

def Cursor.atBound (c : Cursor) : Bool :=
  c.column == 0 &&
    match c.rest with
    | '-' :: '-' :: '-' :: rest => blankNext rest
    | '.' :: '.' :: '.' :: rest => blankNext rest
    | _ => false

def Cursor.atEnd (c : Cursor) : Bool := c.rest.isEmpty || c.atBound

-- Goes on to the next character that is neither blank nor in a comment. A tab is a blank inside a line and,
-- after a line break, only in a flow collection.
def toContent (inFlow tabs : Bool) : Nat → Reader Unit
  | 0 => pure ()
  | fuel + 1 => do
    let here ← get
    match here.rest with
    | [] => pure ()
    | c :: _ =>
      if c = ' ' ∨ (c = '\t' ∧ tabs) ∨ (isOrderMark c ∧ here.column = 0) then do
        move 1
        toContent inFlow tabs fuel
      else if c = '#' then do
        let _ ← skipWhile fun d => !isBreak d
        toContent inFlow tabs fuel
      else if isBreak c then do
        move 1
        toContent inFlow inFlow fuel
      else pure ()

def nextContent (inFlow tabs : Bool) : Reader Unit := do
  toContent inFlow tabs ((← ahead).length + 1)

def flowContent : Reader Unit := do
  nextContent true true
  if (← get).atBound then fail

end ToffoliBench.Yaml

import ToffoliBench.Decimal.Reading
import ToffoliBench.Yaml.Cursor

namespace ToffoliBench.Yaml

-- The line breaks between two pieces of text: one alone is a blank, more stand for themselves less the
-- first.
def folded : List Char → List Char
  | [] => []
  | c :: more => if c ≠ '\n' then c :: more else if more = [] then [' '] else more

def isFlowMark (c : Char) : Bool := c == ',' || c == '[' || c == ']' || c == '\x7b' || c == '\x7d'

def startsPlain (inFlow : Bool) : List Char → Bool
  | [] => false
  | c :: rest =>
    if c = '-' then !blankNext rest
    else if c = '?' ∨ c = ':' then !inFlow && !blankNext rest
    else !(blankNext (c :: rest) || isFlowMark c || "#&*!|>'\"%@`".toList.contains c)

-- The piece of a plain scalar up to the next blank, or nothing if it is cut off by an indicator that may
-- not stand there.
def plainWord (inFlow : Bool) : List Char → Option (List Char)
  | [] => some []
  | c :: rest =>
    if blankNext (c :: rest) then some []
    else if c = ':' ∧ blankNext rest then some []
    else if inFlow ∧ isFlowMark c then some []
    else if inFlow ∧ c = ':' ∧ rest.head?.any (fun d => isFlowMark d || d == '?') then none
    else (plainWord inFlow rest).map (c :: ·)

def plainLine (inFlow : Bool) (text gap : List Char) : Nat → Reader (List Char × List Char)
  | 0 => pure (text, gap)
  | fuel + 1 => do
    let cs ← ahead
    if cs.head? = some '#' ∧ (gap ≠ [] ∨ text = []) then pure (text, gap)
    else
      match plainWord inFlow cs with
      | none => fail
      | some [] => pure (text, gap)
      | some word => do
        move word.length
        let blanks := (← ahead).takeWhile isTabOrSpace
        move blanks.length
        plainLine inFlow (text ++ gap ++ word) blanks fuel

-- Is a tab among the blanks that indent a line, at or left of `indent`? `column` is known once a line has
-- begun.
def tabIndents (indent : Int) (column : Option Nat) : List Char → Bool
  | [] => false
  | c :: rest =>
    if isBreak c then tabIndents indent (some 0) rest
    else
      (c == '\t' && column.any fun n => decide ((n : Int) ≤ indent)) ||
        tabIndents indent (column.map (· + 1)) rest

def plainLines (inFlow : Bool) (indent : Int) (text : List Char) : Nat → Reader (List Char)
  | 0 => pure text
  | fuel + 1 => do
    let start ← get
    if !start.rest.head?.any isBreak then pure text
    else
      -- blanks and line breaks up to the next word
      let gap := start.rest.takeWhile fun c => isTabOrSpace c || isBreak c
      move gap.length
      let here ← get
      if tabIndents indent none gap then fail
      else if here.atEnd ∨ here.rest.head? = some '#' ∨ (!inFlow ∧ (here.column : Int) ≤ indent) then
        pure text
      else
        let (line, _) ← plainLine inFlow [] [] (here.rest.length + 1)
        if line = [] then pure text
        else plainLines inFlow indent (text ++ folded (gap.filter isBreak) ++ line) fuel

def plain (inFlow : Bool) (indent : Int) : Reader Node := do
  let cs ← ahead
  if startsPlain inFlow cs then do
    let (line, _) ← plainLine inFlow [] [] (cs.length + 1)
    let text ← plainLines inFlow indent line cs.length
    pure (.scalar .plain (String.ofList text))
  else fail

def breaksAhead : Reader (List Char) := do
  let gap := (← ahead).takeWhile fun c => isTabOrSpace c || isBreak c
  move gap.length
  if (← get).atBound then fail else pure (gap.filter isBreak)

def foldQuoted (text : List Char) : Reader (List Char) := do
  let breaks ← breaksAhead
  pure (((text.reverse.dropWhile isTabOrSpace).reverse) ++ folded breaks)

def singleQuoted (text : List Char) : Nat → Reader (List Char)
  | 0 => fail
  | fuel + 1 => do
    match ← ahead with
    | [] => fail
    | '\'' :: '\'' :: _ => do
      move 2
      singleQuoted (text ++ ['\'']) fuel
    | '\'' :: _ => do
      move 1
      pure text
    | c :: _ =>
      if isBreak c then do
        let text ← foldQuoted text
        singleQuoted text fuel
      else do
        move 1
        singleQuoted (text ++ [c]) fuel

def hexDigit? (c : Char) : Option Nat :=
  if c.isDigit then some (c.toNat - 48)
  else if 'a' ≤ c ∧ c ≤ 'f' then some (c.toNat - 87)
  else if 'A' ≤ c ∧ c ≤ 'F' then some (c.toNat - 55)
  else none

def hexChar? (cs : List Char) (digits : Nat) : Option Char := do
  let ds ← (cs.take digits).mapM hexDigit?
  let n := ds.foldl (fun n d => 16 * n + d) 0
  if ds.length = digits ∧ n.isValidChar then some (Char.ofNat n) else none

def escapes : List (Char × Char) :=
  [('0', Char.ofNat 0), ('a', Char.ofNat 7), ('b', Char.ofNat 8), ('t', '\t'), ('\t', '\t'),
    ('n', '\n'), ('v', Char.ofNat 11), ('f', Char.ofNat 12), ('r', '\r'), ('e', Char.ofNat 27),
    (' ', ' '), ('"', '"'), ('/', '/'), ('\\', '\\'), ('N', Char.ofNat 0x85), ('_', Char.ofNat 0xA0),
    ('L', Char.ofNat 0x2028), ('P', Char.ofNat 0x2029)]

def hexEscapes : List (Char × Nat) := [('x', 2), ('u', 4), ('U', 8)]

def escaped? : List Char → Option (Char × Nat)
  | [] => none
  | c :: rest =>
    match escapes.lookup c with
    | some d => some (d, 1)
    | none => do
      let digits ← hexEscapes.lookup c
      let d ← hexChar? rest digits
      pure (d, digits + 1)

-- `kept` characters at the front of the text were escaped or precede such, and are not folded away.
def doubleQuoted (kept text : List Char) : Nat → Reader (List Char)
  | 0 => fail
  | fuel + 1 => do
    match ← ahead with
    | [] => fail
    | '"' :: _ => do
      move 1
      pure (kept ++ text)
    | '\\' :: rest =>
      if rest.head?.any isBreak then do
        move 2
        let breaks ← breaksAhead
        doubleQuoted (kept ++ text ++ breaks) [] fuel
      else
        match escaped? rest with
        | none => fail
        | some (c, n) => do
          move (n + 1)
          doubleQuoted (kept ++ text ++ [c]) [] fuel
    | c :: _ =>
      if isBreak c then do
        let text ← foldQuoted text
        doubleQuoted (kept ++ text) [] fuel
      else do
        move 1
        doubleQuoted kept (text ++ [c]) fuel

inductive Chomp where
  | clip
  | strip
  | keep
deriving DecidableEq, Repr

structure BlockHeader where
  chomp : Chomp := .clip
  indent : Option Nat := none

def blockHeader (h : BlockHeader) : Nat → Reader BlockHeader
  | 0 => pure h
  | fuel + 1 => do
    match ← ahead with
    | '-' :: _ =>
      if h.chomp = .clip then do
        move 1
        blockHeader { h with chomp := .strip } fuel
      else fail
    | '+' :: _ =>
      if h.chomp = .clip then do
        move 1
        blockHeader { h with chomp := .keep } fuel
      else fail
    | c :: _ =>
      if c.isDigit then
        if c = '0' ∨ h.indent.isSome then fail
        else do
          move 1
          blockHeader { h with indent := some (c.toNat - 48) } fuel
      else pure h
    | [] => pure h

-- Empty lines before the text, and the deepest indentation seen on them. A tab may not indent.
def leadingBreaks (limit : Option Nat) (breaks : List Char) (deepest : Nat) :
    Nat → Reader (List Char × Nat)
  | 0 => pure (breaks, deepest)
  | fuel + 1 => do
    let blanks := ((← ahead).takeWhile (· == ' ')).length
    move (limit.elim blanks (min · blanks))
    let here ← get
    let deepest := max deepest here.column
    match here.rest with
    | [] => pure (breaks, deepest)
    | c :: _ =>
      if c = '\t' ∧ limit.all (here.column < ·) then fail
      else if isBreak c then do
        move 1
        leadingBreaks limit (breaks ++ [c]) deepest fuel
      else pure (breaks, deepest)

-- What stands between the last line written and the next: the break that ended the line, and those of the
-- empty lines after it.
structure Pending where
  first : List Char := []
  more : List Char := []

def Pending.all (p : Pending) : List Char := p.first ++ p.more

def Pending.kept (p : Pending) : Chomp → List Char
  | .strip => []
  | .clip => p.first
  | .keep => p.all

def blockLines (fold : Bool) (indent : Nat) (text : List Char) (pending : Pending) (afterBlank : Bool) :
    Nat → Reader (List Char × Pending)
  | 0 => pure (text, pending)
  | fuel + 1 => do
    let here ← get
    if here.column ≠ indent ∨ here.atEnd then pure (text, pending)
    else
      let blank := here.rest.head?.any isTabOrSpace
      let line := here.rest.takeWhile fun c => !isBreak c
      move line.length
      let joint :=
        if fold ∧ pending.first ≠ [] ∧ !blank ∧ !afterBlank then folded pending.all else pending.all
      match ← ahead with
      | [] => pure (text ++ joint ++ line, {})
      | c :: _ => do
        move 1
        let (more, _) ← leadingBreaks (some indent) [] 0 ((← ahead).length + 1)
        blockLines fold indent (text ++ joint ++ line) { first := [c], more } blank fuel

def blockScalar (indent : Int) : Reader Node := do
  let fold := (← ahead).head? = some '>'
  move 1
  let header ← blockHeader {} 3
  let _ ← skipWhile isTabOrSpace
  let cs ← ahead
  if lineEnds cs then do
    let _ ← skipWhile fun c => !isBreak c
    move 1
    let outer := (max indent 0).toNat
    let wanted := header.indent.map fun n => if indent < 0 then n else outer + n
    let (breaks, deepest) ← leadingBreaks wanted [] 0 (cs.length + 1)
    let column := wanted.getD (max deepest (max (indent + 1) 1).toNat)
    let (text, pending) ← blockLines fold column [] { more := breaks } false (cs.length + 1)
    pure (.scalar (if fold then .folded else .literal) (String.ofList (text ++ pending.kept header.chomp)))
  else fail

def isNull (s : String) : Bool := s == "null" || s == "Null" || s == "NULL" || s == "~"

def bool? (s : String) : Option Bool :=
  if s == "true" || s == "True" || s == "TRUE" then some true
  else if s == "false" || s == "False" || s == "FALSE" then some false
  else none

-- Digits with a zero in front are a text, not a number.
def isPadded (cs : List Char) : Bool :=
  let digits := match cs with
    | '-' :: rest => rest
    | '+' :: rest => rest
    | _ => cs
  match digits with
  | '0' :: c :: rest => (c :: rest).all Char.isDigit
  | _ => false

def inBase? (base : Nat) (cs : List Char) : Option Nat :=
  if cs = [] then none
  else cs.foldl (fun n c => do
    let n ← n
    let d ← hexDigit? c
    if d < base then some (base * n + d) else none) (some 0)

def anyNat? (s : String) : Option Nat :=
  let cs := match s.toList with
    | '+' :: rest => rest
    | cs => cs
  match cs with
  | '0' :: 'x' :: rest => inBase? 16 rest
  | '0' :: 'o' :: rest => inBase? 8 rest
  | '0' :: 'b' :: rest => inBase? 2 rest
  | _ => if isPadded s.toList then none else Text.digits? cs

def nat? (s : String) : Option Nat := (anyNat? s).filter (· < UInt64.size)

def float? (s : String) : Option Float :=
  let unsigned := match s.toList with
    | '+' :: '+' :: _ => []
    | '+' :: '-' :: _ => []
    | '+' :: rest => rest
    | cs => cs
  let bare := String.ofList unsigned
  if bare == ".inf" || bare == ".Inf" || bare == ".INF" then some Decimal.infinity
  else if s == "-.inf" || s == "-.Inf" || s == "-.INF" then some (-Decimal.infinity)
  else if s == ".nan" || s == ".NaN" || s == ".NAN" then some Decimal.nan
  else (Decimal.float? unsigned).filter (·.isFinite)

end ToffoliBench.Yaml

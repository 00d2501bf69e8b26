import ToffoliBench.Yaml.Scalar

namespace ToffoliBench.Yaml

def isAmbiguous (s : String) : Bool :=
  s == "" || isNull s || (bool? s).isSome || (anyNat? s).any (· < 1 <<< 128) || (negative? s).isSome ||
    isPadded s.toList || (float? s).isSome || oldBooleans.contains s
where
  negative? (s : String) : Option Nat :=
    match s.toList with
    | '-' :: rest =>
      if rest.head?.any (fun c => c == '+' || c == '-') then none
      else (anyNat? (String.ofList rest)).filter (· ≤ 1 <<< 127)
    | _ => none
  oldBooleans : List String :=
    ["y", "Y", "yes", "Yes", "YES", "n", "N", "no", "No", "NO", "true", "True", "TRUE", "false",
      "False", "FALSE", "on", "On", "ON", "off", "Off", "OFF"]

def isPrintable (c : Char) : Bool := isAllowed c && c != '\t' && !isOrderMark c

def isBlankOrEnd : Option Char → Bool
  | none => true
  | some c => c == ' ' || c == '\t' || isBreak c

def isIndicator (before after : Option Char) (c : Char) : Bool :=
  match before with
  | none =>
    if c = '?' ∨ c = ':' ∨ c = '-' then isBlankOrEnd after
    else "#,[]&*!|>'\"%@`".toList.contains c || c == '\x7b' || c == '\x7d'
  | some b =>
    (c == ':' && isBlankOrEnd after) || (c == '#' && isBlankOrEnd (some b))

def hasIndicator (before : Option Char) : List Char → Bool
  | [] => false
  | c :: rest => isIndicator before rest.head? c || hasIndicator (some c) rest

def startsBoundary : List Char → Bool
  | '-' :: '-' :: '-' :: _ => true
  | '.' :: '.' :: '.' :: _ => true
  | _ => false

def hasPair (p q : Char → Bool) : List Char → Bool
  | a :: b :: rest => (p a && q b) || hasPair p q (b :: rest)
  | _ => false

def isSpace (c : Char) : Bool := c == ' '

def needsEscapes (cs : List Char) : Bool :=
  cs.any (fun c => !isPrintable c) || hasPair isSpace isBreak cs

def edgeBlank (cs : List Char) : Bool :=
  let blank := fun c => isSpace c || isBreak c
  cs.head?.any blank || cs.getLast?.any blank

def plainAllowed (cs : List Char) : Bool :=
  !(edgeBlank cs || needsEscapes cs || cs.any isBreak || startsBoundary cs || hasIndicator none cs)

def singleAllowed (cs : List Char) : Bool := !(needsEscapes cs || hasPair isBreak isSpace cs)

def literalAllowed (cs : List Char) : Bool := !(needsEscapes cs || cs.getLast?.any isSpace)

-- What stands in single quotes, with no line feed in it. A line after another break is two blanks deep, and
-- so is a closing quote.
def singleChars (atStart : Bool) : List Char → List Char
  | [] => if atStart then [' ', ' '] else []
  | c :: rest =>
    if isBreak c then c :: singleChars true rest
    else
      let deep := if atStart then [' ', ' '] else []
      deep ++ (if c = '\'' then ['\'', '\''] else [c]) ++ singleChars false rest

def inSingle (cs : List Char) : List Char := '\'' :: singleChars false cs ++ ['\'']

def upperHex (n : Nat) : Char := if n < 10 then Char.ofNat (48 + n) else Char.ofNat (55 + n)

def hexDigits (n : Nat) : Nat → List Char
  | 0 => []
  | places + 1 => hexDigits (n / 16) places ++ [upperHex (n % 16)]

def letters : List (Char × Char) :=
  [('"', '"'), ('\\', '\\'), (Char.ofNat 0, '0'), (Char.ofNat 7, 'a'), (Char.ofNat 8, 'b'), ('\t', 't'),
    ('\n', 'n'), (Char.ofNat 11, 'v'), (Char.ofNat 12, 'f'), ('\r', 'r'), (Char.ofNat 27, 'e'),
    (Char.ofNat 0x85, 'N'), (Char.ofNat 0xA0, '_'), (Char.ofNat 0x2028, 'L'), (Char.ofNat 0x2029, 'P')]

def escapeChar (c : Char) : List Char :=
  let n := c.toNat
  if isPrintable c && !isBreak c && c != '"' && c != '\\' then [c]
  else
    match letters.lookup c with
    | some d => ['\\', d]
    | none =>
      if n ≤ 0xFF then '\\' :: 'x' :: hexDigits n 2
      else if n ≤ 0xFFFF then '\\' :: 'u' :: hexDigits n 4
      else '\\' :: 'U' :: hexDigits n 8

def inDouble (cs : List Char) : List Char := '"' :: cs.flatMap escapeChar ++ ['"']

def literalLines (atStart : Bool) : List Char → List Char
  | [] => []
  | c :: rest =>
    if isBreak c then c :: literalLines true rest
    else if atStart then ' ' :: ' ' :: c :: literalLines false rest
    else c :: literalLines false rest

def chompMark (cs : List Char) : List Char :=
  match cs.reverse with
  | [] => ['-']
  | c :: rest => if !isBreak c then ['-'] else if rest.head?.all isBreak then ['+'] else []

def hintMark (cs : List Char) : List Char :=
  if cs.head?.any (fun c => isSpace c || isBreak c) then ['2'] else []

def literal (cs : List Char) : List Char :=
  '|' :: hintMark cs ++ chompMark cs ++ '\n' :: literalLines true cs

-- A text as the value of a key. The line it ends on is closed only by a literal block whose text ends with
-- a break.
def textChars (s : String) : List Char :=
  let cs := s.toList
  if cs.contains '\n' then (if literalAllowed cs then literal cs else inDouble cs)
  else if !isAmbiguous s && plainAllowed cs then cs
  else if singleAllowed cs then inSingle cs
  else inDouble cs

end ToffoliBench.Yaml

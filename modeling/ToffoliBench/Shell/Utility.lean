import ToffoliBench.Shell.State

namespace ToffoliBench.Shell

open Effect

def octal? (cs : Bytes) : Option (Nat × Nat) :=
  let digits := (cs.take 3).takeWhile fun c => '0' ≤ c && c ≤ '7'
  if digits = [] then none else some (digits.foldl (fun n c => 8 * n + (c.toNat - 48)) 0, digits.length)

def namedEscapes : List (Char × Nat) :=
  [('a', 7), ('b', 8), ('f', 12), ('n', 10), ('r', 13), ('t', 9), ('v', 11), ('\\', 92)]

-- Text with its escapes carried out, and whether it was cut short by `\c`. An octal number is written after
-- `\0` if `zeroed`, and after the backslash otherwise.
def unescape (zeroed : Bool) : Nat → Bytes → Bytes × Bool
  | 0, cs => (cs, false)
  | _, [] => ([], false)
  | fuel + 1, '\\' :: c :: rest =>
    let after (d : Nat) (cs : Bytes) : Bytes × Bool :=
      let (more, cut) := unescape zeroed fuel cs
      (Char.ofNat d :: more, cut)
    if c = 'c' then ([], true)
    else match namedEscapes.lookup c with
    | some d => after d rest
    | none =>
      let digits := if zeroed then (if c = '0' then rest else []) else c :: rest
      match octal? digits with
      | some (n, length) => after (n % 256) (digits.drop length)
      | none =>
        if zeroed ∧ c = '0' then after 0 rest
        else
          let (more, cut) := unescape zeroed fuel (c :: rest)
          ('\\' :: more, cut)
  | fuel + 1, c :: rest =>
    let (more, cut) := unescape zeroed fuel rest
    (c :: more, cut)

def spaced (args : List Bytes) : Bytes := [' '].intercalate args

def echo (escapes : Bool) (args : List Bytes) : Effect Unit := do
  let (args, newline) := match args with
    | ['-', 'n'] :: rest => (rest, false)
    | _ => (args, true)
  let text := spaced args
  let (text, cut) := if escapes then unescape true (text.length + 1) text else (text, false)
  print (if newline ∧ !cut then text ++ ['\n'] else text)
  finish 0

-- One pass over a format: what is printed, and the arguments that are left.
def formatted (fuel : Nat) (format : Bytes) (args : List Bytes) : Bytes × List Bytes :=
  match fuel, format with
  | 0, _ => ([], args)
  | _, [] => ([], args)
  | fuel + 1, '%' :: c :: rest =>
    let first := args.headD []
    let (text, left) : Bytes × List Bytes :=
      if c = '%' then (['%'], args)
      else if c = 's' then (first, args.drop 1)
      else if c = 'b' then ((unescape true (first.length + 1) first).1, args.drop 1)
      else if c = 'c' then (first.take 1, args.drop 1)
      else if c = 'd' ∨ c = 'i' then (Text.ofInt ((Text.int? first).getD 0), args.drop 1)
      else (['%', c], args)
    let (more, left) := formatted fuel rest left
    (text ++ more, left)
  | fuel + 1, c :: rest =>
    let (more, left) := formatted fuel rest args
    (c :: more, left)

-- The format is used again as long as it takes arguments.
def formattedAll (format : Bytes) (args : List Bytes) : Nat → Bytes
  | 0 => []
  | fuel + 1 =>
    let (text, left) := formatted (format.length + 1) format args
    if left = [] ∨ left.length = args.length then text else text ++ formattedAll format left fuel

def printf (args : List Bytes) : Effect Unit := do
  match args with
  | [] => finish 2
  | format :: rest => do
    let format := (unescape false (format.length + 1) format).1
    print (formattedAll format rest (rest.length + 1))
    finish 0

def contents? (s : State) (name : Bytes) : Option Bytes :=
  if name = ['-'] then some s.input
  else match s.files.read (toText name) with
    | .ok text => some (ofText text)
    | .error _ => none

def contentsOf (args : List Bytes) : Effect (List (Option Bytes)) := do
  let s ← get
  pure ((if args = [] then [['-']] else args).map (contents? s))

-- Prints what `part` takes of each file; a missing file makes the status 1.
def printParts (part : Bytes → Bytes) (args : List Bytes) : Effect Unit := do
  let files ← contentsOf args
  print ((files.filterMap id).flatMap part)
  finish (if files.all Option.isSome then 0 else 1)

def firstLines : Nat → Bytes → Bytes
  | 0, _ => []
  | n + 1, cs =>
    match cs.dropWhile (· != '\n') with
    | [] => cs
    | _ :: rest => cs.takeWhile (· != '\n') ++ '\n' :: firstLines n rest

def lineCount (cs : Bytes) : Nat := cs.count '\n' + if cs.getLast?.all (· == '\n') then 0 else 1

def dropLines : Nat → Bytes → Bytes
  | 0, cs => cs
  | n + 1, cs => dropLines n ((cs.dropWhile (· != '\n')).drop 1)

def lastLines (n : Nat) (cs : Bytes) : Bytes := dropLines (lineCount cs - n) cs

def countOption (args : List Bytes) : Bool × Nat × List Bytes :=
  match args with
  | ['-', 'n'] :: n :: rest => (false, (Text.nat? n).getD 10, rest)
  | ['-', 'c'] :: n :: rest => (true, (Text.nat? n).getD 10, rest)
  | ('-' :: 'n' :: n) :: rest => (false, (Text.nat? n).getD 10, rest)
  | ('-' :: 'c' :: n) :: rest => (true, (Text.nat? n).getD 10, rest)
  | ('-' :: n) :: rest => if n = [] then (false, 10, args) else (false, (Text.nat? n).getD 10, rest)
  | _ => (false, 10, args)

def head (args : List Bytes) : Effect Unit := do
  let (inBytes, n, names) := countOption args
  printParts (fun cs => if inBytes then cs.take n else firstLines n cs) names

def tail (args : List Bytes) : Effect Unit := do
  let (inBytes, n, names) := countOption args
  printParts (fun cs => if inBytes then cs.drop (cs.length - n) else lastLines n cs) names

def wc (args : List Bytes) : Effect Unit := do
  let (counts, names) : (Bytes → Nat) × List Bytes := match args with
    | ['-', 'l'] :: rest => (fun cs => cs.count '\n', rest)
    | ['-', 'c'] :: rest => (fun cs => cs.length, rest)
    | _ => (fun cs => cs.length, args)
  printParts (fun cs => numberBytes (counts cs) ++ names.flatMap (' ' :: ·) ++ ['\n']) names

def seq (args : List Bytes) : Effect Unit := do
  let (first, step, last) := match args.map fun a => (Text.nat? a).getD 0 with
    | [last] => (1, 1, last)
    | [first, last] => (first, 1, last)
    | [first, step, last] => (first, step, last)
    | _ => (1, 1, 0)
  let count := if step = 0 then 0 else (last + step - first) / step
  print ((List.range' first count step).flatMap fun n => numberBytes n ++ ['\n'])
  finish 0

def secondUnits : List (Bytes × Nat) := [([], 1), (['s'], 1), (['m'], 60), (['h'], 3600), (['d'], 86400)]

-- A span like `5`, `0.25` or `2m`, in nanoseconds.
def nanos? (cs : Bytes) : Option Nat := do
  let whole := cs.takeWhile Char.isDigit
  let rest := cs.drop whole.length
  let places := match rest with
    | '.' :: more => more.takeWhile Char.isDigit
    | _ => []
  let suffix := if rest.head? = some '.' then rest.drop (places.length + 1) else rest
  let factor ← secondUnits.lookup suffix
  let digits ← Text.digits? (whole ++ places)
  pure (digits * 1000000000 * factor / Nat.pow 10 places.length)

def sleep (args : List Bytes) : Effect Unit := do
  match args.mapM nanos? with
  | some ns => do
    wait (ns.foldl (· + ·) 0)
    finish (if args = [] then 1 else 0)
  | none => finish 1

def kill (args : List Bytes) : Effect Unit := do
  let harmless := args.contains ['-', '0']
  if !args.contains processNumber then finish 1
  else if harmless then finish 0
  else throw .killed

def touch (args : List Bytes) : Effect Unit := do
  for name in args do
    let s ← get
    match s.files.find (toText name) with
    | .ok _ => pure ()
    | .error _ => emit (.file (toText name)) []
  finish 0

def compare? (op : Bytes) (a b : Int) : Option Bool :=
  match String.ofList op with
  | "-eq" => some (a == b)
  | "-ne" => some (a != b)
  | "-lt" => some (a < b)
  | "-le" => some (a ≤ b)
  | "-gt" => some (b < a)
  | "-ge" => some (b ≤ a)
  | _ => none

def holdsOne (s : State) (op arg : Bytes) : Bool :=
  let entry := s.files.find (toText arg)
  match String.ofList op with
  | "-n" => arg != []
  | "-z" => arg == []
  | "-f" => match entry with
    | .ok (.file _ _) => true
    | _ => false
  | "-x" => match entry with
    | .ok (.file _ executable) => executable
    | .ok .directory => true
    | _ => false
  | "-s" => match entry with
    | .ok (.file text _) => text != ""
    | .ok .directory => true
    | _ => false
  | "-d" => s.files.isDirectory (toText arg)
  | "-e" => entry.toBool
  | "-r" => entry.toBool
  | _ => false

def holds (s : State) : Nat → List Bytes → Bool
  | 0, _ => false
  | fuel + 1, args =>
    match args with
    | [] => false
    | [a] => a != []
    | ['!'] :: rest => !holds s fuel rest
    | [op, a] => holdsOne s op a
    | [a, op, b] =>
      if op = ['='] ∨ op = ['=', '='] then a == b
      else if op = ['!', '='] then a != b
      else match Text.int? a, Text.int? b with
        | some m, some n => (compare? op m n).getD false
        | _, _ => false
    | _ => false

def test (args : List Bytes) : Effect Unit := do
  let s ← get
  finish (if holds s (args.length + 1) args then 0 else 1)

def utility? (name : String) : Option (List Bytes → Effect Unit) :=
  match name with
  | "echo" => some (echo true)
  | "printf" => some printf
  | "cat" => some (printParts id)
  | "head" => some head
  | "tail" => some tail
  | "wc" => some wc
  | "seq" => some seq
  | "sleep" => some sleep
  | "kill" => some kill
  | "touch" => some touch
  | "test" => some test
  | "[" => some fun args => if args.getLast? = some [']'] then test args.dropLast else finish 2
  | "true" => some fun _ => finish 0
  | ":" => some fun _ => finish 0
  | "false" => some fun _ => finish 1
  | _ => none

end ToffoliBench.Shell

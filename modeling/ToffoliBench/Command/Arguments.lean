import ToffoliBench.Decimal.Reading
import ToffoliBench.Settings.Layers

namespace ToffoliBench.Command

structure CircuitOptions where
  qubits : Nat
  nots : Nat := 0
  cnots : Nat := 0
  toffolis : Nat := 0
  seed : Option Nat := none
  targetFraction : Float := 0.15

inductive Request where
  | version
  | generate (circuit : CircuitOptions) (output : Option String)
  | show (circuit : CircuitOptions)
  | inspect (file : String)
  | run (config : Option String) (overrides : Settings.Overrides)

-- A long option takes its value after `=` or as the next argument, a short one also right behind its
-- letter. An argument that starts with a dash is no value unless it is the dash alone.
structure Spelling where
  long : String
  short : Option Char := none
  takesValue : Bool := true

inductive Item where
  | option (long value : String)
  | flag (long : String)
  | operand (text : String)
deriving DecidableEq, Repr

def looksLikeOption (arg : String) : Bool :=
  match arg.toList with
  | '-' :: _ :: _ => true
  | _ => false

def nextValue? : List String → Option (String × List String)
  | [] => none
  | arg :: rest => if looksLikeOption arg then none else some (arg, rest)

def shorts (spellings : List Spelling) (rest : List String) : List Char → Option (List Item × List String)
  | [] => some ([], rest)
  | c :: cs => do
    let s ← spellings.find? fun s => s.short == some c
    if s.takesValue then
      match cs with
      | [] => do
        let (value, rest) ← nextValue? rest
        pure ([.option s.long value], rest)
      | _ => pure ([.option s.long (String.ofList (if cs.head? = some '=' then cs.drop 1 else cs))], rest)
    else do
      let (items, rest) ← shorts spellings rest cs
      pure (.flag s.long :: items, rest)

def long (spellings : List Spelling) (rest : List String) (cs : List Char) : Option (Item × List String) := do
  let name := String.ofList (cs.takeWhile (· != '='))
  let s ← spellings.find? fun s => s.long == name
  match cs.dropWhile (· != '='), s.takesValue with
  | [], false => pure (.flag name, rest)
  | _ :: value, true => pure (.option name (String.ofList value), rest)
  | [], true => do
    let (value, rest) ← nextValue? rest
    pure (.option name value, rest)
  | _ :: _, false => none

-- The arguments in order. After `--` all are operands.
def items (spellings : List Spelling) : Nat → List String → Option (List Item)
  | 0, _ => none
  | _, [] => some []
  | fuel + 1, arg :: rest =>
    match arg.toList with
    | ['-', '-'] => some (rest.map .operand)
    | '-' :: '-' :: cs => do
      let (item, rest) ← long spellings rest cs
      let more ← items spellings fuel rest
      pure (item :: more)
    | '-' :: c :: cs => do
      let (found, rest) ← shorts spellings rest (c :: cs)
      let more ← items spellings fuel rest
      pure (found ++ more)
    | _ => do
      let more ← items spellings fuel rest
      pure (.operand arg :: more)

def verbose : Spelling := { long := "verbose", short := some 'v', takesValue := false }

def circuitSpellings : List Spelling :=
  [{ long := "qubits", short := some 'q' }, { long := "nots" }, { long := "cnots" }, { long := "toffolis" },
    { long := "seed", short := some 's' }, { long := "target-fraction" }]

def outputSpelling : Spelling := { long := "output", short := some 'o' }

def runSpellings : List Spelling :=
  [{ long := "config", short := some 'c' }, { long := "solver" }, { long := "workers", short := some 'w' },
    { long := "timeout", short := some 't' }, { long := "samples" }, { long := "master-seed" },
    { long := "second-only-timeout", takesValue := false }]

def operands (found : List Item) : List String :=
  found.filterMap fun item => match item with
    | .operand text => some text
    | _ => none

def isNamed (name : String) : Item → Bool
  | .option long _ => long == name
  | .flag long => long == name
  | .operand _ => false

-- Is every option but the verbose flag given at most once?
def givenOnce (spellings : List Spelling) (found : List Item) : Bool :=
  spellings.all fun s => found.countP (isNamed s.long) ≤ 1

def value? (found : List Item) (name : String) : Option String :=
  found.findSome? fun item => match item with
    | .option long value => if long = name then some value else none
    | _ => none

-- The value of an option, or nothing if it is not given. It fails on a value that is not read.
def read? (found : List Item) (name : String) (parse : String → Option α) : Option (Option α) :=
  match value? found name with
  | none => some none
  | some text => (parse text).map some

def word? (text : String) : Option Nat := Text.natUpTo? Range.maxWord text.toList

def float? (text : String) : Option Float := Decimal.float? text.toList

def path? (text : String) : Option String := if text = "" then none else some text

def circuit? (found : List Item) : Option CircuitOptions := do
  let qubits ← read? found "qubits" word?
  let nots ← read? found "nots" word?
  let cnots ← read? found "cnots" word?
  let toffolis ← read? found "toffolis" word?
  let seed ← read? found "seed" word?
  let targetFraction ← read? found "target-fraction" float?
  let qubits ← qubits
  pure
    { qubits, nots := nots.getD 0, cnots := cnots.getD 0, toffolis := toffolis.getD 0, seed,
      targetFraction := targetFraction.getD 0.15 }

def overrides? (found : List Item) : Option Settings.Overrides := do
  let solver ← read? found "solver" path?
  let workers ← read? found "workers" word?
  let timeoutSeconds ← read? found "timeout" word?
  let samples ← read? found "samples" word?
  let masterSeed ← read? found "master-seed" word?
  pure
    { solver, workers, timeoutSeconds, samples, masterSeed,
      secondOnly := found.contains (.flag "second-only-timeout") }

def found? (spellings : List Spelling) (args : List String) : Option (List Item) :=
  (items (verbose :: spellings) (args.length + 1) args).filter (givenOnce spellings)

def parseGenerate (args : List String) : Option Request := do
  let found ← found? (outputSpelling :: circuitSpellings) args
  if operands found ≠ [] then none
  else
    let circuit ← circuit? found
    let output ← read? found "output" path?
    pure (.generate circuit output)

def parseShow (args : List String) : Option Request := do
  let found ← found? circuitSpellings args
  if operands found ≠ [] then none else (circuit? found).map .show

def parseInspect (args : List String) : Option Request := do
  let found ← found? [] args
  match operands found with
  | [file] => (path? file).map .inspect
  | _ => none

def parseRun (args : List String) : Option Request := do
  let found ← found? runSpellings args
  if operands found ≠ [] then none
  else
    let config ← read? found "config" path?
    let overrides ← overrides? found
    pure (.run config overrides)

-- Flags before the command; the version is answered as soon as it is asked for.
def parseFlags (args : List String) : List Char → Option (Option Request)
  | [] => some none
  | 'v' :: rest => parseFlags args rest
  | 'V' :: _ => some (some .version)
  | _ => none

def parse? : List String → Option Request
  | [] => none
  | "--version" :: _ => some .version
  | "--verbose" :: rest => parse? rest
  | "generate" :: rest => parseGenerate rest
  | "show" :: rest => parseShow rest
  | "inspect" :: rest => parseInspect rest
  | "run" :: rest => parseRun rest
  | arg :: rest =>
    match arg.toList with
    | '-' :: c :: cs =>
      match parseFlags rest (c :: cs) with
      | some none => parse? rest
      | some request => request
      | none => none
    | _ => none

end ToffoliBench.Command

import ToffoliBench.Shell.Arithmetic
import ToffoliBench.Shell.Reading
import ToffoliBench.Shell.Utility
import ToffoliBench.Text.Blank

namespace ToffoliBench.Shell

open Effect

-- A text after expansion, and whether it is split at blanks.
abbrev Segment := Bool × Bytes

-- Words taken from segments: `current` is the word at work, if one has begun.
def fields (current : Option Bytes) : List Segment → List Bytes
  | [] => current.toList
  | (false, cs) :: rest => fields (some (current.getD [] ++ cs)) rest
  | (true, cs) :: rest => splitInto current cs rest
where
  isGap (c : Char) : Bool := c == ' ' || c == '\t' || c == '\n'
  splitInto (current : Option Bytes) (cs : Bytes) (rest : List Segment) : List Bytes :=
    match cs with
    | [] => fields current rest
    | c :: more =>
      if isGap c then current.toList ++ splitInto none more rest
      else splitInto (some (current.getD [] ++ [c])) more rest

def withoutLastBreaks (cs : Bytes) : Bytes := Text.dropEnd (· == '\n') cs

-- Does a text fit a pattern with `*` and `?`? A quoted sign stands for itself.
def fits : List (Bool × Char) → Bytes → Bool
  | [], cs => cs.isEmpty
  | (false, '*') :: rest, cs => fitsTail rest cs
  | (quoted, p) :: rest, cs =>
    match cs with
    | [] => false
    | c :: more => (c == p || (!quoted && p == '?')) && fits rest more
where
  fitsTail (rest : List (Bool × Char)) : Bytes → Bool
    | [] => fits rest []
    | c :: more => fits rest (c :: more) || fitsTail rest more

def systemPlaces : List Place := [["bin"], ["usr", "bin"]]

def system? (fs : Files) (path : String) : Option String :=
  let name := (Files.pieces path).getLast?.getD ""
  let known := (utility? name).isSome || ["sh", "bash", "dash", "env"].contains name
  let found :=
    if path.toList.contains '/' then
      Files.isAbsolute path && systemPlaces.contains (Files.pieces path).dropLast && (fs.find path).toOption.isNone
    else true
  if known && found then some name else none

-- The program named in the first line of a script, and the argument it is given there.
def interpreter? (script : Bytes) : Option (Bytes × Option Bytes) :=
  match script with
  | '#' :: '!' :: rest =>
    let line := (rest.takeWhile (· != '\n')).dropWhile isBlank
    let path := line.takeWhile (!isBlank ·)
    let argument := Text.dropEnd isBlank ((line.drop path.length).dropWhile isBlank)
    if path = [] then none else some (path, if argument = [] then none else some argument)
  | _ => none

inductive Program where
  | utility (name : String)
  | shell
  | script (text : Bytes)
deriving DecidableEq, Repr, Inhabited

-- What a path or the name of a command runs, with the arguments that come first.
def resolve (fs : Files) (path : String) : Nat → Except FileError (Program × List Bytes)
  | 0 => .error .notFound
  | fuel + 1 =>
    match system? fs path with
    | some name => .ok (if ["sh", "bash", "dash"].contains name then .shell else .utility name, [])
    | none =>
      if !path.toList.contains '/' then .error .notFound
      else match fs.find path with
      | .error e => .error e
      | .ok .directory => .error .denied
      | .ok (.file _ false) => .error .denied
      | .ok (.file text true) =>
        match interpreter? (ofText text) with
        | none => .error .badFormat
        | some (program, argument) => do
          let byName := ((Files.pieces (toText program)).getLast?.getD "") == "env"
          let program := if byName then argument.getD [] else program
          let argument := if byName then none else argument
          let (found, first) ← resolve fs (toText program) fuel
          match found with
          | .shell => pure (.script (ofText text), [])
          | p => pure (p, first ++ argument.toList ++ [ofText path])

def openSink (path : Bytes) (fresh : Bool) : Effect (Option Sink) := do
  let name := toText path
  if name = "/dev/null" then pure (some .hidden)
  else if name = "/dev/stderr" then pure (some .hidden)
  else if name = "/dev/stdout" then pure (some (← get).out)
  else do
    let s ← get
    let old := if fresh then "" else match s.files.read name with
      | .ok text => text
      | .error _ => ""
    match s.files.write name old with
    | .ok files => do
      set { s with files }
      pure (some (.file name))
    | .error _ => pure none

def pointed (stream : Nat) (sink : Sink) : Effect Unit :=
  modify fun s => if stream = 1 then { s with out := sink } else { s with err := sink }

def redirect (kind : RedirectKind) (stream : Nat) (target : Bytes) : Effect Bool := do
  let s ← get
  match kind with
  | .same => do
    pointed stream (if target = ['1'] then s.out else if target = ['2'] then s.err else .hidden)
    pure true
  | .here => do
    set { s with input := target }
    pure true
  | .input =>
    let found := if toText target = "/dev/null" then some [] else contents? s target
    match found with
    | some input => do
      set { s with input }
      pure true
    | none => pure false
  | _ => do
    match ← openSink target (kind == .replace) with
    | some sink => do
      pointed stream sink
      pure true
    | none => pure false

-- Runs an action and answers what it prints; bindings and streams are put back after it, and it cannot end
-- the script that it is part of.
def captured (action : Effect Unit) : Effect Bytes := do
  let before ← get
  let (result, after) := (action.run.run { before with printed := [], out := .shown } : Except Stop Unit × State)
  set { after with
    name := before.name, arguments := before.arguments, bindings := before.bindings, input := before.input,
    printed := before.printed, out := before.out, err := before.err }
  match result with
  | .error .endless => throw .endless
  | .error .killed => throw .killed
  | _ => pure after.output

-- The command that would be left running if the script were replaced by it.
def stopAfter (action : Effect Unit) : Effect Unit := do
  action
  throw .exit

def numberOr (default : Nat) (args : List Bytes) : Nat := (args.head?.bind Text.nat?).getD default

mutual

def expandPiece (piece : Piece) : Nat → Effect (List Segment)
  | 0 => throw .endless
  | fuel + 1 => do
    let s ← get
    match piece with
    | .text _ cs => pure [(false, cs)]
    | .parameter quoted name otherwise =>
      match value? s name, otherwise with
      | some v, none => pure [(!quoted, v)]
      | none, none => pure [(!quoted, [])]
      | v, some other =>
        if v.isNone ∨ (other.orEmpty ∧ v = some []) then do
          let pieces := (quotedPieces other.text).getD []
          let text ← expandText pieces fuel
          pure [(!quoted, text)]
        else pure [(!quoted, v.getD [])]
    | .output quoted script =>
      match parse? script with
      | none => pure []
      | some c => do
        let text ← captured (run c fuel)
        pure [(!quoted, withoutLastBreaks text)]
    | .arithmetic quoted cs => do
      let text ← expandText ((quotedPieces cs).getD []) fuel
      match Arithmetic.value? s text with
      | some n => pure [(!quoted, Text.ofInt n)]
      | none => do
        finish 2
        throw .exit
termination_by structural fuel => fuel

def expandPieces (w : Word) : Nat → Effect (List Segment)
  | 0 => throw .endless
  | fuel + 1 => do
    match w with
    | [] => pure []
    | piece :: rest => do
      let first ← expandPiece piece fuel
      let more ← expandPieces rest fuel
      pure (first ++ more)
termination_by structural fuel => fuel

def expandText (w : Word) : Nat → Effect Bytes
  | 0 => throw .endless
  | fuel + 1 => do
    let segments ← expandPieces w fuel
    pure (segments.flatMap (·.2))
termination_by structural fuel => fuel

-- The words that a word becomes: all arguments for `"$@"`, and otherwise its pieces split.
def expandFields (w : Word) : Nat → Effect (List Bytes)
  | 0 => throw .endless
  | fuel + 1 => do
    let argumentsOnly := w.filter fun piece => piece != .text true []
    if argumentsOnly = [.parameter true ['@'] none] then do
      let s ← get
      pure s.arguments
    else do
      let segments ← expandPieces w fuel
      pure (fields none segments)
termination_by structural fuel => fuel

def expandAll (ws : List Word) : Nat → Effect (List Bytes)
  | 0 => throw .endless
  | fuel + 1 => do
    match ws with
    | [] => pure []
    | w :: rest => do
      let first ← expandFields w fuel
      let more ← expandAll rest fuel
      pure (first ++ more)
termination_by structural fuel => fuel

def assignAll (assigned : List (Bytes × Word)) : Nat → Effect Unit
  | 0 => throw .endless
  | fuel + 1 => do
    match assigned with
    | [] => pure ()
    | (name, w) :: rest => do
      let value ← expandText w fuel
      assign name value
      assignAll rest fuel
termination_by structural fuel => fuel

def redirectAll (rs : List Redirect) : Nat → Effect Bool
  | 0 => throw .endless
  | fuel + 1 => do
    match rs with
    | [] => pure true
    | r :: rest => do
      let target ← expandText r.target fuel
      if ← redirect r.kind r.stream target then redirectAll rest fuel else pure false
termination_by structural fuel => fuel

def withStreams (rs : List Redirect) (action : Effect Unit) : Nat → Effect Unit
  | 0 => throw .endless
  | fuel + 1 => do
    let before ← get
    if ← redirectAll rs fuel then action else finish 2
    modify fun s => { s with out := before.out, err := before.err, input := before.input }
termination_by structural fuel => fuel

-- A pattern word with its quoting kept for every character.
def patternOf (w : Word) : Nat → Effect (List (Bool × Char))
  | 0 => throw .endless
  | fuel + 1 => do
    match w with
    | [] => pure []
    | piece :: rest => do
      let quoted := match piece with
        | .text quoted _ => quoted
        | .parameter quoted _ _ => quoted
        | .output quoted _ => quoted
        | .arithmetic quoted _ => quoted
      let segments ← expandPiece piece fuel
      let more ← patternOf rest fuel
      pure ((segments.flatMap (·.2)).map (quoted, ·) ++ more)
termination_by structural fuel => fuel

def fitsAny (subject : Bytes) (ps : List Word) : Nat → Effect Bool
  | 0 => throw .endless
  | fuel + 1 => do
    match ps with
    | [] => pure false
    | p :: rest => do
      let pattern ← patternOf p fuel
      if fits pattern subject then pure true else fitsAny subject rest fuel
termination_by structural fuel => fuel

def external (path : Bytes) (args : List Bytes) : Nat → Effect Unit
  | 0 => throw .endless
  | fuel + 1 => do
    let s ← get
    match resolve s.files (toText path) 4 with
    | .error .notFound => finish 127
    | .error _ => finish 126
    | .ok (.utility name, first) =>
      let known := if name = "echo" then some (echo false) else utility? name
      match known with
      | some action => action (first ++ args)
      | none => finish 127
    | .ok (.script text, _) => scriptRun text path args fuel
    | .ok (.shell, _) =>
      match args with
      | ['-', 'c'] :: text :: rest => scriptRun text (rest.headD ['s', 'h']) (rest.drop 1) fuel
      | name :: rest =>
        match contents? s name with
        | some text => scriptRun text name rest fuel
        | none => finish 2
      | [] => scriptRun s.input ['s', 'h'] [] fuel
termination_by structural fuel => fuel

def scriptRun (text name : Bytes) (args : List Bytes) : Nat → Effect Unit
  | 0 => throw .endless
  | fuel + 1 => do
    match parse? text with
    | none => finish 2
    | some c => do
      let before ← get
      let start := { before with name, arguments := args, bindings := [], status := 0 }
      let (result, after) := ((run c fuel).run.run start : Except Stop Unit × State)
      set { after with
        name := before.name, arguments := before.arguments, bindings := before.bindings,
        input := before.input, out := before.out, err := before.err }
      match result with
      | .error .endless => throw .endless
      | .error .killed => throw .killed
      | _ => pure ()
termination_by structural fuel => fuel

def invoke (name : Bytes) (args : List Bytes) : Nat → Effect Unit
  | 0 => throw .endless
  | fuel + 1 => do
    let s ← get
    match String.ofList name with
    | "exit" => do
      let status := match args with
        | [] => s.status
        | a :: _ => ((Text.nat? a).map (· % 256)).getD 2
      finish status
      throw .exit
    | "exec" =>
      match args with
      | [] => finish 0
      | program :: rest => stopAfter (invoke program rest fuel)
    | "break" => throw (.leave (numberOr 1 args))
    | "continue" => throw (.again (numberOr 1 args))
    | "shift" => set { s with arguments := s.arguments.drop (numberOr 1 args), status := 0 }
    | "set" => finish 0
    | "export" => finish 0
    | "trap" => finish 0
    | "wait" => finish 0
    | _ =>
      if name.contains '/' then external name args fuel
      else match utility? (String.ofList name) with
        | some action => action args
        | none => external name args fuel
termination_by structural fuel => fuel

def loop (untilTrue : Bool) (condition body : Command) : Nat → Effect Unit
  | 0 => throw .endless
  | fuel + 1 => do
    spend
    run condition fuel
    let holds := (← get).status = 0
    if holds = untilTrue then finish 0
    else do
      if ← bodyGoesOn body fuel then loop untilTrue condition body fuel else pure ()
termination_by structural fuel => fuel

-- Runs the body of a loop once; answers whether the loop goes on.
def bodyGoesOn (body : Command) : Nat → Effect Bool
  | 0 => throw .endless
  | fuel + 1 => do
    let s ← get
    match ((run body fuel).run.run s : Except Stop Unit × State) with
    | (.ok _, s) => do
      set s
      pure true
    | (.error (.again n), s) => do
      set s
      if n ≤ 1 then pure true else throw (.again (n - 1))
    | (.error (.leave n), s) => do
      set s
      if n ≤ 1 then pure false else throw (.leave (n - 1))
    | (.error stop, s) => do
      set s
      throw stop
termination_by structural fuel => fuel

def eachLoop (name : Bytes) (values : List Bytes) (body : Command) : Nat → Effect Unit
  | 0 => throw .endless
  | fuel + 1 => do
    match values with
    | [] => pure ()
    | v :: rest => do
      spend
      assign name v
      if ← bodyGoesOn body fuel then eachLoop name rest body fuel else pure ()
termination_by structural fuel => fuel

def run (c : Command) : Nat → Effect Unit
  | 0 => throw .endless
  | fuel + 1 => do
    spend
    match c with
    | .nothing => pure ()
    | .simple assigned words rs => do
      let args ← expandAll words fuel
      match args with
      | [] => do
        finish 0
        assignAll assigned fuel
        withStreams rs (pure ()) fuel
      | [['e', 'x', 'e', 'c']] => do
        -- the streams of the script itself
        if ← redirectAll rs fuel then finish 0 else finish 2
      | name :: rest => do
        assignAll assigned fuel
        withStreams rs (invoke name rest fuel) fuel
    | .sequence first second => do
      run first fuel
      run second fuel
    | .both first second => do
      run first fuel
      if (← get).status = 0 then run second fuel else pure ()
    | .either first second => do
      run first fuel
      if (← get).status = 0 then pure () else run second fuel
    | .negated c => do
      run c fuel
      finish (if (← get).status = 0 then 1 else 0)
    | .pipe first second => do
      let text ← captured (run first fuel)
      let before ← get
      set { before with input := text }
      let printed ← captured (run second fuel)
      modify fun s => { s with input := before.input }
      print printed
    | .choice condition yes no => do
      run condition fuel
      if (← get).status = 0 then do
        finish 0
        run yes fuel
      else do
        finish 0
        run no fuel
    | .loop untilTrue condition body => loop untilTrue condition body fuel
    | .each name words body => do
      let values ← expandAll words fuel
      finish 0
      eachLoop name values body fuel
    | .arm subject ps body rest => do
      let text ← expandText subject fuel
      if ← fitsAny text ps fuel then run body fuel else run rest fuel
    | .redirected c rs => withStreams rs (run c fuel) fuel
    | .apart c => do
      let printed ← captured (run c fuel)
      print printed
termination_by structural fuel => fuel

end

def depth : Nat := 200000

end ToffoliBench.Shell

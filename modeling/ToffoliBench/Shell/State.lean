import ToffoliBench.Files.Path
import ToffoliBench.Shell.Command
import ToffoliBench.Text.Utf8

namespace ToffoliBench.Shell

def ofText (s : String) : Bytes := (Text.toBytes s).map fun b => Char.ofNat b.toNat

def toText (cs : Bytes) : String := Text.ofBytes (cs.map fun c => c.toNat.toUInt8)

inductive Sink where
  | shown
  | hidden
  | file (path : String)
deriving DecidableEq, Repr, Inhabited

structure State where
  files : Files
  name : Bytes := []
  arguments : List Bytes := []
  bindings : List (Bytes × Bytes) := []
  status : Nat := 0
  input : Bytes := []
  -- printed texts, the last one first
  printed : List Bytes := []
  out : Sink := .shown
  err : Sink := .hidden
  nanos : Nat := 0
  -- commands that may still be run
  budget : Nat := 200000

inductive Stop where
  | exit
  | killed
  | endless
  | leave (loops : Nat)
  | again (loops : Nat)
deriving DecidableEq, Repr, Inhabited

abbrev Effect := ExceptT Stop (StateM State)

def processNumber : Bytes := ['4', '2', '1', '7']

def State.output (s : State) : Bytes := s.printed.reverse.flatten

namespace Effect

def emit (sink : Sink) (cs : Bytes) : Effect Unit :=
  modify fun s =>
    match sink with
    | .shown => { s with printed := cs :: s.printed }
    | .hidden => s
    | .file path =>
      let old := match s.files.read path with
        | .ok text => text
        | .error _ => ""
      match s.files.write path (old ++ toText cs) with
      | .ok files => { s with files }
      | .error _ => s

def print (cs : Bytes) : Effect Unit := do emit (← get).out cs

def finish (status : Nat) : Effect Unit := modify fun s => { s with status }

def wait (nanos : Nat) : Effect Unit := modify fun s => { s with nanos := s.nanos + nanos }

def assign (name value : Bytes) : Effect Unit :=
  modify fun s => { s with bindings := (name, value) :: s.bindings.filter fun v => v.1 != name }

def spend : Effect Unit := do
  let s ← get
  match s.budget with
  | 0 => throw .endless
  | n + 1 => set { s with budget := n }

def numberBytes (n : Nat) : Bytes := Text.ofNat n

def value? (s : State) (name : Bytes) : Option Bytes :=
  match name with
  | ['#'] => some (numberBytes s.arguments.length)
  | ['?'] => some (numberBytes s.status)
  | ['$'] => some processNumber
  | ['0'] => some s.name
  | ['@'] => some ([' '].intercalate s.arguments)
  | ['*'] => some ([' '].intercalate s.arguments)
  | _ =>
    match Text.digits? name with
    | some n => if n = 0 then none else s.arguments[n - 1]?
    | none => s.bindings.lookup name

end Effect

end ToffoliBench.Shell

import ToffoliBench.Text.Integer

namespace ToffoliBench

inductive FileError where
  | notFound
  | badFormat
  | denied
  | taken
  | notDirectory
  | isDirectory
deriving DecidableEq, Repr, Inhabited

def FileError.message : FileError → String
  | .notFound => "No such file or directory (os error 2)"
  | .badFormat => "Exec format error (os error 8)"
  | .denied => "Permission denied (os error 13)"
  | .taken => "File exists (os error 17)"
  | .notDirectory => "Not a directory (os error 20)"
  | .isDirectory => "Is a directory (os error 21)"

abbrev Place := List String

inductive Entry where
  | directory
  | file (text : String) (executable : Bool)
deriving DecidableEq, Repr, Inhabited

structure Files where
  -- each place at most once; a place without an entry is vacant
  entries : List (Place × Entry) := []
  here : Place := []
deriving DecidableEq, Repr, Inhabited

namespace Files

-- the working directory and those above it always exist
def lookup? (fs : Files) (place : Place) : Option Entry :=
  if place.isPrefixOf fs.here then some .directory else fs.entries.lookup place

def put (fs : Files) (place : Place) (e : Entry) : Files :=
  { fs with entries := (place, e) :: fs.entries.filter fun old => old.1 != place }

def pieces (path : String) : List String :=
  (split path.toList).filterMap fun cs => if cs = [] then none else some (String.ofList cs)
where
  split : List Char → List (List Char)
    | [] => [[]]
    | c :: rest =>
      if c = '/' then [] :: split rest
      else match split rest with
        | [] => [[c]]
        | first :: more => (c :: first) :: more

def isAbsolute (path : String) : Bool := path.toList.head? == some '/'

def endsInSlash (path : String) : Bool := path.toList.getLast? == some '/'

def follow (fs : Files) (place : Place) : List String → Except FileError Place
  | [] => .ok place
  | "." :: rest => follow fs place rest
  | ".." :: rest => follow fs place.dropLast rest
  | name :: rest =>
    match fs.lookup? (place ++ [name]) with
    | some .directory => follow fs (place ++ [name]) rest
    | some (.file _ _) => .error .notDirectory
    | none => .error .notFound

def locate (fs : Files) (path : String) : Except FileError Place :=
  match (pieces path).getLast? with
  | none => if isAbsolute path then .ok [] else .error .notFound
  | some last => do
    let start := if isAbsolute path then [] else fs.here
    let parent ← fs.follow start (pieces path).dropLast
    if last = "." ∨ last = ".." then fs.follow parent [last] else pure (parent ++ [last])

def find (fs : Files) (path : String) : Except FileError Entry := do
  let place ← fs.locate path
  match fs.lookup? place with
  | none => .error .notFound
  | some .directory => .ok .directory
  | some (.file text executable) =>
    if endsInSlash path then .error .notDirectory else .ok (.file text executable)

def isDirectory (fs : Files) (path : String) : Bool :=
  match fs.find path with
  | .ok .directory => true
  | _ => false

def read (fs : Files) (path : String) : Except FileError String := do
  match ← fs.find path with
  | .file text _ => .ok text
  | .directory => .error .isDirectory

-- Writes a file; one that is there keeps its permission to run.
def write (fs : Files) (path text : String) : Except FileError Files := do
  let place ← fs.locate path
  match fs.lookup? place with
  | some .directory => .error .isDirectory
  | some (.file _ executable) =>
    if endsInSlash path then .error .isDirectory else .ok (fs.put place (.file text executable))
  | none => if endsInSlash path then .error .isDirectory else .ok (fs.put place (.file text false))

def makeDirectory (fs : Files) (path : String) : Except FileError Files := do
  let place ← fs.locate path
  if (fs.lookup? place).isSome then .error .taken else .ok (fs.put place .directory)

end Files

end ToffoliBench

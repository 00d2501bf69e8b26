import ToffoliBench.Files.Basic

namespace ToffoliBench.Files

def join (dir name : String) : String :=
  if isAbsolute name then name
  else if dir = "" ∨ endsInSlash dir then dir ++ name
  else dir ++ "/" ++ name

-- Shorter and shorter beginnings of a path, its last piece first in `names`. A `.` is a piece only at the
-- front.
def above : List String → List (List String)
  | [] => []
  | name :: rest => if name = "." ∧ rest ≠ [] then above rest else (name :: rest) :: above rest

def ancestors (path : String) : List String :=
  let names := (pieces path).reverse.dropWhile (· == ".")
  (above (names.drop 1)).map fun names =>
    (if isAbsolute path then "/" else "") ++ Text.joined "/" names.reverse

-- Makes the first of the paths that can be made. Those before it are still to be made.
def climb (fs : Files) (missing : List String) : List String → Except FileError (Files × List String)
  | [] => .ok (fs, missing)
  | path :: rest =>
    match fs.makeDirectory path with
    | .ok fs => .ok (fs, missing)
    | .error .notFound => climb fs (path :: missing) rest
    | .error e => if e = .taken ∧ fs.isDirectory path then .ok (fs, missing) else .error e

def makeEach (fs : Files) : List String → Files × Except FileError Unit
  | [] => (fs, .ok ())
  | path :: rest =>
    match fs.makeDirectory path with
    | .ok fs => makeEach fs rest
    | .error e => if e = .taken ∧ fs.isDirectory path then makeEach fs rest else (fs, .error e)

def makeDirectories (fs : Files) (path : String) : Files × Except FileError Unit :=
  if pieces path = [] then (fs, .ok ())
  else
    match climb fs [] (path :: ancestors path) with
    | .error e => (fs, .error e)
    | .ok (fs, missing) => makeEach fs missing

def writeBelow (fs : Files) (path text : String) : Files × Except FileError Unit :=
  match fs.makeDirectories ((ancestors path).head?.getD "") with
  | (fs, .error e) => (fs, .error e)
  | (fs, .ok _) =>
    match fs.write path text with
    | .error e => (fs, .error e)
    | .ok fs => (fs, .ok ())

end ToffoliBench.Files

import ToffoliBench.Command.Basic

open ToffoliBench

namespace ToffoliBench.Main

def variableNames : List String :=
  ["ZXBENCH_SOLVER", "ZXBENCH_TIMEOUT_SECS", "ZXBENCH_WORKERS", "ZXBENCH_INPUT_DIR", "ZXBENCH_OUTPUT_DIR",
    "ZXBENCH_MASTER_SEED"]

-- A script can be run; what is no text is not seen at all.
def entryOf (text : String) : Entry := .file text (text.startsWith "#!")

def readText? (path : String) : IO (Option String) := do
  try
    let text ← IO.FS.readFile path
    return some text
  catch _ => return none

partial def load (fs : Files) (place : Place) : IO Files := do
  let mut fs := fs
  let dir := (← IO.currentDir) / ("/" ++ Text.joined "/" place)
  for entry in ← dir.readDir do
    let below := place ++ [entry.fileName]
    if ← entry.path.isDir then
      fs ← load (fs.put below .directory) below
    else
      match ← readText? ("/" ++ Text.joined "/" below) with
      | some text => fs := fs.put below (entryOf text)
      | none => pure ()
  return fs

def loadNamed (fs : Files) (arg : String) : IO Files := do
  match fs.locate arg, ← readText? arg with
  | .ok _, _ => return fs
  | .error _, none => return fs
  | .error _, some text => return fs.put (Files.pieces arg) (entryOf text)

def writeBack (before after : Files) : IO Unit := do
  for (place, entry) in after.entries.reverse do
    if before.lookup? place != some entry then
      let path := "/" ++ Text.joined "/" place
      match entry with
      | .directory => IO.FS.createDirAll path
      | .file text _ => IO.FS.writeFile path text

def environment : IO Settings.Environment := do
  let mut found : List (String × String) := []
  for name in variableNames do
    if let some value ← IO.getEnv name then found := (name, value) :: found
  return fun name => found.lookup name

def entropy : IO Nat := do
  let bytes ← IO.getRandomBytes 8
  return bytes.toList.foldl (fun n b => 256 * n + b.toNat) 0

end ToffoliBench.Main

def main (args : List String) : IO UInt32 := do
  let started ← IO.monoMsNow
  let here := Files.pieces (← IO.currentDir).toString
  let mut files ← Main.load { here } here
  for arg in args do
    files ← Main.loadNamed files arg
  let world : Command.World := { files, environment := ← Main.environment, entropy := ← Main.entropy }
  let report := Command.execute world args
  Main.writeBack files report.files
  let elapsed := (← IO.monoMsNow) - started
  IO.print (report.output (Decimal.fixed 2 false (elapsed.toFloat / 1000)))
  if let some note := report.note then IO.eprintln note
  return report.exit.toUInt32

import ToffoliBench.Command.Arguments
import ToffoliBench.Command.Report
import ToffoliBench.Drawing.Reading
import ToffoliBench.Solver.Program

namespace ToffoliBench.Command

def versionText : String := "zxbench 0.3.0"

structure World where
  files : Files
  environment : Settings.Environment
  -- stands in for seeds that are not given
  entropy : Nat

def CircuitOptions.recipe (c : CircuitOptions) : Recipe :=
  .forBenchmark c.qubits c.nots c.cnots c.toffolis c.targetFraction c.seed

def circuitFailed (fs : Files) (e : CircuitError) (lines : List Line := []) : Report :=
  if e.isFault then aborted fs lines else failed fs e.causes lines

def generate (w : World) (c : CircuitOptions) (output : Option String) : Report :=
  match c.recipe.benchmark w.entropy with
  | .error e => circuitFailed w.files e
  | .ok circuit =>
    let text := Drawing.trimmedText circuit.diagram
    match output with
    | none => { lines := [.text text], files := w.files }
    | some path =>
      match w.files.write path text with
      | .error e => failed w.files [s!"Failed to write {path}", e.message]
      | .ok files =>
        let size := circuit.diagram.vertices.length
        { note := some s!"✓ Wrote {path} ({size} vertices, scalar {circuit.diagram.scalar.text})", files }

def statistics (d : Diagram) : List Line :=
  let count := d.countKind
  [.text s!"  Vertices: {d.vertices.length} ({count .z} Z, {count .x} X, {count .hBox} H-box, {count .boundary} boundary)",
    .text s!"  Edges:    {d.edges.length}",
    .text s!"  Inputs:   {d.inputs.length}, outputs: {d.outputs.length}",
    .text s!"  Scalar:   {d.scalar.text}"]

def circuitLine (r : Recipe) (s : Sequence) : Line :=
  let range := r.targetRange
  .text (s!"Circuit: {s.qubits} qubits, {s.count .not} NOT, {s.count .cnot} CNOT, " ++
    s!"{s.count .toffoli} Toffoli (targets {range.start}..{range.stop})\n{s.grid}")

def showCircuit (w : World) (c : CircuitOptions) : Report :=
  match c.recipe.generate w.entropy with
  | .error e => circuitFailed w.files e
  | .ok s =>
    let first := [circuitLine c.recipe s]
    match s.diagram with
    | .error e => circuitFailed w.files e first
    | .ok unclosed =>
      let second := first ++ .text "Gadget diagram:" :: statistics unclosed
      match c.recipe.close unclosed with
      | .error e => circuitFailed w.files (.diagram e) second
      | .ok (resolved, closed) =>
        let heading := .text s!"\nClosed diagram: ({resolved} star gadgets resolved)"
        { lines := second ++ heading :: statistics closed, files := w.files }

def phaseLine (d : Diagram) : Line :=
  let phases := d.vertices.map fun entry => entry.2.phase
  .text s!"  π/3 spiders: {phases.countP (· == .third)}, non-Clifford phases: {phases.countP (!·.isClifford)}"

def inspect (w : World) (path : String) : Report :=
  match w.files.read path with
  | .error e => failed w.files [s!"Failed to read file: {path}", e.message]
  | .ok source =>
    match Drawing.read source with
    | .error (.diagram (.fault _)) => aborted w.files
    | .error e => failed w.files (s!"Failed to parse {path}" :: e.causes)
    | .ok drawn =>
      { lines := .text s!"Diagram: {path}" :: statistics drawn.diagram ++ [phaseLine drawn.diagram], files := w.files }

def policyText : TimeoutPolicy → String
  | .symmetric => "Symmetric"
  | .secondOnly => "SecondOnly"

def opening (s : Settings) (tasks : List Task) : List Line :=
  [.text (s!"→ Running {tasks.length} tasks with {s.workers} workers " ++
      s!"({s.timeoutSeconds}s timeout, {policyText s.timeoutPolicy})"),
    .text s!"  Solver: {s.solver}", .text s!"  Diagrams: {s.inputDir}", .text s!"  Results: {s.outputDir}"]

def closing (s : Settings) (summary : Summary) : List Line :=
  let missing := summary.failedTasks.length
  .finished summary :: (if missing = 0 then [] else [.text s!"  {missing} tasks produced no result file"]) ++
    [.text s!"  Summary: {Files.join s.outputDir summaryFile}"]

-- The settings of a run: what is loaded, with the overrides of the command line on top.
def settings (w : World) (config : Option String) (overrides : Settings.Overrides) :
    Except (List String) Settings := do
  let s ← (Settings.load w.files w.environment config).mapError fun e => ["Failed to load configuration", e.message]
  let s := s.override overrides
  s.validate.mapError fun e => [e.message]
  pure s

def run (w : World) (config : Option String) (overrides : Settings.Overrides) : Report :=
  match settings w config overrides with
  | .error causes => failed w.files causes
  | .ok s =>
    match Task.grid s w.entropy with
    | .error _ => aborted w.files
    | .ok tasks =>
      let ran := Run.ofTasks s (Solver.ofProgram s.solver) tasks w.files
      match ran.summary with
      | .error e => failed ran.files e.causes (opening s tasks)
      | .ok summary => { lines := opening s tasks ++ closing s summary, files := ran.files }

def answer (w : World) : Request → Report
  | .version => { lines := [.text versionText], files := w.files }
  | .generate circuit output => generate w circuit output
  | .show circuit => showCircuit w circuit
  | .inspect file => inspect w file
  | .run config overrides => run w config overrides

def execute (w : World) (args : List String) : Report :=
  match parse? args with
  | none => refused w.files
  | some request => answer w request

end ToffoliBench.Command

import ToffoliBench.Circuit.Builder
import ToffoliBench.Circuit.Column
import ToffoliBench.Circuit.Error
import ToffoliBench.Circuit.Fragment
import ToffoliBench.Circuit.Sequence
import ToffoliBench.Command.Arguments
import ToffoliBench.Command.Basic
import ToffoliBench.Command.Report
import ToffoliBench.Decimal.Reading
import ToffoliBench.Decimal.Rounded
import ToffoliBench.Decimal.Shortest
import ToffoliBench.Diagram.Basic
import ToffoliBench.Diagram.Compose
import ToffoliBench.Diagram.Error
import ToffoliBench.Diagram.Plug
import ToffoliBench.Diagram.Star
import ToffoliBench.Diagram.Vertex
import ToffoliBench.Drawing.Error
import ToffoliBench.Drawing.Reading
import ToffoliBench.Drawing.Token
import ToffoliBench.Drawing.Writing
import ToffoliBench.Exchange.Circuit
import ToffoliBench.Exchange.Diagram
import ToffoliBench.Exchange.Reading
import ToffoliBench.Exchange.Run
import ToffoliBench.Fault
import ToffoliBench.Files.Basic
import ToffoliBench.Files.Path
import ToffoliBench.Fraction
import ToffoliBench.Json
import ToffoliBench.Main
import ToffoliBench.Phase
import ToffoliBench.Proofs.Circuit.Action
import ToffoliBench.Proofs.Circuit.Calls
import ToffoliBench.Proofs.Circuit.Collector
import ToffoliBench.Proofs.Circuit.Contents
import ToffoliBench.Proofs.Circuit.Gadget
import ToffoliBench.Proofs.Circuit.Gates
import ToffoliBench.Proofs.Circuit.Legs
import ToffoliBench.Proofs.Circuit.Lines
import ToffoliBench.Proofs.Circuit.Register
import ToffoliBench.Proofs.Circuit.Requests
import ToffoliBench.Proofs.Circuit.Resolved
import ToffoliBench.Proofs.Circuit.Roles
import ToffoliBench.Proofs.Circuit.Toffoli
import ToffoliBench.Proofs.Circuit.Unitary
import ToffoliBench.Proofs.Circuit.Validity
import ToffoliBench.Proofs.Diagram.Append
import ToffoliBench.Proofs.Diagram.AtOnce
import ToffoliBench.Proofs.Diagram.Category
import ToffoliBench.Proofs.Diagram.Composition
import ToffoliBench.Proofs.Diagram.Contraction
import ToffoliBench.Proofs.Diagram.Dangling
import ToffoliBench.Proofs.Diagram.Depiction
import ToffoliBench.Proofs.Diagram.Disjoint
import ToffoliBench.Proofs.Diagram.Failure
import ToffoliBench.Proofs.Diagram.Fusion
import ToffoliBench.Proofs.Diagram.Growth
import ToffoliBench.Proofs.Diagram.Interchange
import ToffoliBench.Proofs.Diagram.Lanes
import ToffoliBench.Proofs.Diagram.Net
import ToffoliBench.Proofs.Diagram.Plugging
import ToffoliBench.Proofs.Diagram.Reached
import ToffoliBench.Proofs.Diagram.Recast
import ToffoliBench.Proofs.Diagram.Resolution
import ToffoliBench.Proofs.Diagram.Sewing
import ToffoliBench.Proofs.Diagram.Shapes
import ToffoliBench.Proofs.Diagram.Sound
import ToffoliBench.Proofs.Diagram.Stars
import ToffoliBench.Proofs.Diagram.Stock
import ToffoliBench.Proofs.Diagram.Straight
import ToffoliBench.Proofs.Diagram.Strands
import ToffoliBench.Proofs.Diagram.Upkeep
import ToffoliBench.Proofs.Diagram.WellFormed
import ToffoliBench.Proofs.Diagram.Wiring
import ToffoliBench.Proofs.Drawing.Acceptance
import ToffoliBench.Proofs.Drawing.Borders
import ToffoliBench.Proofs.Drawing.Crash
import ToffoliBench.Proofs.Drawing.Declaration
import ToffoliBench.Proofs.Drawing.Drafting
import ToffoliBench.Proofs.Drawing.Ending
import ToffoliBench.Proofs.Drawing.Grammar
import ToffoliBench.Proofs.Drawing.Numbering
import ToffoliBench.Proofs.Drawing.Reload
import ToffoliBench.Proofs.Drawing.RoundTrip
import ToffoliBench.Proofs.Drawing.Scanning
import ToffoliBench.Proofs.Drawing.Sheet
import ToffoliBench.Proofs.Drawing.Statements
import ToffoliBench.Proofs.Drawing.Tokens
import ToffoliBench.Proofs.Files.Following
import ToffoliBench.Proofs.Files.Naming
import ToffoliBench.Proofs.Meaning.Bits
import ToffoliBench.Proofs.Meaning.Composition
import ToffoliBench.Proofs.Meaning.Contract
import ToffoliBench.Proofs.Meaning.Diagram
import ToffoliBench.Proofs.Meaning.Functoriality
import ToffoliBench.Proofs.Meaning.Growth
import ToffoliBench.Proofs.Meaning.Projection
import ToffoliBench.Proofs.Meaning.Resolution
import ToffoliBench.Proofs.Numbers.Arithmetic
import ToffoliBench.Proofs.Numbers.Binary
import ToffoliBench.Proofs.Numbers.Fraction
import ToffoliBench.Proofs.Numbers.Grid
import ToffoliBench.Proofs.Numbers.Normal
import ToffoliBench.Proofs.Numbers.Overflow
import ToffoliBench.Proofs.Numbers.Rounding
import ToffoliBench.Proofs.Numbers.Scientific
import ToffoliBench.Proofs.Numbers.Shortest
import ToffoliBench.Proofs.Numbers.Stored
import ToffoliBench.Proofs.Numbers.Turn
import ToffoliBench.Proofs.Numbers.Unsigned
import ToffoliBench.Proofs.Outcome
import ToffoliBench.Proofs.Random.Draws
import ToffoliBench.Proofs.Random.Subsets
import ToffoliBench.Proofs.Recipe.Feasibility
import ToffoliBench.Proofs.Recipe.Placement
import ToffoliBench.Proofs.Recipe.Shape
import ToffoliBench.Proofs.Run.Apart
import ToffoliBench.Proofs.Run.Check
import ToffoliBench.Proofs.Run.Delivery
import ToffoliBench.Proofs.Run.Interleaving
import ToffoliBench.Proofs.Run.Scene
import ToffoliBench.Proofs.Settings.Precedence
import ToffoliBench.Proofs.Settings.RoundTrip
import ToffoliBench.Proofs.Settings.Validity
import ToffoliBench.Proofs.Task.Cells
import ToffoliBench.Proofs.Task.Grid
import ToffoliBench.Proofs.Task.Names
import ToffoliBench.Proofs.Text.Decimals
import ToffoliBench.Proofs.Text.Marked
import ToffoliBench.Proofs.Text.Numerals
import ToffoliBench.Proofs.Text.Rereading
import ToffoliBench.Proofs.Yaml.Literal
import ToffoliBench.Proofs.Yaml.Mapping
import ToffoliBench.Proofs.Yaml.Plain
import ToffoliBench.Proofs.Yaml.Quoted
import ToffoliBench.Proofs.Yaml.Values
import ToffoliBench.Proofs.Yaml.Walking
import ToffoliBench.Random.Draw
import ToffoliBench.Random.Source
import ToffoliBench.Random.Subset
import ToffoliBench.Recipe.Basic
import ToffoliBench.Recipe.Benchmark
import ToffoliBench.Run.Basic
import ToffoliBench.Run.Summary
import ToffoliBench.Run.Tasks
import ToffoliBench.Scalar
import ToffoliBench.Settings.Basic
import ToffoliBench.Settings.Layers
import ToffoliBench.Settings.Reading
import ToffoliBench.Settings.Writing
import ToffoliBench.Shell.Arithmetic
import ToffoliBench.Shell.Command
import ToffoliBench.Shell.Reading
import ToffoliBench.Shell.Running
import ToffoliBench.Shell.State
import ToffoliBench.Shell.Utility
import ToffoliBench.Solver.Outcome
import ToffoliBench.Solver.Program
import ToffoliBench.Task.Basic
import ToffoliBench.Task.Grid
import ToffoliBench.Text.Blank
import ToffoliBench.Text.Integer
import ToffoliBench.Text.Utf8
import ToffoliBench.Yaml.Cursor
import ToffoliBench.Yaml.Node
import ToffoliBench.Yaml.Reading
import ToffoliBench.Yaml.Scalar
import ToffoliBench.Yaml.Tag
import ToffoliBench.Yaml.Writing

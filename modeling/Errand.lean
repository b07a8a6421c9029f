import Errand.Board.Audit
import Errand.Board.Backoff
import Errand.Board.Basic
import Errand.Board.Error
import Errand.Board.Pool
import Errand.Board.Task
import Errand.Chance
import Errand.Console
import Errand.Definition.Expr
import Errand.Definition.Scenario
import Errand.Definition.Statement
import Errand.Definition.Task
import Errand.Effect
import Errand.Entity
import Errand.Error
import Errand.Format.Scenario
import Errand.Format.Script
import Errand.Format.Settings
import Errand.Format.Value
import Errand.Json.Basic
import Errand.Json.Lexical
import Errand.Json.Parser
import Errand.Json.Printer
import Errand.Json.Range
import Errand.Json.Skip
import Errand.Main
import Errand.Nearest
import Errand.Numeral
import Errand.Position
import Errand.Proofs.Board.Accounting
import Errand.Proofs.Board.Audit
import Errand.Proofs.Board.Backoff
import Errand.Proofs.Board.Calls
import Errand.Proofs.Board.Dispatch
import Errand.Proofs.Board.Frame
import Errand.Proofs.Board.Integrity
import Errand.Proofs.Board.Ledger
import Errand.Proofs.Board.Links
import Errand.Proofs.Board.Order
import Errand.Proofs.Board.Postings
import Errand.Proofs.Board.Refusal
import Errand.Proofs.Board.Rounds
import Errand.Proofs.Board.Scripted
import Errand.Proofs.Board.Setup
import Errand.Proofs.Board.Sound
import Errand.Proofs.Board.Staffing
import Errand.Proofs.Board.Tick
import Errand.Proofs.Board.Upkeep
import Errand.Proofs.Board.View
import Errand.Proofs.Effect
import Errand.Proofs.Format.Fields
import Errand.Proofs.Format.RoundTrip
import Errand.Proofs.Run.Breaks
import Errand.Proofs.Run.Chain
import Errand.Proofs.Run.Choice
import Errand.Proofs.Run.Confined
import Errand.Proofs.Run.Failures
import Errand.Proofs.Run.Frame
import Errand.Proofs.Run.Halting
import Errand.Proofs.Run.Kinds
import Errand.Proofs.Run.Latch
import Errand.Proofs.Run.Meaning
import Errand.Proofs.Run.Moves
import Errand.Proofs.Run.Reach
import Errand.Proofs.Run.Resume
import Errand.Proofs.Run.Rules
import Errand.Proofs.Run.Selection
import Errand.Proofs.Run.Slicing
import Errand.Proofs.Run.Steps
import Errand.Proofs.Run.Tracking
import Errand.Proofs.Run.Walk
import Errand.Proofs.Script.Faults
import Errand.Proofs.Script.Flattening
import Errand.Proofs.Script.Layout
import Errand.Proofs.Script.Links
import Errand.Proofs.Script.Numbering
import Errand.Proofs.Script.Placement
import Errand.Proofs.Script.Points
import Errand.Proofs.Script.Trail
import Errand.Proofs.World.Bearing
import Errand.Proofs.World.Calls
import Errand.Proofs.World.Evolution
import Errand.Proofs.World.Extent
import Errand.Proofs.World.Itinerary
import Errand.Proofs.World.Journey
import Errand.Proofs.World.Neighbourhood
import Errand.Proofs.World.OpenGround
import Errand.Proofs.World.Stock
import Errand.Proofs.World.Turn
import Errand.Run.Closed
import Errand.Run.Error
import Errand.Run.Eval
import Errand.Run.Loop
import Errand.Run.Perform
import Errand.Run.Program
import Errand.Run.State
import Errand.Run.Steps
import Errand.Scenario
import Errand.Script.Arena
import Errand.Script.Basic
import Errand.Script.Check
import Errand.Script.Marks
import Errand.Script.Site
import Errand.Settings
import Errand.Simulation
import Errand.Text.Blank
import Errand.Text.Column
import Errand.Value
import Errand.World.Basic
import Errand.World.Canned
import Errand.World.Grid

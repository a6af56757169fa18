import CueFlow.Catalog
import CueFlow.Character
import CueFlow.Command
import CueFlow.Command.Change
import CueFlow.Command.Signature
import CueFlow.Config
import CueFlow.Decimal.Layout
import CueFlow.Decimal.Shortest
import CueFlow.Digraph
import CueFlow.Digraph.Component
import CueFlow.Digraph.Schedule
import CueFlow.Document.Config
import CueFlow.Document.ConfigFile
import CueFlow.Document.Edit
import CueFlow.Document.GraphState
import CueFlow.Document.LocalLoop
import CueFlow.Document.Schema
import CueFlow.Document.SchemaFile
import CueFlow.Document.Value
import CueFlow.Engine
import CueFlow.Engine.Compute
import CueFlow.Engine.Deliver
import CueFlow.Engine.Host
import CueFlow.Engine.Run
import CueFlow.Engine.Tick
import CueFlow.Engine.TickLoop
import CueFlow.Error
import CueFlow.Folder
import CueFlow.Graph
import CueFlow.Graph.Edit
import CueFlow.Graph.Load
import CueFlow.Inspect
import CueFlow.Json
import CueFlow.Json.Decode
import CueFlow.Json.Numeral
import CueFlow.Json.Printer
import CueFlow.Json.Reader
import CueFlow.KeyMap
import CueFlow.Main
import CueFlow.Node
import CueFlow.Override
import CueFlow.Partition.AssetRef
import CueFlow.Partition.Identity
import CueFlow.Partition.LocalLoop
import CueFlow.Partition.Patch
import CueFlow.Partition.Policy
import CueFlow.Plan
import CueFlow.Port
import CueFlow.Proofs.Command.Canonical
import CueFlow.Proofs.Command.Change
import CueFlow.Proofs.Command.Discrete
import CueFlow.Proofs.Command.KeyText
import CueFlow.Proofs.Decimal
import CueFlow.Proofs.Decimal.Nearest
import CueFlow.Proofs.Decimal.Rounding
import CueFlow.Proofs.Decimal.Value
import CueFlow.Proofs.Digraph.Acyclic
import CueFlow.Proofs.Digraph.Component
import CueFlow.Proofs.Digraph.Schedule
import CueFlow.Proofs.Digraph.WorkStack
import CueFlow.Proofs.Document.ConfigFile
import CueFlow.Proofs.Document.GraphState
import CueFlow.Proofs.Document.Value
import CueFlow.Proofs.Engine.Aggregation
import CueFlow.Proofs.Engine.Alike
import CueFlow.Proofs.Engine.CallResult
import CueFlow.Proofs.Engine.Calls
import CueFlow.Proofs.Engine.ColdStart
import CueFlow.Proofs.Engine.CommandCeiling
import CueFlow.Proofs.Engine.Computation
import CueFlow.Proofs.Engine.ComputePass
import CueFlow.Proofs.Engine.ContinuousCommands
import CueFlow.Proofs.Engine.Dataflow
import CueFlow.Proofs.Engine.Entries
import CueFlow.Proofs.Engine.FailClosed
import CueFlow.Proofs.Engine.FreshLoad
import CueFlow.Proofs.Engine.Gather
import CueFlow.Proofs.Engine.Halt
import CueFlow.Proofs.Engine.HeldOverrides
import CueFlow.Proofs.Engine.HookCalls
import CueFlow.Proofs.Engine.HookFailures
import CueFlow.Proofs.Engine.HostView
import CueFlow.Proofs.Engine.Idempotence
import CueFlow.Proofs.Engine.InPlace
import CueFlow.Proofs.Engine.Influence
import CueFlow.Proofs.Engine.InsertionOrder
import CueFlow.Proofs.Engine.Lifecycle
import CueFlow.Proofs.Engine.LoopProtocol
import CueFlow.Proofs.Engine.Mirror
import CueFlow.Proofs.Engine.Muted
import CueFlow.Proofs.Engine.Newcomer
import CueFlow.Proofs.Engine.NoUpdateLost
import CueFlow.Proofs.Engine.NodeTick
import CueFlow.Proofs.Engine.OverrideTrace
import CueFlow.Proofs.Engine.Padding
import CueFlow.Proofs.Engine.PlanFidelity
import CueFlow.Proofs.Engine.Receipt
import CueFlow.Proofs.Engine.Record
import CueFlow.Proofs.Engine.SafeEdits
import CueFlow.Proofs.Engine.Sight
import CueFlow.Proofs.Engine.SinkPass
import CueFlow.Proofs.Engine.Tally
import CueFlow.Proofs.Engine.Tick
import CueFlow.Proofs.Engine.TickWrites
import CueFlow.Proofs.Engine.TriedEdits
import CueFlow.Proofs.Engine.Turn
import CueFlow.Proofs.Engine.Veil
import CueFlow.Proofs.Engine.Watched
import CueFlow.Proofs.Graph.Additions
import CueFlow.Proofs.Graph.AgreesOff
import CueFlow.Proofs.Graph.ClosedPart
import CueFlow.Proofs.Graph.Edit
import CueFlow.Proofs.Graph.Padding
import CueFlow.Proofs.Graph.Part
import CueFlow.Proofs.Graph.Recast
import CueFlow.Proofs.Graph.Reload
import CueFlow.Proofs.Graph.Reorder
import CueFlow.Proofs.Graph.Rewrite
import CueFlow.Proofs.Graph.Setting
import CueFlow.Proofs.Graph.Skeleton
import CueFlow.Proofs.Graph.Snapshot
import CueFlow.Proofs.Graph.Sound
import CueFlow.Proofs.Graph.Stale
import CueFlow.Proofs.Graph.Unique
import CueFlow.Proofs.Graph.Valid
import CueFlow.Proofs.Graph.Version
import CueFlow.Proofs.Graph.Wired
import CueFlow.Proofs.Json.Decode
import CueFlow.Proofs.Json.Indented
import CueFlow.Proofs.Json.Numeral
import CueFlow.Proofs.Override.Refinement
import CueFlow.Proofs.Partition.AssetOrder
import CueFlow.Proofs.Partition.AssetRef
import CueFlow.Proofs.Partition.Deployment
import CueFlow.Proofs.Partition.Feedback
import CueFlow.Proofs.Partition.HashedBytes
import CueFlow.Proofs.Partition.Identity
import CueFlow.Proofs.Partition.LocalLoop
import CueFlow.Proofs.Partition.LoopExport
import CueFlow.Proofs.Partition.Patch
import CueFlow.Proofs.Partition.PatchOrder
import CueFlow.Proofs.Partition.PatchRetrace
import CueFlow.Proofs.Partition.PatchWalk
import CueFlow.Proofs.Partition.SelfContained
import CueFlow.Proofs.Plan
import CueFlow.Proofs.Plan.Circle
import CueFlow.Proofs.Plan.Cycle
import CueFlow.Proofs.Plan.Order
import CueFlow.Proofs.Plan.Routing
import CueFlow.Proofs.Toml.Document
import CueFlow.Proofs.Toml.Number
import CueFlow.Proofs.Toml.Text
import CueFlow.Proofs.Watchdog.Alternation
import CueFlow.Proofs.Watchdog.Oscillation
import CueFlow.Proofs.Watchdog.PlaceScan
import CueFlow.Proofs.Watchdog.Recent
import CueFlow.Script
import CueFlow.Toml
import CueFlow.Toml.Decode
import CueFlow.Toml.Moment
import CueFlow.Toml.Number
import CueFlow.Toml.Printer
import CueFlow.Toml.Quoting
import CueFlow.Toml.Reader
import CueFlow.Toml.Space
import CueFlow.Toml.Text
import CueFlow.Value
import CueFlow.Watchdog

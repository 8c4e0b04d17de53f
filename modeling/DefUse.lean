import DefUse.Program.Variable
import DefUse.Program.Point
import DefUse.Association.Basic
import DefUse.Config.Settings
import DefUse.Bits
import DefUse.Fault
import DefUse.Graph.Digraph
import DefUse.Graph.Reach
import DefUse.Program.Basic
import DefUse.Association.Block
import DefUse.Sorted
import DefUse.Association.Heap
import DefUse.Association.Set
import DefUse.Graph.Edge
import DefUse.Iterate
import DefUse.Flow.Equations
import DefUse.Flow.Local
import DefUse.Graph.Components
import DefUse.Flow.Formals
import DefUse.Log
import DefUse.Order.Oracle
import DefUse.Association.Build
import DefUse.Graph.Dominance
import DefUse.Order.GraphOrder
import DefUse.Path.Expr
import DefUse.Graph.BackEdges
import DefUse.Graph.SinkOrder
import DefUse.Path.Numbering
import DefUse.Path.Engine
import DefUse.Stats
import DefUse.Analyze
import DefUse.Config.FileName
import DefUse.Text.Fold
import DefUse.Pattern.Basic
import DefUse.Pattern.Extent
import DefUse.Text.Hex
import DefUse.Text.Category
import DefUse.Text.Script
import DefUse.Pattern.NamedClass
import DefUse.Pattern.Reader
import DefUse.Text.Utf8
import DefUse.Text.Quoted
import DefUse.Config.Basic
import DefUse.Config.FileTree
import DefUse.Text.Base64
import DefUse.Numeral.Rounded
import DefUse.Numeral.Written
import DefUse.Yaml.Moment
import DefUse.Yaml.Cursor
import DefUse.Yaml.Readable
import DefUse.Yaml.ScalarText
import DefUse.Yaml.TagText
import DefUse.Yaml.Token
import DefUse.Yaml.Tree
import DefUse.Yaml.Scalar
import DefUse.Yaml.Fields
import DefUse.Config.Fields
import DefUse.Document.Basic
import DefUse.Document.Json
import DefUse.Document.JsonReader
import DefUse.Document.MessagePack
import DefUse.Report.Basic
import DefUse.Report.Fields
import DefUse.Text.Paint
import DefUse.Report.Plain
import DefUse.Report.Format
import DefUse.Document.Access
import DefUse.Program.Edit
import DefUse.Program.Finalize
import DefUse.Source.Position
import DefUse.Text.Blank
import DefUse.Source.Directive
import DefUse.Source.Symbol
import DefUse.Source.Syntax
import DefUse.Source.FlowGraph
import DefUse.Source.Effects
import DefUse.Source.Model
import DefUse.Source.Load
import DefUse.Source.Exchange
import DefUse.Command
import DefUse.Keyed
import DefUse.Main
import DefUse.Path.Store
import DefUse.Program.Blueprint
import DefUse.Text.Operand
import DefUse.Proofs.Graph.Walk
import DefUse.Proofs.Graph.Reach
import DefUse.Proofs.Graph.Components
import DefUse.Proofs.Graph.Dominance
import DefUse.Proofs.Iterate
import DefUse.Proofs.Rounds
import DefUse.Proofs.Flow.Equations
import DefUse.Proofs.Program.Finalized
import DefUse.Proofs.Flow.Reading
import DefUse.Proofs.Flow.Local
import DefUse.Proofs.Sorted
import DefUse.Proofs.Flow.Formals
import DefUse.Proofs.Association.Build
import DefUse.Proofs.Association.Exact
import DefUse.Proofs.Association.Order
import DefUse.Proofs.Association.Inferred
import DefUse.Proofs.Association.HardKills
import DefUse.Proofs.Association.Run
import DefUse.Proofs.Association.Kills
import DefUse.Proofs.Association.ReadingNode
import DefUse.Proofs.Association.Composition
import DefUse.Proofs.Association.Monotone
import DefUse.Proofs.Association.Reordered
import DefUse.Proofs.Graph.SinkOrder
import DefUse.Proofs.Graph.BackEdges
import DefUse.Proofs.Path.Acyclic
import DefUse.Proofs.Path.Counting
import DefUse.Proofs.Path.Numbering
import DefUse.Proofs.Path.Sets
import DefUse.Proofs.Path.Expr
import DefUse.Proofs.Path.Equations
import DefUse.Proofs.Path.Segments
import DefUse.Proofs.Path.Exact
import DefUse.Proofs.Path.Run
import DefUse.Proofs.Path.Cap
import DefUse.Proofs.Path.Walks
import DefUse.Proofs.Path.Connections
import DefUse.Proofs.Path.Agreement
import DefUse.Proofs.Path.Departing
import DefUse.Graph.DominatorTree
import DefUse.Order.DominatorOrder
import DefUse.Proofs.Graph.Forest
import DefUse.Proofs.Graph.ImmediateDominator
import DefUse.Proofs.Graph.DominatorTree
import DefUse.Proofs.Order.Exact
import DefUse.Proofs.Order.DominatorOrder
import DefUse.Proofs.Execution.Basic
import DefUse.Proofs.Execution.Reachability
import DefUse.Proofs.Execution.Tracing
import DefUse.Proofs.Execution.Coverage
import DefUse.Proofs.Association.SameBlock
import DefUse.Proofs.Association.SliceSearch
import DefUse.Proofs.Association.Slice
import DefUse.Proofs.Association.Heap
import DefUse.Proofs.Text.Utf8
import DefUse.Proofs.Document.Basic
import DefUse.Proofs.Document.Json
import DefUse.Proofs.Document.MessagePack
import DefUse.Proofs.Document.Reader
import DefUse.Proofs.Report.RoundTrip
import DefUse.Proofs.Graph.CycleCut
import DefUse.Proofs.Graph.Condensation
import DefUse.Proofs.Program.Edited
import DefUse.Proofs.Program.Placed
import DefUse.Proofs.Program.CallPass
import DefUse.Proofs.Source.FlowGraph
import DefUse.Proofs.Source.Procedure
import DefUse.Proofs.Source.Load
import DefUse.Proofs.Flow.Passes
import DefUse.Proofs.Flow.Killers
import DefUse.Proofs.Association.Summaries
import DefUse.Proofs.Path.Conservation
import DefUse.Proofs.Path.Algebra
import DefUse.Proofs.Association.Positions
import DefUse.Proofs.Association.Blocks
import DefUse.Proofs.Association.BlockSearch
import DefUse.Proofs.Source.BlockWalks
import DefUse.Proofs.Association.Canonical
import DefUse.Proofs.Source.Parts
import DefUse.Proofs.Source.Reads
import DefUse.Proofs.Source.Visit

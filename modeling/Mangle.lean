import Mangle.Machinery.HashMap
import Mangle.Machinery.Collect
import Mangle.Machinery.Search
import Mangle.Machinery.ByteReader
import Mangle.Machinery.Table
import Mangle.Machinery.OrdSet
import Mangle.Machinery.Support
import Mangle.Machinery.Text
import Mangle.Machinery.Intervals
import Mangle.Value
import Mangle.ValueOrder
import Mangle.Ir
import Mangle.Parse.Quote
import Mangle.Parse.Scan
import Mangle.Parse.Lookahead
import Mangle.Parse.Unquote
import Mangle.Parse.Literal
import Mangle.Parse.Parser
import Mangle.Parse.Display
import Mangle.Parse.Fact
import Mangle.Parse.FactCut
import Mangle.Db.SimpleRow
import Mangle.Db.SimpleRowCut
import Mangle.Db.CacheJson
import Mangle.Db.CacheFiles
import Mangle.Store.Cell
import Mangle.Store.MemStore
import Mangle.Store.Tiers
import Mangle.Store.Indexes
import Mangle.Store.SetSemantics
import Mangle.Store.Coalesce
import Mangle.Store.CoalesceLoss
import Mangle.Store.DiskStore
import Mangle.Store.DiskSound
import Mangle.Store.DiskRefines
import Mangle.Store.DiskDurable
import Mangle.Interpreter.Function
import Mangle.Interpreter.Exec
import Mangle.Codegen.Expr
import Mangle.Codegen.RelationId
import Mangle.Semantics.Denote
import Mangle.Semantics.Simulation
import Mangle.Semantics.Failure
import Mangle.Semantics.Satisfaction
import Mangle.Semantics.Insertion
import Mangle.Semantics.LeastModel
import Mangle.Planner.Delay
import Mangle.Planner.DelayOrder
import Mangle.Planner.Plan
import Mangle.Planner.Emit
import Mangle.Planner.Plans
import Mangle.Planner.Atoms
import Mangle.Planner.Correct
import Mangle.Planner.Aggregation
import Mangle.Planner.SingleRule
import Mangle.Planner.Negation
import Mangle.Analysis.Bindings
import Mangle.Analysis.BindingsSound
import Mangle.Analysis.Rename
import Mangle.Analysis.Rotation
import Mangle.Machinery.Trie
import Mangle.Analysis.NameTrie
import Mangle.Analysis.Stratification
import Mangle.Analysis.StratificationSound
import Mangle.Driver.Execute
import Mangle.Driver.Batch
import Mangle.Driver.SemiNaive
import Mangle.Driver.Compile
import Mangle.Driver.Agree
import Mangle.Driver.Targets
import Mangle.Driver.FactProgram
import Mangle.Proto.Value
import Mangle.Proto.Command
import Mangle.Proto.Batch
import Mangle.Wal.Codec
import Mangle.Wal.LogStore
import Mangle.Raft.Wire
import Mangle.Db.Predicate
import Mangle.Db.Database
import Mangle.Db.Facts
import Mangle.Db.FileSource
import Mangle.Db.View
import Mangle.Db.Reload
import Mangle.Db.Sound
import Mangle.Db.OrderFree
import Mangle.Db.Inverse
import Mangle.Db.ReloadFailure
import Mangle.Db.Provenance
import Mangle.Server.SnapshotFiles
import Mangle.Server.ProgramStore
import Mangle.Server.Query
import Mangle.Server.Ledger
import Mangle.Server.Apply
import Mangle.Server.Classify
import Mangle.Server.Accounting
import Mangle.Server.Replay
import Mangle.Server.Migration
import Mangle.Server.Abstract
import Mangle.Server.Snapshot
import Mangle.Server.Atomicity
import Mangle.Server.Recovery
import Mangle.Engine.Naive
import Mangle.Engine.NaiveExact
import Mangle.Ffi.Derivation

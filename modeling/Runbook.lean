import Runbook.Book
import Runbook.Edge
import Runbook.Fault
import Runbook.Graph
import Runbook.Json
import Runbook.Json.Binary64
import Runbook.Json.Document
import Runbook.Json.Printer
import Runbook.Json.Reader
import Runbook.Json.Record
import Runbook.Ledger
import Runbook.Ledger.Call
import Runbook.Ledger.Gates
import Runbook.Ledger.Pool
import Runbook.Ledger.Traffic
import Runbook.Ledger.World
import Runbook.Node
import Runbook.Proofs.AlikeWorlds
import Runbook.Proofs.Alone
import Runbook.Proofs.Books
import Runbook.Proofs.BranchPaths
import Runbook.Proofs.Branches
import Runbook.Proofs.CausalChain
import Runbook.Proofs.Chains
import Runbook.Proofs.Components
import Runbook.Proofs.Concerns
import Runbook.Proofs.Deletions
import Runbook.Proofs.DerivedEdges
import Runbook.Proofs.DerivedNames
import Runbook.Proofs.DiskWork
import Runbook.Proofs.EdgeNames
import Runbook.Proofs.EdgeRemoval
import Runbook.Proofs.Events
import Runbook.Proofs.Expansion
import Runbook.Proofs.ExpansionSteps
import Runbook.Proofs.FieldOrder
import Runbook.Proofs.FirstWays
import Runbook.Proofs.FolderNames
import Runbook.Proofs.Forms
import Runbook.Proofs.Frames
import Runbook.Proofs.FreshEdges
import Runbook.Proofs.Gates
import Runbook.Proofs.Highlights
import Runbook.Proofs.InFlight
import Runbook.Proofs.Inference
import Runbook.Proofs.Inlining
import Runbook.Proofs.Interchange
import Runbook.Proofs.JoinedSteps
import Runbook.Proofs.LiveRuns
import Runbook.Proofs.Locks
import Runbook.Proofs.NestedStates
import Runbook.Proofs.NodeOrder
import Runbook.Proofs.NodeRemoval
import Runbook.Proofs.Noninterference
import Runbook.Proofs.PathInvariant
import Runbook.Proofs.PrefixTree
import Runbook.Proofs.Presence
import Runbook.Proofs.Primary
import Runbook.Proofs.Progress
import Runbook.Proofs.Refresh
import Runbook.Proofs.Replay
import Runbook.Proofs.Reruns
import Runbook.Proofs.SavedApart
import Runbook.Proofs.SavedBooks
import Runbook.Proofs.SavedSessions
import Runbook.Proofs.ScopedMethods
import Runbook.Proofs.Splices
import Runbook.Proofs.StaleRecords
import Runbook.Proofs.StaleSteps
import Runbook.Proofs.StepNames
import Runbook.Proofs.StepRemoval
import Runbook.Proofs.StoreAgreement
import Runbook.Proofs.Stores
import Runbook.Proofs.Turns
import Runbook.Proofs.Updates
import Runbook.Proofs.Worlds
import Runbook.Proofs.WrappedMethods
import Runbook.Proofs.WrittenJson
import Runbook.Relations
import Runbook.Runner
import Runbook.Script
import Runbook.Session
import Runbook.Session.Path
import Runbook.Settings
import Runbook.Snapshot
import Runbook.Store
import Runbook.Store.Archive
import Runbook.Store.Component
import Runbook.Store.Disk
import Runbook.Store.Memory
import Runbook.Table
import Runbook.Text.Blank
import Runbook.Text.Capital
import Runbook.Text.Lines
import Runbook.Text.Numeral
import Runbook.Text.Printable
import Runbook.Text.Quoted
import Runbook.Text.Run
import Runbook.Time
import Runbook.Tree
import Runbook.Workspace

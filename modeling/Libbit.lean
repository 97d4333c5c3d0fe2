import Libbit.Lib.Dag
import Libbit.Lib.Forest
import Libbit.Lib.Eff
import Libbit.Lib.Join
import Libbit.Lib.MergeJoin
import Libbit.Lib.Codec
import Libbit.Lib.Search
import Libbit.Lib.Chase
import Libbit.MergeBase
import Libbit.MergeBaseInvariant
import Libbit.MergeBaseExact
import Libbit.RevWalk
import Libbit.RevWalkSpec
import Libbit.Path
import Libbit.Obj
import Libbit.Worktree
import Libbit.Index
import Libbit.Iter
import Libbit.Diff
import Libbit.Repo
import Libbit.Checkout
import Libbit.Merge
import Libbit.Frame
import Libbit.WorktreeSpec
import Libbit.IndexSpec
import Libbit.TreeSpec
import Libbit.CacheSpec
import Libbit.DiffSpec
import Libbit.Refresh
import Libbit.IndexRun
import Libbit.TreeFiles
import Libbit.NameOrder
import Libbit.WriteTree
import Libbit.Listing
import Libbit.WalkSpec
import Libbit.WalkExact
import Libbit.DiffExact
import Libbit.ReadTree
import Libbit.Clean
import Libbit.VirtualBase
import Libbit.ContentMerge
import Libbit.ChangeDetection
import Libbit.WorktreeOrder
import Libbit.AddAll
import Libbit.MergeStaged
import Libbit.CheckoutConflict
import Libbit.MergeAbort
import Libbit.IndexFile
import Libbit.IndexFileSpec
import Libbit.IndexFileFormat
import Libbit.PackIndex
import Libbit.PackIndexSpec
import Libbit.Delta
import Libbit.Pack
import Libbit.PackSpec
import Libbit.DeltaSpec
import Libbit.DeltaUntrusted
import Libbit.Lib.Numeration
import Libbit.PackNumbers
import Libbit.Inflate
import Libbit.PackRead
import Libbit.PackIndexing
import Libbit.PackChains
import Libbit.Lib.Hex
import Libbit.Lib.Text
import Libbit.Lib.Utf8
import Libbit.Lib.BufWriter
import Libbit.Odb
import Libbit.OdbSpec
import Libbit.Lockfile
import Libbit.LockfileSpec
import Libbit.Signature
import Libbit.CommitFormat
import Libbit.CommitFormatSpec
import Libbit.CommitReencode
import Libbit.Lib.Radix
import Libbit.TreeFormat
import Libbit.TreeFormatSpec
import Libbit.TreeCache
import Libbit.TreeCacheSpec
import Libbit.PackIndexFormat
import Libbit.Protocol
import Libbit.ProtocolSpec
import Libbit.RecvPack
import Libbit.RecvPackSpec
import Libbit.Reflog
import Libbit.Refs
import Libbit.RefsSpec
import Libbit.ReflogSpec
import Libbit.RefResolve
import Libbit.LockConflicts
import Libbit.Transport
import Libbit.TransportSpec
import Libbit.RefDiscovery
import Libbit.Revspec
import Libbit.RevspecGrammar
import Libbit.Lib.Stepper
import Libbit.Topological
import Libbit.Lib.EditGraph
import Libbit.Myers
import Libbit.TreeIterators
import Libbit.TreeIteratorsSpec
import Libbit.IndexIterator
import Libbit.StepOver
import Libbit.IndexMatchesTree
import Libbit.WalkEntries
import Libbit.DiffConsumers
import Libbit.DiffConsumersSpec
import Libbit.DiffWorktree
import Libbit.Lib.BufRead
import Libbit.HashReader
import Libbit.DiffStat
import Libbit.Pathspec
import Libbit.Commands
import Libbit.History
import Libbit.Snapshot
import Libbit.Objects
import Libbit.ObjectsSpec
import Libbit.Fetch
import Libbit.FetchSpec
import Libbit.MergeHistory
import Libbit.Revision
import Libbit.LockRuns
import Libbit.StatusSpec
import Libbit.CheckoutPasses
import Libbit.DiffOrder
import Libbit.CheckoutSafety

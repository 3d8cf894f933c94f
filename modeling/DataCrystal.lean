import DataCrystal.Lib.Dict
import DataCrystal.Lib.Bisect
import DataCrystal.Value
import DataCrystal.Schema
import DataCrystal.Permissions
import DataCrystal.Lib.Raise
import DataCrystal.Lib.Run
import DataCrystal.Lib.Walk
import DataCrystal.Lib.Postings
import DataCrystal.Errors
import DataCrystal.Condition
import DataCrystal.Index.ClassIndexes
import DataCrystal.Records
import DataCrystal.Index.Represents
import DataCrystal.Index.Build
import DataCrystal.Index.Planner
import DataCrystal.Index.Agreement
import DataCrystal.Index.Readable
import DataCrystal.Classes
import DataCrystal.Heap
import DataCrystal.Storage
import DataCrystal.Index.Manager
import DataCrystal.Index.Reverse
import DataCrystal.Index.Orderly
import DataCrystal.Index.SortedRun
import DataCrystal.Index.Holders
import DataCrystal.Index.Extents
import DataCrystal.Store
import DataCrystal.Graph
import DataCrystal.Hydration
import DataCrystal.Writes
import DataCrystal.Commit
import DataCrystal.Runs
import DataCrystal.Steps
import DataCrystal.Coherent
import DataCrystal.Phases
import DataCrystal.Invariance
import DataCrystal.Fence
import DataCrystal.Birth
import DataCrystal.Walked
import DataCrystal.Refused
import DataCrystal.Hints
import DataCrystal.Discovered
import DataCrystal.Delta
import DataCrystal.Lib.Item
import DataCrystal.ReferenceApplier
import DataCrystal.Watching
import DataCrystal.Scanned
import DataCrystal.Families
import DataCrystal.Lockstep
import DataCrystal.Rows
import DataCrystal.References
import DataCrystal.Dangling
import DataCrystal.Index.Cached
import DataCrystal.Index.Deferred
import DataCrystal.Index.Recovered
import DataCrystal.Unique
import DataCrystal.Folding
import DataCrystal.Indexed
import DataCrystal.Sessions
import DataCrystal.UniqueKeys
import DataCrystal.TypeRows
import DataCrystal.Rebuilt
import DataCrystal.Served
import DataCrystal.Held
import DataCrystal.Snapshot
import DataCrystal.SnapshotPool
import DataCrystal.Submissions
import DataCrystal.FullText
import DataCrystal.FullTextAgreement
import DataCrystal.Fenced
import DataCrystal.Follower
import DataCrystal.Replica
import DataCrystal.Converge
import DataCrystal.Shown
import DataCrystal.Resync
import DataCrystal.Lib.Frames
import DataCrystal.Lib.Disk
import DataCrystal.DeltaLog
import DataCrystal.Segments
import DataCrystal.Flushing
import DataCrystal.LogCrash
import DataCrystal.Replayable
import DataCrystal.Lib.Newest
import DataCrystal.Mirror
import DataCrystal.MirrorFiles
import DataCrystal.MirrorFlush
import DataCrystal.MirrorCrash
import DataCrystal.MirrorUse
import DataCrystal.MirrorRows
import DataCrystal.MirrorFold
import DataCrystal.MirrorLedger
import DataCrystal.Loads
import DataCrystal.Loading
import DataCrystal.Attached
import DataCrystal.Detached
import DataCrystal.Requests
import DataCrystal.Isolated
import DataCrystal.Lease
import DataCrystal.SingleWriter
import DataCrystal.Lib.Digits
import DataCrystal.Temporal
import DataCrystal.DecimalText
import DataCrystal.Codec
import DataCrystal.Lib.Pairings
import DataCrystal.RoundTrip
import DataCrystal.Upserts
import DataCrystal.Lib.Crc
import DataCrystal.Lib.Slices
import DataCrystal.Backends
import DataCrystal.BackendAgreement
import DataCrystal.Evolution
import DataCrystal.Verifying
import DataCrystal.Migration
import DataCrystal.Migrated
import DataCrystal.Lib.Rounding
import DataCrystal.Columns
import DataCrystal.Promotion
import DataCrystal.Lossless
import DataCrystal.Lib.Paging
import DataCrystal.Index.Ordered
import DataCrystal.Windows
import DataCrystal.StoreReads
import DataCrystal.SnapshotReads
import DataCrystal.Confined
import DataCrystal.Tracked
import DataCrystal.Siblings
import DataCrystal.Index.Remembered
import DataCrystal.Checkpoint

import Pondra.Base.Machine
import Pondra.Base.Walk
import Pondra.Locks.Table
import Pondra.Locks.Settle
import Pondra.Locks.Invariant
import Pondra.Locks.Operations
import Pondra.Locks.Runs
import Pondra.Locks.Waits
import Pondra.Locks.Deadlock
import Pondra.Locks.Gate
import Pondra.Base.Bytes
import Pondra.Replica.Frame
import Pondra.Replica.Stream
import Pondra.Replica.Files
import Pondra.Replica.Reload
import Pondra.Replica.Kept
import Pondra.Replica.Runs
import Pondra.Base.Versions
import Pondra.Store.Follower
import Pondra.Store.Overlay
import Pondra.Store.Snapshot
import Pondra.Store.Forward
import Pondra.Base.Dict
import Pondra.Log.Flush
import Pondra.Log.Window
import Pondra.Log.Commit
import Pondra.Base.Ladder
import Pondra.Log.Answers
import Pondra.Log.Expire
import Pondra.Log.Once
import Pondra.Base.Removals
import Pondra.Log.Send
import Pondra.Log.Places
import Pondra.Log.Resend
import Pondra.Log.Pass
import Pondra.Log.Hold
import Pondra.Log.Still
import Pondra.Log.SentBack
import Pondra.Base.Paging
import Pondra.Store.Pages
import Pondra.Txns.Kept
import Pondra.Txns.Shown
import Pondra.Txns.Commit
import Pondra.Txns.Leader
import Pondra.Txns.Unlost
import Pondra.Page.History
import Pondra.Columns.Made
import Pondra.Columns.Rows
import Pondra.Columns.Written
import Pondra.Columns.InStep
import Pondra.Base.Newest
import Pondra.Change.Upserts
import Pondra.Change.Merge
import Pondra.Change.Taken
import Pondra.Change.OnKey
import Pondra.Change.Merged
import Pondra.Tier.Floors
import Pondra.Base.Grouped
import Pondra.Views.Emitted
import Pondra.Views.Join
import Pondra.Views.Pairs
import Pondra.Base.Gaps
import Pondra.Views.Cut
import Pondra.Views.Closed
import Pondra.Base.Foremost
import Pondra.Tier.Keyed
import Pondra.Tier.Line
import Pondra.Tier.Rounds
import Pondra.Tier.Folds
import Pondra.Tier.Reads
import Pondra.Tier.Merges
import Pondra.Tier.Survive
import Pondra.Terms.Claims
import Pondra.Terms.Superseded
import Pondra.Base.Slots
import Pondra.Ranges.Cuts
import Pondra.Ranges.Slices
import Pondra.Ranges.Partition
import Pondra.Groups.Generations
import Pondra.Groups.Assigned
import Pondra.Log.InOrder
import Pondra.Kafka.Produce
import Pondra.Kafka.Idempotent
import Pondra.Base.Search
import Pondra.Kafka.Consume
import Pondra.Kafka.Fetched
import Pondra.Kafka.Consumer
import Pondra.Tasks.Task
import Pondra.Tasks.Once
import Pondra.Base.Recency
import Pondra.Ledger.ByteLru
import Pondra.Ledger.LakePool
import Pondra.Base.Gray
import Pondra.Base.Curve
import Pondra.Base.Sources
import Pondra.Cluster.Hilbert
import Pondra.Cluster.Sort
import Pondra.Branch.Pins
import Pondra.Branch.Stays
import Pondra.Copy.Loads
import Pondra.Copy.Recorded
import Pondra.Runs.Moments
import Pondra.Runs.Graph
import Pondra.Runs.Ticks
import Pondra.Runs.InOrder
import Pondra.Records.Buffer
import Pondra.Base.Edges
import Pondra.OrRanges.Bounds
import Pondra.OrRanges.Merged
import Pondra.Matches.Cuts
import Pondra.Matches.Points
import Pondra.Matches.Rounds
import Pondra.Avg
import Pondra.Base.Months
import Pondra.Matcher.Within
import Pondra.Txns.Index
import Pondra.Txns.Agrees
import Pondra.Txns.Lasts
import Pondra.Txns.Answered
import Pondra.Base.Least
import Pondra.Manifests.Ranges
import Pondra.Manifests.Sealing
import Pondra.Manifests.Found
import Pondra.Manifests.Runs
import Pondra.Watermark.Newest
import Pondra.Watermark.Exact
import Pondra.Watermark.Runs
import Pondra.Watermark.Forward
import Pondra.Tier.Positions
import Pondra.Tier.Published
import Pondra.Tier.Positioned
import Pondra.Base.Hex
import Pondra.Bytea
import Pondra.Base.Frames
import Pondra.Shuffle.Spill
import Pondra.Shuffle.Filled
import Pondra.Shuffle.Hops
import Pondra.Shuffle.Moved
import Pondra.Shuffle.Runs
import Pondra.Query.Tail
import Pondra.Query.Tails
import Pondra.Base.Slices
import Pondra.Base.Roaring
import Pondra.Scan.Roaring
import Pondra.Base.Radix
import Pondra.Scan.Vectors
import Pondra.Scan.Kept
import Pondra.Query.Newest
import Pondra.Query.Grouped
import Pondra.Query.Ways
import Pondra.Query.Reads
import Pondra.Avro.Json
import Pondra.Avro.Writer
import Pondra.Avro.Typed
import Pondra.Avro.RoundTrip
import Pondra.Budget
import Pondra.Base.Lending
import Pondra.Rerun
import Pondra.Base.Selection
import Pondra.Base.Varint
import Pondra.Median.Native
import Pondra.Median.Chunked
import Pondra.Median.Runs
import Pondra.Wire.Rd
import Pondra.Wire.Batches
import Pondra.Wire.RoundTrip
import Pondra.Wire.Fetches
import Pondra.Iceberg.Alter
import Pondra.Iceberg.Asked
import Pondra.Iceberg.Steps
import Pondra.Iceberg.Exact
import Pondra.Base.Counters
import Pondra.Base.Words
import Pondra.Sequences.Take
import Pondra.Sequences.Held
import Pondra.Sequences.Nodes
import Pondra.Sequences.Distinct
import Pondra.Sequences.Runs
import Pondra.Base.Decimals
import Pondra.RowIds.Batch
import Pondra.RowIds.Slices
import Pondra.RowIds.Lasting
import Pondra.RowIds.Decoded
import Pondra.RowIds.Handed

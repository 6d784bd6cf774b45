import SeriesStore.Bits.Basic
import SeriesStore.Bits.Reader
import SeriesStore.Bits.Varint
import SeriesStore.Bits.Writer
import SeriesStore.Bytes
import SeriesStore.Bytes.Crc32
import SeriesStore.Chunk.Basic
import SeriesStore.Chunk.Closed
import SeriesStore.Chunk.Cursor
import SeriesStore.Chunk.Damage
import SeriesStore.Chunk.Interval
import SeriesStore.Chunk.Parser
import SeriesStore.Chunk.Stream
import SeriesStore.Chunk.Window
import SeriesStore.CommandLine.Arguments
import SeriesStore.CommandLine.Output
import SeriesStore.CommandLine.Reach
import SeriesStore.CommandLine.Run
import SeriesStore.Compaction.Choice
import SeriesStore.Compaction.Error
import SeriesStore.Compaction.ForceMerge
import SeriesStore.Compaction.SizeTiered
import SeriesStore.Compaction.Strategy
import SeriesStore.Compaction.Tiers
import SeriesStore.Config.Basic
import SeriesStore.Config.Environment
import SeriesStore.Config.Printer
import SeriesStore.Config.Reader
import SeriesStore.Config.Template
import SeriesStore.Datum
import SeriesStore.Disk.Basic
import SeriesStore.Disk.Path
import SeriesStore.Disk.Tree
import SeriesStore.Engine
import SeriesStore.Error
import SeriesStore.Index.Basic
import SeriesStore.Index.Listing
import SeriesStore.Index.Manifest
import SeriesStore.Json.Printer
import SeriesStore.Json.Reader
import SeriesStore.Log.Locks
import SeriesStore.Log.RateLimit
import SeriesStore.Log.Retention
import SeriesStore.Main
import SeriesStore.Segment.Basic
import SeriesStore.Segment.Header
import SeriesStore.Segment.Layout
import SeriesStore.Settings.Basic
import SeriesStore.Settings.Listeners
import SeriesStore.Tags
import SeriesStore.Text.Blank
import SeriesStore.Text.Decimal
import SeriesStore.Text.Hex
import SeriesStore.Text.Printable
import SeriesStore.Text.Quoted
import SeriesStore.Text.Shortest
import SeriesStore.Time.Calendar
import SeriesStore.Time.Clamp
import SeriesStore.Time.Duration
import SeriesStore.Time.Instant
import SeriesStore.Time.Instant.Parser
import SeriesStore.Time.Range
import SeriesStore.Time.Resolution
import SeriesStore.Toml.Document
import SeriesStore.Toml.Number
import SeriesStore.Toml.Printer
import SeriesStore.Toml.Reader
import SeriesStore.Toml.Text
import SeriesStore.Uid
import SeriesStore.Proofs.Bits.Fields
import SeriesStore.Proofs.Chunk.AnyBytes
import SeriesStore.Proofs.Chunk.Cuts
import SeriesStore.Proofs.Chunk.Growth
import SeriesStore.Proofs.Compaction.Absorbing
import SeriesStore.Proofs.Compaction.Amplification
import SeriesStore.Proofs.Compaction.Copies
import SeriesStore.Proofs.Compaction.ListingOrder
import SeriesStore.Proofs.Compaction.ProtectedWindow
import SeriesStore.Proofs.Compaction.RollBack
import SeriesStore.Proofs.Compaction.SafePlans
import SeriesStore.Proofs.Compaction.Selection
import SeriesStore.Proofs.Compaction.Stalling
import SeriesStore.Proofs.Compaction.Tiers
import SeriesStore.Proofs.Compaction.TimeOrder
import SeriesStore.Proofs.Compaction.Units
import SeriesStore.Proofs.Config.RoundTrip
import SeriesStore.Proofs.Index.Foreign
import SeriesStore.Proofs.Index.InPlace
import SeriesStore.Proofs.Index.Recovery
import SeriesStore.Proofs.Log.Criteria
import SeriesStore.Proofs.Log.Keeping
import SeriesStore.Proofs.Log.Rate
import SeriesStore.Proofs.Log.Trimming
import SeriesStore.Proofs.Segment.Counts
import SeriesStore.Proofs.Segment.Damage
import SeriesStore.Proofs.Settings.Following
import SeriesStore.Proofs.Settings.History
import SeriesStore.Proofs.Settings.Rejection
import SeriesStore.Proofs.Settings.Scheduling

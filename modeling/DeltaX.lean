import DeltaX.Support.KeySpan
import DeltaX.Support.IeeeOrder
import DeltaX.Support.Numbering
import DeltaX.Support.ByteBits
import DeltaX.Support.ListLookup
import DeltaX.Support.Machine
import DeltaX.Column.Typed
import DeltaX.Column.Collect
import DeltaX.Stats.Encoding
import DeltaX.Schema.Columns
import DeltaX.Schema.Resolution
import DeltaX.Schema.Restore
import DeltaX.Schema.StatsIndex
import DeltaX.Scan.MinMax
import DeltaX.Scan.FloatPruning
import DeltaX.Stats.Colstats
import DeltaX.Stats.Bloom
import DeltaX.Scan.IntClassify
import DeltaX.Scan.PointLookup
import DeltaX.Partition.State
import DeltaX.Partition.Flush
import DeltaX.Partition.Streaming
import DeltaX.Partition.CollectedRows
import DeltaX.Partition.StreamingRows
import DeltaX.Partition.Steps
import DeltaX.Partition.Content
import DeltaX.Partition.Counters
import DeltaX.Partition.SegmentIds
import DeltaX.Partition.ValmapText
import DeltaX.Partition.Valbitmap
import DeltaX.Partition.ValbitmapPruning
import DeltaX.Support.KeyedMerge
import DeltaX.Agg.GroupKeys
import DeltaX.Agg.Accumulators
import DeltaX.Agg.Workers
import DeltaX.Scan.QualNodes
import DeltaX.Schema.Companions
import DeltaX.Support.Selection
import DeltaX.Agg.TopN
import DeltaX.Agg.Speculative
import DeltaX.Support.Extremes
import DeltaX.Agg.Pushdown
import DeltaX.Agg.Represented
import DeltaX.Agg.PushdownPlans
import DeltaX.Agg.Having
import DeltaX.Support.Wildcard
import DeltaX.Support.Utf8
import DeltaX.Scan.LikeMatch
import DeltaX.Scan.BatchFilter
import DeltaX.Scan.WhereGate
import DeltaX.Scan.TombstoneDelete
import DeltaX.Copy.LineReader
import DeltaX.Copy.TextRows
import DeltaX.Support.GuardedCounters
import DeltaX.Agg.CountingFilter
import DeltaX.Support.IndexedStore
import DeltaX.Agg.CompactTables
import DeltaX.Agg.CountFloor
import DeltaX.Support.Calendar
import DeltaX.Column.Timeparse
import DeltaX.Column.TimestampParse
import DeltaX.Column.TimestampRoundTrip
import DeltaX.Schema.TimestampLiterals
import DeltaX.Scan.SegmentPruning
import DeltaX.Scan.TemporalPruning
import DeltaX.Support.LittleEndian
import DeltaX.Support.Delimited
import DeltaX.Scan.CondPayload
import DeltaX.Scan.CondFingerprint
import DeltaX.Support.Memory
import DeltaX.Scan.AppendWire
import DeltaX.Support.StrictFold
import DeltaX.Agg.PartialEmit
import DeltaX.Agg.MetadataFastPath
import DeltaX.Agg.MetadataRows
import DeltaX.Agg.MetadataExact
import DeltaX.Support.LinkedCells
import DeltaX.BlobCache.Storage
import DeltaX.BlobCache.Invariant
import DeltaX.Codec.GorillaFloats
import DeltaX.Codec.GorillaTimestamps
import DeltaX.Codec.Bitpacked
import DeltaX.Codec.Integer
import DeltaX.Codec.DictionaryRows
import DeltaX.Codec.Lz4Blocked
import DeltaX.Codec.NumericScaled
import DeltaX.Support.IeeeRounding
import DeltaX.Codec.CompressedColumn
import DeltaX.Scan.DictPruning
import DeltaX.Agg.ReplacementTemplate
import DeltaX.Agg.ExtractKey
import DeltaX.Agg.SegmentValues
import DeltaX.Support.WildcardGaps
import DeltaX.Scan.LikeExact
import DeltaX.Support.SameSide
import DeltaX.Scan.BatchComparison
import DeltaX.Partition.Intervals
import DeltaX.Partition.Bounds
import DeltaX.Support.Interning
import DeltaX.Agg.DictDistinct
import DeltaX.Copy.FieldParsers
import DeltaX.Copy.FieldPaths
import DeltaX.Support.Placement
import DeltaX.Agg.AccLayout
import DeltaX.Agg.PartialWire
import DeltaX.Support.OrderedRegex
import DeltaX.Agg.SimplePattern
import DeltaX.Agg.AreReading
import DeltaX.Agg.PatternReading
import DeltaX.Agg.PatternMeaning
import DeltaX.Agg.SimpleReplace
import DeltaX.Agg.PatternAgreement
import DeltaX.BlobCache.Eviction
import DeltaX.BlobCache.Insertion
import DeltaX.BlobCache.Runs
import DeltaX.Codec.BlobRoundTrip
import DeltaX.Scan.CountStar
import DeltaX.Column.Columns
import DeltaX.Copy.Backfill
import DeltaX.Copy.Loading
import DeltaX.Copy.PipelineRuns
import DeltaX.Agg.TopNAnswers
import DeltaX.Partition.LiteralRows

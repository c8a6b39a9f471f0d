import F3Format.Lib.Bytes
import F3Format.Lib.Act
import F3Format.Lib.Trace
import F3Format.Lib.Cutting
import F3Format.Lib.Placement
import F3Format.Lib.Logged
import F3Format.Lib.Wire
import F3Format.Errors
import F3Format.Arrow
import F3Format.Footer
import F3Format.Env
import F3Format.Context
import F3Format.EncUnit
import F3Format.Lib.KeyIndex
import F3Format.Dict
import F3Format.SharedDictionary
import F3Format.DictionaryTable
import F3Format.EncoderPhysical
import F3Format.EncoderLogical
import F3Format.SampleEnv
import F3Format.Writer
import F3Format.DecoderPhysical
import F3Format.UnitReading
import F3Format.DictionaryIndices
import F3Format.DecoderLogical
import F3Format.Reader
import F3Format.EncoderRuns
import F3Format.RowGroupReuse
import F3Format.EncodedUnits
import F3Format.UnitLabels
import F3Format.LocalDictionaries
import F3Format.EncoderScopes
import F3Format.FileLayout
import F3Format.WriterRuns
import F3Format.BuilderRoutes
import F3Format.BuilderStrategies
import F3Format.ArraySlices
import F3Format.ColumnCalls
import F3Format.ColumnNumbering
import F3Format.NestedTypes
import F3Format.RowWalk
import F3Format.ColumnArrays
import F3Format.RowRanges
import F3Format.FailedBatches
import F3Format.PointAccess
import F3Format.ReadLog
import F3Format.VerifiedReads
import F3Format.MalformedUnits
import F3Format.MalformedColumns
import F3Format.MalformedFiles
import F3Format.ColumnProjection
import F3Format.FlatColumns
import F3Format.FlatReading
import F3Format.CustomUnitLengths
import F3Format.SelectedGroups
import F3Format.DictionaryMerging
import F3Format.Lib.Ledger
import F3Format.WasmInstance
import F3Format.BlockDiscipline
import F3Format.WasmRuntime
import F3Format.InstancePool
import F3Format.Lib.Exits
import F3Format.GuestLaws
import F3Format.CopyingGuest
import F3Format.OutstandingIterators
import F3Format.Lib.SortedKeys
import F3Format.WasmIds
import F3Format.Lib.Windows
import F3Format.ArrowBuffers
import F3Format.IndexUnits
import F3Format.IndexDecoding
import F3Format.Checksums
import F3Format.RecordedSizes
import F3Format.FlatRoundTrip
import F3Format.RowSelection
import F3Format.Kwargs
import F3Format.BottomKSketch
import F3Format.DictionaryGrowth
import F3Format.BitPacking
import F3Format.WindowedDictionary
import F3Format.VortexFraming
import F3Format.BufferExchange
import F3Format.WriterSteps
import F3Format.DictionaryScopes
import F3Format.StoredDictionaries
import F3Format.IndexWidths
import F3Format.Lib.Meetings
import F3Format.DictionarySharing
import F3Format.SharingStatistics
import F3Format.EncodingCounters
import F3Format.Lib.Paths
import F3Format.WriterTrace
import F3Format.ChunkContents
import F3Format.ColumnJournal
import F3Format.SharedRoundTrip
import F3Format.TableRoundTrip
import F3Format.RowGroupTiling

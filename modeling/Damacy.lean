import Damacy.Lib.RowMajor
import Damacy.Lib.Odometer
import Damacy.Lib.ExceptFold
import Damacy.Types
import Damacy.Query.Selection
import Damacy.Query.SelectionGrid
import Damacy.Query.SelectionSpans
import Damacy.Query.SpanPartition
import Damacy.Dtype.Convert
import Damacy.Dtype.Saturate
import Damacy.Zarr.Metadata
import Damacy.Lib.LinearProbe
import Damacy.Planner.PlanBuilder
import Damacy.Planner.ShardEnumeration
import Damacy.Planner.PlanCapacity
import Damacy.Planner.PlanInvariant
import Damacy.Planner.PlanSizes
import Damacy.Planner.PlanStorage
import Damacy.Lib.WriteLog
import Damacy.Executor.CpuAssemble
import Damacy.Executor.RegionWrites
import Damacy.Executor.PlanUses
import Damacy.Planner.PlanLinks
import Damacy.Executor.BatchContent
import Damacy.Lib.BoxCount
import Damacy.Lib.Scatter
import Damacy.Lib.RoundRobin
import Damacy.Lib.CountingSort
import Damacy.Executor.ReadOpSort
import Damacy.Lib.RangeSort
import Damacy.Executor.ReadOpOrder
import Damacy.Lib.BoundedReads
import Damacy.Executor.PermMachine
import Damacy.Executor.Coalesce
import Damacy.Executor.Dispatch
import Damacy.Executor.CudaAssemble
import Damacy.Lib.Blocks
import Damacy.Executor.Unshuffle
import Damacy.Executor.KernelWrites
import Damacy.Executor.DispatchSpec
import Damacy.Lib.LittleEndian
import Damacy.Executor.UseWrites
import Damacy.Executor.CudaBatch
import Damacy.BatchPool.Layout
import Damacy.Lib.Atomic
import Damacy.Lib.ProbeTable
import Damacy.Util.Lru
import Damacy.Util.LruIndex
import Damacy.Util.LruInvariant
import Damacy.Util.LruOps
import Damacy.Util.LruRuns
import Damacy.Prefetch.PrefetchCache
import Damacy.Prefetch.CacheInvariant
import Damacy.Prefetch.CacheOps
import Damacy.Prefetch.CacheMiss
import Damacy.Prefetch.CacheRuns
import Damacy.Lib.JsonText
import Damacy.Lib.JsonString
import Damacy.Util.Json
import Damacy.Util.JsonLex
import Damacy.Util.JsonResolve
import Damacy.Util.JsonIter
import Damacy.Util.JsonNumber
import Damacy.Util.JsonBody
import Damacy.Util.JsonWhere
import Damacy.Util.JsonCursor
import Damacy.Util.JsonBounds
import Damacy.Util.JsonSafety
import Damacy.Zarr.Parse
import Damacy.Zarr.Document
import Damacy.Zarr.Describe
import Damacy.Zarr.CodecSupport
import Damacy.Zarr.ChunkKey
import Damacy.Lib.Packing
import Damacy.Executor.MergedReads
import Damacy.Executor.EmissionOrder
import Damacy.Executor.MergedUnion
import Damacy.Executor.ReadGroups
import Damacy.Lib.LongestRuns
import Damacy.Executor.ReadRuns
import Damacy.Executor.RunGroups
import Damacy.RenderJob.Reserve
import Damacy.Wave.WaveBudget
import Damacy.Wave.SizingSearch
import Damacy.Wave.ParseChunks
import Damacy.Wave.NextWave
import Damacy.Wave.CudaPlan
import Damacy.Wave.IndexCapacity
import Damacy.Wave.WaveWindows
import Damacy.Lib.ByteWrites
import Damacy.Executor.CpuDecode
import Damacy.Wave.BatchWaves
import Damacy.Wave.WaveDecode
import Damacy.Wave.Uncompressed
import Damacy.Lib.RingBuffer
import Damacy.IoQueue.IoQueue
import Damacy.IoQueue.Retired
import Damacy.Store.FsSubmit
import Damacy.Store.FsContract
import Damacy.Lib.Crc
import Damacy.Util.Crc32c
import Damacy.Zarr.ShardIndex
import Damacy.Zarr.FillValue
import Damacy.Zarr.HalfRounding
import Damacy.Ngff.ReadString
import Damacy.Util.JsonWriter
import Damacy.Lib.LexicalPath
import Damacy.Ngff.Levels

import Damacy.Executor.Coalesce
import Damacy.Lib.CountingSort
import Damacy.Planner.PlanBuilder

/-!
# Dispatching a plan to the GPU (`executor/dispatch.c`, `executor/group_chunks.c`)

`dispatchPlanBuild` re-encodes a plan for the assemble kernel. Every region becomes a sample plan
with relative bounds, strides and packed index lists; every use becomes a chunk plan with a read.
The reads are then merged, and the chunk plans are grouped by the read they come from.

Quantities of type `int64_t` are integers here. They are products of extents and offsets of the
batch and of a chunk, which the layout of the batch and the limits of the planner keep in range.
-/

open ExceptFold

namespace Damacy

/-! ## Data -/

structure GatherIndex where
  source : ℕ
  output : ℕ
deriving DecidableEq, Repr

structure GatherDim where
  begin_ : ℕ
  count : ℕ
  outputBegin : ℕ
deriving DecidableEq, Repr

structure SampleDim where
  chunkShape : ℕ
  chunkGridExtent : ℕ
  indexOffset : ℕ
  indexCount : ℕ
  aabbLoRelative : ℤ
  aabbExtent : ℤ
  dstStride : ℤ
  srcStride : ℤ
deriving DecidableEq, Repr

/-- `struct sample_plan`; its rank is the length of `dims`. -/
structure SamplePlan where
  batchPoolSlot : ℕ
  sampleIdxInBatch : ℕ
  srcDtype : Dtype
  indexed : Bool
  dims : List SampleDim
  sampleDstOffElems : ℤ
  fillValue : ℕ
deriving DecidableEq, Repr

/-- `struct chunk_plan`, without the places in the host and device buffers, which are assigned
later. -/
structure ChunkPlan where
  readOpIdx : ℕ
  offsetInRead : ℕ
  compressedNbytes : ℕ
  decompressedNbytes : ℕ
  gatherOffset : ℕ
  batchPoolSlot : ℕ
  sampleIdxInBatch : ℕ
  codecId : Codec
  isFill : Bool
  chunkD : List ℕ
deriving DecidableEq, Repr

structure ReadOpGroup where
  readOpIdx : ℕ
  firstChunk : ℕ
  nChunks : ℕ
  totalDecompressed : ℕ
deriving DecidableEq, Repr

/-- The capacities of `struct dispatch_output`; arrays that may be `NULL` are present or not. -/
structure DispatchCaps where
  chunkPlans : ℕ
  readOps : ℕ
  samplePlans : ℕ
  readOpGroups : ℕ
  groupsPresent : Bool
  indices : ℕ
  indicesPresent : Bool
  gatherDims : ℕ
  indices_lt : indices < 2 ^ 32 := by decide
  gatherDims_lt : gatherDims < 2 ^ 32 := by decide

/-- The numbers that `dispatch_plan_build` is called with. -/
structure DispatchArgs where
  slot : ℕ
  alignment : ℕ
  maxReadBytes : ℕ
  maxChunksPerWave : ℕ
  alignment_lt : alignment < 2 ^ 64 := by decide

/-- The contents of `struct dispatch_output`. -/
structure DispatchOutput where
  readOps : List ReadOp
  chunkPlans : List ChunkPlan
  samplePlans : List SamplePlan
  readOpGroups : List ReadOpGroup
  indices : List GatherIndex
  gatherDims : List GatherDim
  nChunksToLoad : ℕ
  nLoadsIssued : ℕ
deriving DecidableEq

/-- The calls that can fail for lack of memory: interning the path of a use's chunk, and reserving
scratch. -/
structure DispatchMemory where
  internOk : ℕ → Bool
  scratchOk : Bool

/-! ## Sample plans -/

/-- The strides of a sample, from the last axis to the first; entry `d` is the number of elements
of one step along axis `d` of the batch. -/
def dispatchStrides : List ℤ → List ℤ
  | [] => [1]
  | extent :: rest => (dispatchStrides rest).headD 1 * extent :: dispatchStrides rest

/-- What the loop over the axes of a region reads of one axis. -/
structure RegionAxis where
  dim : QueryDim
  zarr : ZarrDim
  extent : ℤ
  stride : ℤ

def regionAxes (output : BatchSpec) (region : PlanRegion) (metadata : ZarrMetadata) :
    List RegionAxis :=
  List.zipWith (fun (d : QueryDim × ZarrDim) (s : ℤ × ℤ) => ⟨d.1, d.2, s.1, s.2⟩)
    (region.dims.zip metadata.dims)
    (output.sampleShape.zip (dispatchStrides output.sampleShape).tail)

/-- The packed indices of an axis: source indices relative to their chunk. -/
def axisIndices (a : RegionAxis) : List GatherIndex :=
  a.dim.indices.map fun e => ⟨u32 (e.source % a.zarr.innerChunkShape), e.output⟩

def sampleDim (a : RegionAxis) (sourceStride : ℤ) (indexOffset : ℕ) : SampleDim :=
  let chunk := a.zarr.innerChunkShape
  let begin_ := u64OfInt a.dim.bounds.beg / chunk
  let stop := u64Sub (u64OfInt a.dim.bounds.stop) 1 / chunk + 1
  { chunkShape := u32 chunk
    chunkGridExtent := if a.dim.count ≠ 0 then 0 else u32 (u64Sub stop begin_)
    indexOffset
    indexCount := a.dim.count
    aabbLoRelative := a.dim.bounds.beg - u64 (begin_ * chunk)
    aabbExtent := a.extent
    dstStride := a.stride
    srcStride := sourceStride }

/-- The loop over the axes of a region, from the last to the first, with the source stride and the
packed indices so far. -/
def sampleDims (caps : DispatchCaps) :
    List RegionAxis → List GatherIndex → Except Status (List SampleDim × ℤ × List GatherIndex)
  | [], indices => .ok ([], 1, indices)
  | a :: rest, indices => do
    let r ← sampleDims caps rest indices
    failIf (caps.indices - r.2.2.length < a.dim.count) .budget
    failIf (a.dim.count ≠ 0 ∧ caps.indicesPresent = false) .inval
    return (sampleDim a r.2.1 r.2.2.length :: r.1, r.2.1 * a.zarr.innerChunkShape,
      r.2.2 ++ axisIndices a)

def samplePlan (slot : ℕ) (strides : List ℤ) (region : PlanRegion) (metadata : ZarrMetadata)
    (dims : List SampleDim) : SamplePlan :=
  { batchPoolSlot := slot
    sampleIdxInBatch := region.sample % 2 ^ 16
    srcDtype := metadata.dtype
    indexed := region.operation = .gather
    dims
    sampleDstOffElems := region.sample * strides.headD 1
    fillValue := metadata.fillValue }

def dispatchRegion (plan : PreparedPlan) (slot : ℕ) (caps : DispatchCaps)
    (s : List SamplePlan × List GatherIndex) (region : PlanRegion) :
    Except Status (List SamplePlan × List GatherIndex) :=
  match plan.arrays[region.array]? with
  | none => .error .inval
  | some array => do
    let r ← sampleDims caps (regionAxes plan.output region array.metadata) s.2
    return (s.1.set region.sample (samplePlan slot (dispatchStrides plan.output.sampleShape) region
      array.metadata r.1), r.2.2)

/-! ## Chunk plans -/

/-- The relative coordinate of a chunk along one axis of a copied region. -/
def relativeChunk (dim : QueryDim) (d : ZarrDim) (coordinate : ℕ) : ℕ :=
  u32 (u64Sub coordinate (u64OfInt dim.bounds.beg / d.innerChunkShape))

def gatherDim (dim : QueryDim) (d : ZarrDim) (coordinate indexOffset : ℕ) : GatherDim :=
  let origin := u64 (coordinate * d.innerChunkShape)
  let span := queryChunkSpan dim origin d.innerChunkShape
  { begin_ := if dim.count ≠ 0 then u32 (indexOffset + u32 span.begin_)
      else u32 (u64Sub span.begin_ origin)
    count := u32 span.count
    outputBegin := if dim.count ≠ 0 then 0 else u64Sub span.begin_ (u64OfInt dim.bounds.beg) }

def chunkGatherDims (region : PlanRegion) (metadata : ZarrMetadata) (coordinate : List ℕ)
    (dims : List SampleDim) : List GatherDim :=
  List.zipWith (fun (d : QueryDim × ZarrDim) (c : ℕ × SampleDim) =>
    gatherDim d.1 d.2 c.1 c.2.indexOffset) (region.dims.zip metadata.dims) (coordinate.zip dims)

/-- The read of a chunk, aligned, and the offset of the chunk in it; the path of use `i` is interned,
and a `NULL` path is not. -/
def dispatchRead (mem : DispatchMemory) (alignment i : ℕ) (chunk : PlanChunk) :
    Except Status (ReadOp × ℕ) :=
  if chunk.missing then .ok (ReadOp.blank, 0)
  else do
    let start := chunk.offset / alignment * alignment
    let stop := u64 (chunk.offset + chunk.encodedBytes)
    failIf (uint64Max - alignment + 1 < stop) .decode
    let aligned := (stop + alignment - 1) / alignment * alignment
    failIf (uint32Max < u64Sub aligned start) .decode
    failIf (chunk.path = none ∨ mem.internOk i = false) .oom
    return (⟨chunk.path, start, u32 (u64Sub aligned start)⟩, u32 (u64Sub chunk.offset start))

/-- The reads, the chunk plans and the gather dims so far. -/
structure DispatchUses where
  reads : List ReadOp
  chunkPlans : List ChunkPlan
  gatherDims : List GatherDim

def useRecords (plan : PreparedPlan) (use : PlanUse) :
    Option (PlanChunk × PlanRegion × PlanArray) := do
  let chunk ← plan.chunks[use.chunk]?
  let region ← plan.regions[use.region]?
  let array ← plan.arrays[chunk.array]?
  return (chunk, region, array)

def dispatchUse (mem : DispatchMemory) (plan : PreparedPlan) (slot alignment : ℕ)
    (caps : DispatchCaps) (samplePlans : List SamplePlan) (s : DispatchUses) (item : PlanUse × ℕ) :
    Except Status DispatchUses :=
  match useRecords plan item.1 with
  | none => .error .inval
  | some (chunk, region, array) =>
    match samplePlans[region.sample]? with
    | none => .error .inval
    | some sample => do
      let rank := array.metadata.dims.length
      failIf (sample.indexed ∧ caps.gatherDims - s.gatherDims.length < rank) .budget
      let read ← dispatchRead mem alignment item.2 chunk
      let chunkPlan : ChunkPlan :=
        { readOpIdx := item.2
          offsetInRead := read.2
          compressedNbytes := chunk.encodedBytes
          decompressedNbytes := chunk.decodedBytes
          gatherOffset := if sample.indexed then s.gatherDims.length else 0
          batchPoolSlot := slot
          sampleIdxInBatch := region.sample % 2 ^ 16
          codecId := if chunk.missing then .fill else array.metadata.innerCodec
          isFill := chunk.missing
          chunkD := if sample.indexed then array.metadata.dims.map fun _ => 0
            else List.zipWith (fun (d : QueryDim × ZarrDim) c => relativeChunk d.1 d.2 c)
              (region.dims.zip array.metadata.dims) chunk.coordinate }
      return { reads := s.reads ++ [read.1]
               chunkPlans := s.chunkPlans ++ [chunkPlan]
               gatherDims := s.gatherDims ++ if sample.indexed then
                 chunkGatherDims region array.metadata chunk.coordinate sample.dims else [] }

/-! ## Merging and grouping -/

/-- The loop of `coalesce_chunks` over the chunk plans. -/
def coalesceChunk (readIndex offsetInRead : List ℕ) (cp : ChunkPlan) : Except Status ChunkPlan := do
  let sum := cp.offsetInRead + offsetInRead.getD cp.readOpIdx 0
  failIf (cp.isFill = false ∧ uint32Max < sum) .inval
  return { cp with
    readOpIdx := readIndex.getD cp.readOpIdx 0
    offsetInRead := if cp.isFill then cp.offsetInRead else sum }

/-- `coalesce_chunks`; with no reads there is nothing to do. -/
def coalesceChunks (maxReadBytes maxChunksPerWave : ℕ) (out : DispatchOutput) :
    Except Status DispatchOutput :=
  if out.readOps.length = 0 then .ok { out with nChunksToLoad := 0, nLoadsIssued := 0 }
  else do
    let merged := coalesceReads out.readOps maxReadBytes maxChunksPerWave
    let chunkPlans ← out.chunkPlans.mapM (coalesceChunk merged.readIndex merged.offsetInRead)
    return { out with
      readOps := merged.reads
      chunkPlans
      nChunksToLoad := chunkPlans.countP fun cp => !cp.isFill
      nLoadsIssued := merged.reads.countP ReadOp.isReal }

def groupChunksByRead (caps : DispatchCaps) (out : DispatchOutput) : Except Status DispatchOutput :=
  let n := out.chunkPlans.length
  let reads := out.readOps.length
  if n = 0 ∨ reads = 0 then .ok { out with readOpGroups := [] }
  else do
    failIf (caps.groupsPresent = false ∨ caps.readOpGroups < reads) .budget
    failIf (∃ cp ∈ out.chunkPlans, reads ≤ cp.readOpIdx) .inval
    let head := CountingSort.addUp reads
      (CountingSort.countKeys ChunkPlan.readOpIdx reads out.chunkPlans)
    let sorted := if 2 ≤ n then
        (CountingSort.scatterByKey ChunkPlan.readOpIdx head out.chunkPlans out.chunkPlans).2
      else out.chunkPlans
    let groups := (List.range reads).filterMap fun r =>
      let first := head.getD r 0
      let last := head.getD (r + 1) 0
      if first = last then none
      else some
        { readOpIdx := r
          firstChunk := first
          nChunks := last - first
          totalDecompressed :=
            ((sorted.drop first).take (last - first)).foldl
              (fun n cp => u64 (n + cp.decompressedNbytes)) 0 }
    return { out with chunkPlans := sorted, readOpGroups := groups }

/-! ## `dispatch_plan_build` -/

def SamplePlan.blank : SamplePlan := ⟨0, 0, .u8, false, [], 0, 0⟩

def dispatchPlanBuild (mem : DispatchMemory) (plan : PreparedPlan) (args : DispatchArgs)
    (caps : DispatchCaps) : Except Status DispatchOutput := do
  failIf (args.alignment = 0 ∨ args.maxChunksPerWave = 0) .inval
  failIf (caps.chunkPlans < plan.uses.length ∨ caps.readOps < plan.uses.length ∨
    caps.samplePlans < plan.regions.length) .budget
  let samples ← plan.regions.foldlM (dispatchRegion plan args.slot caps)
    (List.replicate caps.samplePlans SamplePlan.blank, [])
  let uses ← plan.uses.zipIdx.foldlM
    (dispatchUse mem plan args.slot args.alignment caps samples.1) ⟨[], [], []⟩
  failIf (mem.scratchOk = false) .oom
  let out ← coalesceChunks args.maxReadBytes args.maxChunksPerWave
    { readOps := uses.reads, chunkPlans := uses.chunkPlans, samplePlans := samples.1
      readOpGroups := [], indices := samples.2, gatherDims := uses.gatherDims
      nChunksToLoad := 0, nLoadsIssued := 0 }
  groupChunksByRead caps out

end Damacy

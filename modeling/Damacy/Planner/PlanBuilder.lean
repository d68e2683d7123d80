import Damacy.Lib.LinearProbe
import Damacy.Lib.ExceptFold
import Damacy.Query.Selection
import Damacy.Zarr.Metadata

/-!
# Prepared plans (`planner/plan.h`, `planner/plan_builder.c`)

A plan says, for one batch, which inner chunks are read and where each of them is copied to. A first
pass over the samples checks their geometry and sizes the plan; a second pass walks, per sample,
the shards its selection meets and in every shard the inner chunks, stores every chunk once and
links a use of it to the sample's region.

The caches are given by their answers: `arrays` and `shards` map a handle to the result of
`prefetch_cache_query`.
-/

open ExceptFold

namespace Damacy

/-! ## Data -/

/-- `struct planner_sample`: a stored query with the handles of its metadata and of its shards'
indexes, in the order of the shard grid. -/
structure PlannerSample where
  query : Query
  hMeta : PrefetchHandle
  hShards : List PrefetchHandle
deriving DecidableEq, Repr

structure PlanArray where
  uri : CString
  metadata : ZarrMetadata
deriving DecidableEq

/-- `struct plan_chunk`; a `NULL` path and the index `UINT32_MAX` are `none`. -/
structure PlanChunk where
  path : Option CString
  offset : ℕ
  coordinate : List ℕ
  array : ℕ
  encodedBytes : ℕ
  decodedBytes : ℕ
  firstUse : Option ℕ
  missing : Bool
deriving DecidableEq, Repr

inductive PlanOperation
  | copy
  | gather
deriving DecidableEq, Repr

structure PlanRegion where
  operation : PlanOperation
  array : ℕ
  sample : ℕ
  dims : List QueryDim
deriving DecidableEq, Repr

/-- `struct plan_use`; the end of a list of uses, `UINT32_MAX`, is `none`. -/
structure PlanUse where
  chunk : ℕ
  region : ℕ
  next : Option ℕ
deriving DecidableEq, Repr

structure PreparedPlan where
  output : BatchSpec
  arrays : List PlanArray
  chunks : List PlanChunk
  regions : List PlanRegion
  uses : List PlanUse
  allocatedBytes : ℕ
deriving DecidableEq

/-- The sizes of the C structures that a plan's storage is made of. -/
def sizeofPlanArray : ℕ := 784
@[inherit_doc sizeofPlanArray] def sizeofPlanRegion : ℕ := 1032
@[inherit_doc sizeofPlanArray] def sizeofPlanChunk : ℕ := 288
@[inherit_doc sizeofPlanArray] def sizeofPlanUse : ℕ := 12
@[inherit_doc sizeofPlanArray] def sizeofPreparedPlan : ℕ := 328

/-- The exits of `prepared_plan_build`: every failing status, with the capacity check of the use
table told apart from the other `DAMACY_BUDGET` exits. -/
inductive PlanExit
  | status (s : Status)
  | usesFull
deriving DecidableEq, Repr

def PlanExit.toStatus : PlanExit → Status
  | .status s => s
  | .usesFull => .budget

/-- The calls of `prepared_plan_build` that can fail for lack of memory: the two allocations of
the plan, and the construction of a shard's path. -/
structure PlanMemory where
  planOk : Bool
  storageOk : Bool
  pathOk : CString → List ℕ → Bool

/-! ## Geometry -/

def arrayMetadata (arrays : PrefetchHandle → CacheQuery ZarrMetadata) (h : PrefetchHandle) :
    Except PlanExit ZarrMetadata :=
  match arrays h with
  | .pending => .error (.status .again)
  | .error err => .error (.status (if err = .ok then .inval else err))
  | .ready none => .error (.status .inval)
  | .ready (some metadata) => .ok metadata

/-- The loop of `sample_geometry` over the axes, with the chunk bytes so far. -/
def sampleGeometryLoop (maxChunkBytes : ℕ) :
    ℕ → List QueryDim → List ZarrDim → List ℤ → Except PlanExit ℕ
  | size, dim :: dims, d :: ds, shape :: shapes => do
    failIf (dim.bounds.beg < 0 ∨ dim.bounds.stop ≤ dim.bounds.beg ∨
      d.shape < u64OfInt dim.bounds.stop ∨ d.innerChunkShape = 0) (.status .inval)
    let extent := if dim.count ≠ 0 then (dim.count : ℤ) else dim.bounds.stop - dim.bounds.beg
    failIf (extent ≠ shape) (.status .inval)
    failIf (maxChunkBytes / d.innerChunkShape < size) (.status .budget)
    sampleGeometryLoop maxChunkBytes (size * d.innerChunkShape) dims ds shapes
  | size, _, _, _ => .ok size

def chunkGridDims (dims : List QueryDim) (ds : List ZarrDim) : List GridDim :=
  List.zipWith (fun dim d => { dim, cell := d.innerChunkShape }) dims ds

def shardGridDims (dims : List QueryDim) (ds : List ZarrDim) : List GridDim :=
  List.zipWith (fun dim d => { dim, cell := d.shardShape }) dims ds

def gridInit (dims : List GridDim) (maxCells : ℕ) : Except PlanExit SelectionGrid :=
  (selectionGridInit dims maxCells).mapError .status

/-- `sample_geometry`: the number of inner chunks the sample meets and the bytes of one. -/
def sampleGeometry (dims : List QueryDim) (metadata : ZarrMetadata) (output : BatchSpec)
    (limits : PlanLimits) : Except PlanExit (ℕ × ℕ) := do
  failIf (dims.length ≠ metadata.dims.length ∨
    metadata.dims.length ≠ output.sampleShape.length) (.status .rank)
  failIf (castPathSupported output.dtype metadata.dtype = false) (.status .dtype)
  let size ← sampleGeometryLoop limits.maxChunkBytes (dtypeBpe metadata.dtype) dims metadata.dims
    output.sampleShape
  let grid ← gridInit (chunkGridDims dims metadata.dims) limits.maxChunks
  return (u32 grid.count, u32 size)

/-! ## First pass -/

structure PlanTotals where
  capacity : ℕ
  pathBytes : ℕ
  indexBytes : ℕ
deriving DecidableEq, Repr

def addIndexBytes (maxPlanBytes : ℕ) : ℕ → List QueryDim → Except PlanExit ℕ
  | bytes, [] => .ok bytes
  | bytes, dim :: dims => do
    let size := dim.count * sizeofQueryIndex
    failIf (maxPlanBytes < size ∨ maxPlanBytes - size < bytes) (.status .budget)
    addIndexBytes maxPlanBytes (bytes + size) dims

/-- The body of the first loop of `prepared_plan_build`. -/
def planMeasure (arrays : PrefetchHandle → CacheQuery ZarrMetadata) (output : BatchSpec)
    (limits : PlanLimits) (totals : PlanTotals) (sample : PlannerSample) :
    Except PlanExit PlanTotals := do
  failIf (limits.maxShardsPerSample < sample.hShards.length) (.status .inval)
  let metadata ← arrayMetadata arrays sample.hMeta
  let (count, _) ← sampleGeometry sample.query.dims metadata output limits
  let indexBytes ← addIndexBytes limits.maxPlanBytes totals.indexBytes sample.query.dims
  let capacity := totals.capacity + count
  failIf (limits.maxChunks < capacity) (.status .budget)
  let length := sample.query.uri.length + 1
  let perPath := length + 3 + metadata.dims.length * 21
  failIf (limits.maxPlanBytes < perPath ∨
    limits.maxPlanBytes / perPath < sample.hShards.length) (.status .budget)
  let addition := u64 (length + perPath * sample.hShards.length)
  failIf (limits.maxPlanBytes < addition ∨ limits.maxPlanBytes - addition < totals.pathBytes)
    (.status .budget)
  return { capacity, pathBytes := totals.pathBytes + addition, indexBytes }

/-- The loop that sizes the hash table: the first power of two from `buckets` on that is at least
twice the capacity. -/
def growBuckets (capacity : ℕ) : (fuel buckets : ℕ) → ℕ
  | 0, buckets => buckets
  | fuel + 1, buckets =>
    if buckets < 2 * capacity then growBuckets capacity fuel (buckets * 2) else buckets

def tableBuckets (capacity : ℕ) : ℕ := growBuckets capacity 34 1

def planStorageBytes (limits : PlanLimits) (nSamples : ℕ) (totals : PlanTotals) :
    Except PlanExit ℕ := do
  let base := u64 (nSamples * (sizeofPlanArray + sizeofPlanRegion) +
    totals.capacity * (sizeofPlanChunk + sizeofPlanUse) + tableBuckets totals.capacity * 4 +
    totals.pathBytes)
  failIf (uint64Max - base < totals.indexBytes) (.status .budget)
  let storageBytes := base + totals.indexBytes
  failIf (limits.maxPlanBytes < storageBytes ∨
    limits.maxPlanBytes - storageBytes < sizeofPreparedPlan) (.status .budget)
  return storageBytes

/-! ## Second pass -/

/-- What the second pass has written so far; a table cell is `0` or the index of a chunk plus
one. -/
structure PlanBuild where
  arrays : List PlanArray
  regions : List PlanRegion
  chunks : List PlanChunk
  uses : List PlanUse
  table : List ℕ
deriving DecidableEq

def hashCombine (a b : ℕ) : ℕ :=
  let mixed := a ^^^ u64 (b + 0x9e3779b97f4a7c15 + u64 (a <<< 6) + a >>> 2)
  let mixed := mixed ^^^ (mixed >>> 33)
  let mixed := u64 (mixed * 0xff51afd7ed558ccd)
  let mixed := mixed ^^^ (mixed >>> 33)
  let mixed := u64 (mixed * 0xc4ceb9fe1a85ec53)
  mixed ^^^ (mixed >>> 33)

def chunkHash (array : ℕ) (coordinate : List ℕ) : ℕ := coordinate.foldl hashCombine array

/-- The array of a plan for a uri: the first one stored with it, or a new one. -/
def planArray (build : PlanBuild) (uri : CString) (metadata : ZarrMetadata) : ℕ × PlanBuild :=
  let array := build.arrays.findIdx (·.uri == uri)
  if array = build.arrays.length then
    (array, { build with arrays := build.arrays ++ [⟨uri, metadata⟩] })
  else (array, build)

def isChunk (chunks : List PlanChunk) (array : ℕ) (coordinate : List ℕ) (i : ℕ) : Bool :=
  match chunks[i]? with
  | some found => found.array == array && found.coordinate == coordinate
  | none => false

def planProbe (build : PlanBuild) (buckets array : ℕ) (coordinate : List ℕ) : ℕ :=
  LinearProbe.probe (fun bucket => (bucket + 1) &&& (buckets - 1))
    (LinearProbe.stopAt build.table (isChunk build.chunks array coordinate))
    buckets (chunkHash array coordinate &&& (buckets - 1))

/-- Store a chunk unless it is stored already; the index of the stored chunk. -/
def planStore (build : PlanBuild) (buckets : ℕ) (chunk : PlanChunk) : ℕ × PlanBuild :=
  let bucket := planProbe build buckets chunk.array chunk.coordinate
  if build.table.getD bucket 0 = 0 then
    (build.chunks.length,
      { build with
        chunks := build.chunks ++ [chunk]
        table := build.table.set bucket (build.chunks.length + 1) })
  else (build.table.getD bucket 0 - 1, build)

/-- Link a use of a stored chunk to a region, at the head of the chunk's uses. -/
def planUse (build : PlanBuild) (capacity chunkIndex region : ℕ) : Except PlanExit PlanBuild := do
  failIf (capacity ≤ build.uses.length) .usesFull
  let next := (build.chunks[chunkIndex]?).bind (·.firstUse)
  return { build with
    uses := build.uses ++ [⟨chunkIndex, region, next⟩]
    chunks := build.chunks.modify chunkIndex fun c => { c with firstUse := build.uses.length } }

/-- `entry_index`: the number of an inner chunk in its shard. -/
def entryIndexLoop : ℕ → List ℕ → List ℕ → ℕ
  | acc, per :: pers, c :: coordinate =>
    entryIndexLoop (u64 (acc * per + c % per)) pers coordinate
  | acc, _, _ => acc

/-- The plan's record of an inner chunk, from the index of its shard; a missing shard has no
index. -/
def planChunk (index : Option (List ShardEntry)) (path : Option CString) (per coordinate : List ℕ)
    (array decodedBytes : ℕ) : Except PlanExit PlanChunk :=
  let chunk : PlanChunk :=
    { path, offset := 0, coordinate, array, encodedBytes := 0, decodedBytes, firstUse := none,
      missing := index.isNone }
  match index with
  | none => .ok chunk
  | some entries =>
    match entries[entryIndexLoop 0 per coordinate]? with
    | none => .error (.status .decode)
    | some entry =>
      let emptyOffset := entry.offset = zarrShardEmpty
      let emptySize := entry.nbytes = zarrShardEmpty
      if ¬ (emptyOffset ↔ emptySize) ∨ (¬ emptySize ∧ (entry.nbytes = 0 ∨
          uint32Max < entry.nbytes ∨ uint64Max - entry.nbytes < entry.offset)) then
        .error (.status .decode)
      else if emptySize then .ok { chunk with missing := true }
      else .ok { chunk with missing := false, offset := entry.offset, encodedBytes := entry.nbytes }

/-- The index of a shard for the builder, from the answer of its cache: `none` for a shard that
does not exist. -/
def shardIndexOf : CacheQuery (List ShardEntry) → Except PlanExit (Option (List ShardEntry))
  | .ready (some entries) => .ok (some entries)
  | .ready none => .error (.status .decode)
  | .pending => .error (.status .again)
  | .error .notfound => .ok none
  | .error err => .error (.status (if err = .ok then .decode else err))

def shardLo (per shardCoord : List ℕ) : List ℕ :=
  List.zipWith (fun p c => u64 (c * p)) per shardCoord

def shardHi (per shardCoord : List ℕ) : List ℕ :=
  List.zipWith (fun p c => u64 (u64 (c * p) + p)) per shardCoord

def clippedGridDims (dims : List QueryDim) (ds : List ZarrDim) (lo hi : List ℕ) : List GridDim :=
  List.zipWith (fun g clip => { g with clipBeg := some clip.1, clipEnd := some clip.2 })
    (chunkGridDims dims ds) (lo.zip hi)

/-- What the second pass knows of a sample when it walks its shards. -/
structure PlanSampleCtx where
  sample : PlannerSample
  region : ℕ
  array : ℕ
  metadata : ZarrMetadata
  per : List ℕ
  decodedBytes : ℕ

def planVisit (capacity buckets : ℕ) (ctx : PlanSampleCtx) (index : Option (List ShardEntry))
    (path : Option CString) (build : PlanBuild) (coordinate : List ℕ) :
    Except PlanExit PlanBuild := do
  let chunk ← planChunk index path ctx.per coordinate ctx.array ctx.decodedBytes
  let (chunkIndex, build) := planStore build buckets chunk
  planUse build capacity chunkIndex ctx.region

def planShard (mem : PlanMemory) (shards : PrefetchHandle → CacheQuery (List ShardEntry))
    (limits : PlanLimits) (capacity buckets : ℕ) (ctx : PlanSampleCtx) (build : PlanBuild)
    (shard : List ℕ × ℕ) : Except PlanExit PlanBuild := do
  match ctx.sample.hShards[shard.2]? with
  | none => .error (.status .inval)
  | some handle =>
    let index ← shardIndexOf (shards handle)
    failIf (index.isSome ∧ mem.pathOk ctx.sample.query.uri shard.1 = false) (.status .oom)
    let path := index.map fun _ => zarrShardPathBuild ctx.sample.query.uri shard.1
    let grid ← gridInit (clippedGridDims ctx.sample.query.dims ctx.metadata.dims
      (shardLo ctx.per shard.1) (shardHi ctx.per shard.1)) limits.maxChunks
    (selectionGridCoords grid).foldlM (planVisit capacity buckets ctx index path) build

def planRegion (sample : PlannerSample) (i array : ℕ) : PlanRegion :=
  { operation := if sample.query.dims.any (fun dim => dim.count != 0) then .gather else .copy
    array, sample := i, dims := sample.query.dims }

/-- The body of the second loop of `prepared_plan_build`. -/
def planSample (mem : PlanMemory) (arrays : PrefetchHandle → CacheQuery ZarrMetadata)
    (shards : PrefetchHandle → CacheQuery (List ShardEntry)) (output : BatchSpec)
    (limits : PlanLimits) (capacity buckets : ℕ) (build : PlanBuild)
    (item : PlannerSample × ℕ) : Except PlanExit PlanBuild := do
  let (sample, i) := item
  let metadata ← arrayMetadata arrays sample.hMeta
  let (array, build) := planArray build sample.query.uri metadata
  let build := { build with regions := build.regions ++ [planRegion sample i array] }
  let (_, decodedBytes) ← sampleGeometry sample.query.dims metadata output limits
  match zarrMetadataInnerPerShard metadata with
  | none => .error (.status .decode)
  | some (per, _) =>
    let grid ← gridInit (shardGridDims sample.query.dims metadata.dims) limits.maxShardsPerSample
    let coords := selectionGridCoords grid
    let build ← coords.zipIdx.foldlM
      (planShard mem shards limits capacity buckets
        { sample, region := i, array, metadata, per, decodedBytes }) build
    failIf (coords.length ≠ sample.hShards.length) (.status .inval)
    return build

/-- `prepared_plan_build`, with its exits told apart. -/
def preparedPlanBuildExit (mem : PlanMemory) (arrays : PrefetchHandle → CacheQuery ZarrMetadata)
    (shards : PrefetchHandle → CacheQuery (List ShardEntry)) (samples : List PlannerSample)
    (output : BatchSpec) (limits : PlanLimits) : Except PlanExit PreparedPlan := do
  failIf (samples = [] ∨ limits.maxChunks = 0 ∨ limits.maxChunkBytes = 0 ∨
    output.sampleShape.length = 0 ∨ maxRank < output.sampleShape.length) (.status .inval)
  let totals ← samples.foldlM (planMeasure arrays output limits) ⟨0, 0, 0⟩
  let buckets := tableBuckets totals.capacity
  let storageBytes ← planStorageBytes limits samples.length totals
  failIf (mem.planOk = false) (.status .oom)
  failIf (mem.storageOk = false) (.status .oom)
  let build ← samples.zipIdx.foldlM
    (planSample mem arrays shards output limits totals.capacity buckets)
    { arrays := [], regions := [], chunks := [], uses := [], table := List.replicate buckets 0 }
  return {
    output
    arrays := build.arrays
    chunks := build.chunks
    regions := build.regions
    uses := build.uses
    allocatedBytes := sizeofPreparedPlan + storageBytes }

def preparedPlanBuild (mem : PlanMemory) (arrays : PrefetchHandle → CacheQuery ZarrMetadata)
    (shards : PrefetchHandle → CacheQuery (List ShardEntry)) (samples : List PlannerSample)
    (output : BatchSpec) (limits : PlanLimits) : Except Status PreparedPlan :=
  (preparedPlanBuildExit mem arrays shards samples output limits).mapError PlanExit.toStatus

end Damacy

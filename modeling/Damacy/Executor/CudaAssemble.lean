import Damacy.Executor.Dispatch
import Damacy.Lib.BoxCount
import Damacy.Lib.RowMajor

/-!
# The assemble kernel (`assemble/assemble.cu`, `wave/wave_pool.c`)

One launch of the kernel covers the chunk plans of a wave: the grid has one row of blocks for every
chunk, as wide as the chunk with the most blocks needs, and every block has 256 threads. A thread of
a copied chunk moves at most the element that its block and thread indices stand for; the threads
of a gathered chunk share the elements of the chunk out with a grid-stride loop. The kernel is
modelled by the element writes of each thread.
-/

namespace Damacy

/-! ## Tiles -/

def kBlockSize : ℕ := 256

/-- `tile_T`: the extent of a block's tile along axis `d`. -/
def tileT (rank d : ℕ) : ℕ :=
  if rank = 1 then kBlockSize else if d + 1 = rank then 32 else if d + 2 = rank then 8 else 1

/-- `thread_dim`: the place of a thread in its block's tile along axis `d`. -/
def threadDim (rank tid d : ℕ) : ℕ :=
  if rank = 1 then tid
  else if d + 1 = rank then tid &&& 31
  else if d + 2 = rank then (tid >>> 5) &&& 7
  else 0

def ceilDivU32 (a b : ℕ) : ℕ := u32 (a + b - 1) / b

def assembleBlocksPerChunk (dims : List SampleDim) : ℕ :=
  if dims.length = 0 ∨ maxRank < dims.length then 0
  else dims.zipIdx.foldl
    (fun bpc sd => u32 (bpc * ceilDivU32 sd.1.chunkShape (tileT dims.length sd.2))) 1

def assembleGatherBlocks (elements : ℕ) : ℕ :=
  let blocks := elements / kBlockSize + if elements % kBlockSize ≠ 0 then 1 else 0
  if 65535 < blocks then 65535 else blocks

/-! ## What a thread writes -/

/-- The bytes of an encoded chunk, by where they are stored, and what they decode to. -/
structure ChunkData where
  path : Option CString
  offset : ℕ
  compressedNbytes : ℕ
  decompressedNbytes : ℕ
  codec : Codec
deriving DecidableEq, Repr

/-- `struct assemble_chunk`; the place of the decoded chunk in the device arena is given by the
chunk itself. -/
structure AssembleChunk where
  data : ChunkData
  sampleIdxInBatch : ℕ
  isFill : Bool
  gatherOffset : ℕ
  chunkD : List ℕ
deriving DecidableEq, Repr

/-- What an output element is made from: the fill value, or element `index` of a chunk; either is of
the source's type and gets converted. -/
inductive WriteSource
  | fill (dtype : Dtype) (value : ℕ)
  | element (dtype : Dtype) (chunk : ChunkData) (index : ℤ)
deriving DecidableEq, Repr

/-- One element of the output, by its offset, and what it is made from. -/
structure ElementWrite where
  output : ℤ
  source : WriteSource
deriving DecidableEq, Repr

/-- `load_chunk_value`, before the conversion. -/
def loadChunkValue (s : SamplePlan) (c : AssembleChunk) (source : ℤ) : WriteSource :=
  if c.isFill then .fill s.srcDtype s.fillValue else .element s.srcDtype c.data source

/-- Source index and output position of a position along one axis of a gathered chunk. -/
def gatherPosition (indices : List GatherIndex) (sd : SampleDim) (gd : GatherDim) (position : ℕ) :
    ℕ × ℕ :=
  let src := u32 (gd.begin_ + position)
  let dst := u64 (gd.outputBegin + position)
  if sd.indexCount ≠ 0 then
    ((indices.getD src ⟨0, 0⟩).source, (indices.getD src ⟨0, 0⟩).output)
  else (src, dst)

/-- The loop of `gather_body` over the axes, from the last to the first: what remains of the index,
and the source and destination offsets. -/
def gatherLoop (indices : List GatherIndex) (destination i : ℕ) :
    List (SampleDim × GatherDim) → ℕ × ℕ × ℕ
  | [] => (i, 0, destination)
  | (sd, gd) :: rest =>
    let r := gatherLoop indices destination i rest
    let p := gatherPosition indices sd gd (u32 (r.1 % gd.count))
    (r.1 / gd.count, u64 (r.2.1 + p.1 * u64OfInt sd.srcStride),
      u64 (r.2.2 + p.2 * u64OfInt sd.dstStride))

def gatherElements (gather : List GatherDim) : ℕ := gather.foldl (fun n g => u64 (n * g.count)) 1

/-- `gather_body`: the destination and source offsets that thread `tid` of block `x` copies. -/
def gatherBody (indices : List GatherIndex) (s : SamplePlan) (gather : List GatherDim)
    (gridX x tid : ℕ) : List (ℤ × ℤ) :=
  let elements := gatherElements gather
  (BoxCount.stepLoop elements (gridX * kBlockSize) elements (x * kBlockSize + tid)).map fun i =>
    let r := gatherLoop indices (u64OfInt s.sampleDstOffElems) i (s.dims.zip gather)
    (r.2.2, r.2.1)

/-- The state of the loop of `assemble_body`. -/
structure AssembleState where
  rem : ℕ
  inBounds : Bool
  src : ℤ
  dst : ℤ
deriving DecidableEq

/-- The destination along one axis of the element at place `intra` of a chunk. -/
def dstD (sd : SampleDim) (chunk intra : ℕ) : ℤ :=
  (chunk : ℤ) * sd.chunkShape + intra - sd.aabbLoRelative

/-- The loop of `assemble_body` over the axes, from the last to the first, on the axes of the sample
paired with the coordinate of the chunk. -/
def assembleLoop (rank tid x : ℕ) (dst : ℤ) : List (SampleDim × ℕ) → AssembleState
  | [] => ⟨x, true, 0, dst⟩
  | (sd, c) :: rest =>
    let s := assembleLoop rank tid x dst rest
    let d := rank - 1 - rest.length
    let tiles := ceilDivU32 sd.chunkShape (tileT rank d)
    let intra := u32 (s.rem % tiles * tileT rank d + threadDim rank tid d)
    { rem := s.rem / tiles
      inBounds := s.inBounds && decide (intra < sd.chunkShape ∧ 0 ≤ dstD sd c intra ∧
        dstD sd c intra < sd.aabbExtent)
      src := s.src + intra * sd.srcStride
      dst := s.dst + dstD sd c intra * sd.dstStride }

/-- `assemble_body`: the destination and source offset that thread `tid` of block `x` copies, if
any. -/
def assembleBody (s : SamplePlan) (chunkD : List ℕ) (x tid : ℕ) : List (ℤ × ℤ) :=
  let r := assembleLoop s.dims.length tid x s.sampleDstOffElems (s.dims.zip chunkD)
  if r.rem ≠ 0 ∨ r.inBounds = false then [] else [(r.dst, r.src)]

/-- The gather dims of a chunk, `s.gather_dims + c.gather_offset`. -/
def gatherSlice (gatherDims : List GatherDim) (s : SamplePlan) (gatherOffset : ℕ) : List GatherDim :=
  (gatherDims.drop gatherOffset).take s.dims.length

/-- `assemble_kernel`: the writes of thread `tid` of block `x` in the row of blocks of chunk `c`. -/
def assembleKernel (out : DispatchOutput) (c : AssembleChunk) (gridX x tid : ℕ) :
    List ElementWrite :=
  match out.samplePlans[c.sampleIdxInBatch]? with
  | none => []
  | some s =>
    (if s.indexed then
      gatherBody out.indices s (gatherSlice out.gatherDims s c.gatherOffset) gridX x tid
    else assembleBody s c.chunkD x tid).map fun w => ⟨w.1, loadChunkValue s c w.2⟩

/-! ## Launching a wave -/

def chunkData (out : DispatchOutput) (cp : ChunkPlan) : ChunkData :=
  let read := out.readOps.getD cp.readOpIdx ReadOp.blank
  { path := read.shardPath
    offset := read.fileOffset + cp.offsetInRead
    compressedNbytes := cp.compressedNbytes
    decompressedNbytes := cp.decompressedNbytes
    codec := cp.codecId }

/-- `set_assemble_chunk_base`; `forceFill` is set when decoding is bypassed. -/
def setAssembleChunkBase (out : DispatchOutput) (cp : ChunkPlan) (forceFill : Bool) :
    AssembleChunk :=
  { data := chunkData out cp
    sampleIdxInBatch := cp.sampleIdxInBatch
    isFill := cp.isFill || forceFill
    gatherOffset := cp.gatherOffset
    chunkD := cp.chunkD }

def chunkOutputElements (gatherDims : List GatherDim) (s : SamplePlan) (cp : ChunkPlan) : ℕ :=
  if s.indexed then gatherElements (gatherSlice gatherDims s cp.gatherOffset)
  else (s.dims.zip cp.chunkD).foldl (fun n x =>
    let origin := (x.2 : ℤ) * x.1.chunkShape - x.1.aabbLoRelative
    u64 (n * (min (origin + x.1.chunkShape) x.1.aabbExtent - max origin 0).toNat)) 1

/-- The blocks that `build_assemble_meta` counts for a chunk. -/
def chunkBlocks (out : DispatchOutput) (cp : ChunkPlan) : ℕ :=
  match out.samplePlans[cp.sampleIdxInBatch]? with
  | none => 0
  | some s =>
    if s.indexed then assembleGatherBlocks (chunkOutputElements out.gatherDims s cp)
    else assembleBlocksPerChunk s.dims

/-- `assemble_max_blocks_per_chunk` of a wave, as `build_assemble_meta` computes it. -/
def maxBlocksPerChunk (out : DispatchOutput) (wave : List ChunkPlan) : ℕ :=
  let maxBpc := wave.foldl (fun m cp => max m (chunkBlocks out cp)) 0
  if maxBpc = 0 then 1 else maxBpc

/-- The writes of thread `tid` of block `(x, y)` when a wave is launched. -/
def threadWrites (out : DispatchOutput) (wave : List ChunkPlan) (y x tid : ℕ) : List ElementWrite :=
  match wave[y]? with
  | none => []
  | some cp =>
    assembleKernel out (setAssembleChunkBase out cp false) (maxBlocksPerChunk out wave) x tid

end Damacy

import Damacy.RenderJob.Reserve

/-!
# The decode work of a wave (`wave/wave_pool.c`)

For every chunk of a wave the host writes a parse record, and for the chunks it can already decide a
decode operation: a device copy for an uncompressed chunk, a zstd stream for a zstd chunk. Blosc
chunks are left to the parse kernels, with one entry of the block map for every block.
-/

open List

namespace Damacy

structure ChunkLayout where
  codecId : Codec
  typesize : ℕ
  shuffle : Bool
  bitshuffle : Bool
  dontSplit : Bool
  memcpyed : Bool
  blocksize : ℕ
  nbytes : ℕ
  nblocks : ℕ
  nsubstreams : ℕ
deriving DecidableEq, Repr

def Codec.isBlosc (c : Codec) : Bool := c = .bloscZstd || c = .bloscLz4

structure GpuParseChunk where
  compressedOffset : ℕ
  compressedNbytes : ℕ
  decompressedOffset : ℕ
  decompressedNbytes : ℕ
  sampleIdxInBatch : ℕ
  codecId : Codec
  isFill : Bool
deriving DecidableEq, Repr

/-- `struct gpu_memcpy_op`; addresses are offsets into the compressed and the decompressed buffer of
the wave. -/
structure GpuMemcpyOp where
  src : ℕ
  dst : ℕ
  nbytes : ℕ
deriving DecidableEq, Repr

/-- One entry of the arrays that describe compressed streams. -/
structure StreamOp where
  comp : ℕ
  compSize : ℕ
  decomp : ℕ
  decompBufSize : ℕ
deriving DecidableEq, Repr

def chunkCompressedOffset (c : PlacedChunk) : ℕ := u32 (u64 (c.hostBufOffset + c.offsetInRead))

def chunkEffectivelyFill (c : PlacedChunk) (forceFill : Bool) : Bool :=
  c.isFill || c.codecId == .fill || forceFill

def setParseChunk (c : PlacedChunk) (forceFill : Bool) : GpuParseChunk :=
  { compressedOffset := chunkCompressedOffset c
    compressedNbytes := c.compressedNbytes
    decompressedOffset := c.devDecompressedOffset
    decompressedNbytes := c.decompressedNbytes
    sampleIdxInBatch := c.sampleIdxInBatch
    codecId := c.codecId
    isFill := c.isFill || forceFill }

/-- The operation of `append_memcpy_prefix`. -/
def memcpyPrefix (c : PlacedChunk) : GpuMemcpyOp :=
  ⟨chunkCompressedOffset c, c.devDecompressedOffset, c.decompressedNbytes⟩

/-- The operation of `append_zstd_prefix`. -/
def zstdPrefix (c : PlacedChunk) : StreamOp :=
  ⟨chunkCompressedOffset c, c.compressedNbytes, c.devDecompressedOffset, c.decompressedNbytes⟩

/-- What the host prepares for the parse of a wave. -/
structure ParseWork where
  parseChunks : List GpuParseChunk
  memcpyOps : List GpuMemcpyOp
  zstdOps : List StreamOp
  bloscChunkIndices : List ℕ
  blockChunkMap : List ℕ
deriving DecidableEq

/-- The entries of `append_blosc_parse_work` in the block map; both halves have 16 bits. -/
def blockEntries (waveChunkIdx nblocks : ℕ) : List ℕ :=
  (List.range nblocks).map fun b => u32 (waveChunkIdx * 2 ^ 16) ||| b

/-- The body of the loop of `build_gpu_parse_chunks`, for chunk `i` of the wave; `layouts` are the
layouts of the sample plans. -/
def buildGpuParseChunk (bypassDecode : Bool) (layouts : ℕ → Option ChunkLayout) (w : ParseWork)
    (item : PlacedChunk × ℕ) : ParseWork :=
  let c := item.1
  let w := { w with parseChunks := w.parseChunks ++ [setParseChunk c bypassDecode] }
  if chunkEffectivelyFill c bypassDecode then w
  else if c.codecId = .none then { w with memcpyOps := w.memcpyOps ++ [memcpyPrefix c] }
  else if c.codecId = .zstd then { w with zstdOps := w.zstdOps ++ [zstdPrefix c] }
  else
    { w with
      bloscChunkIndices := w.bloscChunkIndices ++ [item.2]
      blockChunkMap := w.blockChunkMap ++
        blockEntries item.2 ((layouts c.sampleIdxInBatch).elim 0 ChunkLayout.nblocks) }

def buildGpuParseChunks (bypassDecode : Bool) (layouts : ℕ → Option ChunkLayout)
    (chunks : List PlacedChunk) : ParseWork :=
  chunks.zipIdx.foldl (buildGpuParseChunk bypassDecode layouts) ⟨[], [], [], [], []⟩

def Reservation.waveChunks (r : Reservation) : List PlacedChunk :=
  (r.job.chunkPlans.drop r.desc.batchChunkOffset).take r.desc.nChunks

/-! ## What is prepared for which chunk -/

section Build

variable {bypassDecode : Bool} {layouts : ℕ → Option ChunkLayout} {chunks : List PlacedChunk}

def hostCopied (bypassDecode : Bool) (c : PlacedChunk) : Bool :=
  !chunkEffectivelyFill c bypassDecode && c.codecId == .none

def hostZstd (bypassDecode : Bool) (c : PlacedChunk) : Bool :=
  !chunkEffectivelyFill c bypassDecode && c.codecId == .zstd

def bloscParsed (bypassDecode : Bool) (c : PlacedChunk) : Bool :=
  !chunkEffectivelyFill c bypassDecode && c.codecId != .none && c.codecId != .zstd

theorem buildGpuParseChunks_eq (bypassDecode : Bool) (layouts : ℕ → Option ChunkLayout)
    (chunks : List PlacedChunk) : buildGpuParseChunks bypassDecode layouts chunks =
      { parseChunks := chunks.map fun c => setParseChunk c bypassDecode
        memcpyOps := (chunks.filter (hostCopied bypassDecode)).map memcpyPrefix
        zstdOps := (chunks.filter (hostZstd bypassDecode)).map zstdPrefix
        bloscChunkIndices := (chunks.zipIdx.filter fun p => bloscParsed bypassDecode p.1).map Prod.snd
        blockChunkMap := (chunks.zipIdx.filter fun p => bloscParsed bypassDecode p.1).flatMap fun p =>
          blockEntries p.2 ((layouts p.1.sampleIdxInBatch).elim 0 ChunkLayout.nblocks) } := by
  induction chunks using List.reverseRecOn with
  | nil => rfl
  | append_singleton chunks c ih =>
    rw [buildGpuParseChunks, zipIdx_append, foldl_append, ← buildGpuParseChunks, ih]
    simp only [Nat.zero_add, zipIdx_singleton, foldl_cons, foldl_nil,
      map_append, filter_append, flatMap_append, buildGpuParseChunk]
    -- the new chunk goes to exactly one of the four lists, or to none
    by_cases hfill : chunkEffectivelyFill c bypassDecode = true
    · simp [hfill, hostCopied, hostZstd, bloscParsed]
    · by_cases hnone : c.codecId = .none
      · simp [hfill, hnone, hostCopied, hostZstd, bloscParsed]
      · by_cases hzstd : c.codecId = .zstd <;>
          simp [hfill, hnone, hzstd, hostCopied, hostZstd, bloscParsed]

end Build

end Damacy

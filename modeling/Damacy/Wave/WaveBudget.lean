import Damacy.BatchPool.Layout

/-!
# Sizing the waves (`wave/wave_budget.c`, `executor/cuda_geometry.inc`, `executor/cuda_executor.c`)

At start-up the CUDA executor splits its memory budget: it predicts the device memory that two
waves, the shared decoder scratch and the batch metadata take in the worst case, and grows the size
of a wave until the budget is used up. nvCOMP's temporary-size queries are parameters.

Sizes are `uint64_t`. The products of bounded configuration fields stay far below `2 ^ 64`; the
sums and differences that can leave the range are reduced.
-/

open ExceptFold

namespace Damacy

/-! ## Sizes of device records -/

/-- `sizeof(struct assemble_chunk)`. -/
def sizeofAssembleChunk : ℕ := 152

/-- `sizeof(struct gpu_parse_chunk)`. -/
def sizeofGpuParseChunk : ℕ := 20

/-- `sizeof(struct blosc1_totals)`. -/
def sizeofBlosc1Totals : ℕ := 20

/-- `sizeof(struct gpu_memcpy_op)`. -/
def sizeofGpuMemcpyOp : ℕ := 24

/-- `sizeof(struct sample_plan)`. -/
def sizeofSamplePlan : ℕ := 1560

/-- `sizeof(struct gather_index)`. -/
def sizeofGatherIndex : ℕ := 8

/-- `sizeof(struct gather_dim)`. -/
def sizeofGatherDim : ℕ := 16

/-- `DAMACY_DECODER_INITIAL_BATCH_CAP`. -/
def decoderInitialBatchCap : ℕ := 1024

/-- `DAMACY_N_WAVES`. -/
def nWaves : ℕ := 2

/-- `DAMACY_MAX_CHUNKS_PER_BATCH`. -/
def maxChunksPerBatch : ℕ := 16384

/-! ## The configuration -/

/-- `struct damacy_cuda_config` with the settings of the reader and the output that `cuda_start`
reads; `enableGds` is the resolved setting. -/
structure CudaConfig where
  maxGpuMemoryBytes : ℕ
  maxIndexBytes : ℕ
  maxChunkBytes : ℕ
  maxReadBytes : ℕ
  maxChunksPerWave : ℕ
  maxSubstreamsPerChunk : ℕ
  hostBufferWaves : ℕ
  chunkLayoutEntries : ℕ
  enableGds : Bool
  maxInflightReads : ℕ
  output : BatchSpec
  pageAlignment : ℕ
deriving DecidableEq, Repr

structure CudaConfig.InRange (cfg : CudaConfig) : Prop where
  maxGpuMemoryBytes : cfg.maxGpuMemoryBytes < 2 ^ 64
  maxChunkBytes : cfg.maxChunkBytes < 2 ^ 32
  samplesPerBatch : cfg.output.samplesPerBatch < 2 ^ 32
  pageAlignment : 0 < cfg.pageAlignment ∧ cfg.pageAlignment < 2 ^ 32

/-- The checks of `damacy_cuda_executor_create`, those on the device and on NUMA apart. -/
def damacyCudaExecutorCreate (cfg : CudaConfig) : Except Status Unit :=
  failIf (cfg.maxGpuMemoryBytes = 0 ∨ cfg.chunkLayoutEntries = 0 ∨
    uint32Max * sizeofGatherIndex < cfg.maxIndexBytes ∨ cfg.maxChunkBytes = 0 ∨
    cfg.maxReadBytes = 0 ∨ uint32Max < cfg.maxReadBytes ∨ cfg.maxChunksPerWave = 0 ∨
    65535 < cfg.maxChunksPerWave ∨ cfg.maxSubstreamsPerChunk = 0 ∨
    65535 < cfg.maxSubstreamsPerChunk ∨ cfg.hostBufferWaves < nWaves ∨
    8 < cfg.hostBufferWaves) .inval

/-- The number of chunks per wave that `cuda_start` runs with. -/
def CudaConfig.chunksPerWave (cfg : CudaConfig) : ℕ := min cfg.maxChunksPerWave cfg.maxInflightReads

/-- `max_substreams_per_wave`. -/
def CudaConfig.substreamsPerWave (cfg : CudaConfig) : ℕ :=
  u32 (cfg.chunksPerWave * cfg.maxSubstreamsPerChunk)

/-- `device_staging_buffers` of the input transfer. -/
def CudaConfig.stagingBuffers (cfg : CudaConfig) : ℕ :=
  if cfg.enableGds then cfg.hostBufferWaves else nWaves

/-- The loop of `dispatch_max_indices` over the extents; a value that it returns early is an
error. -/
def sumExtents : ℕ → List ℤ → Except ℕ ℕ
  | count, [] => .ok count
  | count, extent :: rest =>
    if extent ≤ 0 then .error 0
    else if uint64Max - count < u64OfInt extent then .error uint64Max
    else sumExtents (count + u64OfInt extent) rest

/-- `dispatch_max_indices`; a count that does not fit is `UINT64_MAX`. -/
def dispatchMaxIndices (output : BatchSpec) : ℕ :=
  if output.samplesPerBatch = 0 ∨ output.sampleShape.length = 0 ∨
      maxRank < output.sampleShape.length then 0
  else
    match sumExtents 0 output.sampleShape with
    | .error early => early
    | .ok count =>
      if uint64Max / output.samplesPerBatch < count then uint64Max
      else count * output.samplesPerBatch

def dispatchIndexCapacity (cfg : CudaConfig) : ℕ :=
  min (min (dispatchMaxIndices cfg.output) (cfg.maxIndexBytes / sizeofGatherIndex)) uint32Max

def dispatchGatherDimCapacity (cfg : CudaConfig) : ℕ :=
  if dispatchIndexCapacity cfg = 0 then 0 else maxChunksPerBatch * cfg.output.sampleShape.length

def dispatchIndexStorageBytes (cfg : CudaConfig) : ℕ :=
  dispatchIndexCapacity cfg * sizeofGatherIndex + dispatchGatherDimCapacity cfg * sizeofGatherDim

/-- `batch_pool_compute_layout` on the pool of a new executor: the size of an output slot. -/
def batchPoolComputeLayout (output : BatchSpec) : Except Status ℕ :=
  match BatchPool.fresh.computeLayout output.sampleShape output.samplesPerBatch
      (damacyDtypeBpe output.dtype) with
  | (pool, .ok) => .ok pool.nBytes
  | (_, e) => .error e

/-! ## Predictions -/

/-- nvCOMP's temporary-size queries for a batch of `n` substreams, by the largest decoded block and
the total of decoded bytes; a query that fails is `none`. -/
structure NvComp where
  zstdTempBytes : (n block total : ℕ) → Option ℕ
  lz4TempBytes : (n block total : ℕ) → Option ℕ

def decoderBatchQueryTempBytes (nv : NvComp) (n block total : ℕ) : Option ℕ :=
  if n = 0 ∨ block = 0 ∨ total = 0 then none
  else do
    let zstd ← nv.zstdTempBytes n block total
    let lz4 ← nv.lz4TempBytes n block total
    return max zstd lz4

/-- `wave_decoder_caps`: the largest decoded block and the total of decoded bytes. -/
def waveDecoderCaps (substreams maxChunksPerWave devBytes maxChunkBytes : ℕ) : ℕ × ℕ :=
  if devBytes = 0 ∨ maxChunkBytes = 0 then (0, 0)
  else
    let total := min (min devBytes (maxChunksPerWave * maxChunkBytes)) (substreams * maxChunkBytes)
    (min maxChunkBytes total, total)

def predictDecoderScratchBytes (nv : NvComp) (substreams maxChunksPerWave devPerWave
    maxChunkBytes : ℕ) : Except Status ℕ :=
  let caps := waveDecoderCaps substreams maxChunksPerWave devPerWave maxChunkBytes
  match decoderBatchQueryTempBytes nv substreams caps.1 caps.2 with
  | none => .error .cuda
  | some temp => .ok (u64 (temp + substreams * 8 + substreams * 4))

/-- `blosc1_meta` of `wave_predict_bytes`: the parse and assemble records of a wave. -/
def blosc1MetaBytes (maxChunksPerWave : ℕ) : ℕ :=
  maxChunksPerWave * (sizeofAssembleChunk + sizeofGpuParseChunk + 4) +
    (maxChunksPerWave + 31) / 32 * 4 + sizeofBlosc1Totals + 4 * 4

/-- `fanout_dev_bytes_per_sub`: the decode records of a substream. -/
def fanoutBytesPerSub : ℕ := 2 * 8 + 2 * 8 + sizeofGpuMemcpyOp + 4

/-- The arguments of `predict_pool_total` that stay the same during the sizing. -/
structure PoolShape where
  maxChunksPerWave : ℕ
  maxSubstreamsPerWave : ℕ
  stagingBuffers : ℕ
  maxChunkBytes : ℕ
  samplesPerBatch : ℕ

/-- `predict_pool_total`: the worst case, with fan-outs and decoder scratch grown to the limit. -/
def predictPoolTotal (nv : NvComp) (shape : PoolShape) (inputPerWave devPerWave : ℕ) :
    Except Status ℕ := do
  let substreamsMax := max shape.maxSubstreamsPerWave decoderInitialBatchCap
  let nvcompTempMax ← predictDecoderScratchBytes nv substreamsMax shape.maxChunksPerWave devPerWave
    shape.maxChunkBytes
  return u64 (shape.stagingBuffers * inputPerWave +
    2 * (devPerWave + blosc1MetaBytes shape.maxChunksPerWave + substreamsMax * fanoutBytesPerSub) +
    nvcompTempMax + 2 * shape.samplesPerBatch * sizeofSamplePlan)

def sizingStep : ℕ := 2 ^ 20

/-- The loop that shrinks a wave until the prediction fits; without fuel, it has no result. -/
def shrinkLoop (predict : ℕ → Except Status ℕ) (maxBytes minPerWave : ℕ) :
    (fuel perWave predicted : ℕ) → Option (Except Status (ℕ × ℕ))
  | 0, _, _ => none
  | fuel + 1, perWave, predicted =>
    if maxBytes < predicted ∧ minPerWave < perWave then
      let next := max (u64Sub perWave sizingStep) minPerWave
      match predict next with
      | .error e => some (.error e)
      | .ok predicted => shrinkLoop predict maxBytes minPerWave fuel next predicted
    else some (.ok (perWave, predicted))

structure WavePoolSizing where
  inputStagingPerWave : ℕ
  devDecompressedPerWave : ℕ
  worstCaseTotalBytes : ℕ
deriving DecidableEq, Repr

/-- The end of `wave_pool_resolve_sizing`: what is left goes to the input buffers, up to the size of
a read. -/
def finishSizing (stagingBuffers maxBytes maxReadBytes inputBytes perWave predicted : ℕ) :
    WavePoolSizing :=
  let extra := if stagingBuffers ≠ 0 ∧ inputBytes < maxReadBytes then
      min (u64Sub maxBytes predicted / stagingBuffers) (maxReadBytes - inputBytes)
    else 0
  ⟨inputBytes + extra, perWave, predicted + extra * stagingBuffers⟩

def wavePoolResolveSizing (nv : NvComp) (shape : PoolShape) (maxBytes maxReadBytes
    pageAlignment fuel : ℕ) : Option (Except Status WavePoolSizing) :=
  let minPerWave := shape.maxChunkBytes
  let minInput := max minPerWave pageAlignment
  let predict := fun perWave => predictPoolTotal nv shape (max perWave minInput) perWave
  match predict minPerWave with
  | .error e => some (.error e)
  | .ok totalMin =>
    if maxBytes < totalMin then some (.error .budget)
    else
      let delta := (maxBytes - totalMin) / (shape.stagingBuffers + nWaves)
      let perWave := min (max (u64 (minPerWave + delta / sizingStep * sizingStep)) minPerWave)
        (shape.maxChunksPerWave * shape.maxChunkBytes)
      match predict perWave with
      | .error e => some (.error e)
      | .ok predicted =>
        match shrinkLoop predict maxBytes minPerWave fuel perWave predicted with
        | none => none
        | some (.error e) => some (.error e)
        | some (.ok (perWave, predicted)) =>
          some (.ok (finishSizing shape.stagingBuffers maxBytes maxReadBytes
            (max perWave minInput) perWave predicted))

/-- `gpu_budget_predict`, the total: what is allocated at start-up. -/
def gpuBudgetPredict (nv : NvComp) (cfg : CudaConfig) (inputPerWave devPerWave : ℕ) :
    Except Status ℕ := do
  let nvcompTemp ← predictDecoderScratchBytes nv decoderInitialBatchCap cfg.chunksPerWave devPerWave
    cfg.maxChunkBytes
  return u64 (cfg.stagingBuffers * inputPerWave + 2 * devPerWave +
    2 * blosc1MetaBytes cfg.chunksPerWave + 2 * (decoderInitialBatchCap * fanoutBytesPerSub) +
    nvcompTemp + 2 * (cfg.output.samplesPerBatch * sizeofSamplePlan + dispatchIndexStorageBytes cfg))

/-! ## `cuda_start` -/

/-- What `cuda_start` resolves. -/
structure CudaGeometry where
  outputBytes : ℕ
  sizing : WavePoolSizing
  predictedTotal : ℕ
  maxReadBytes : ℕ
deriving DecidableEq, Repr

def CudaConfig.poolShape (cfg : CudaConfig) : PoolShape :=
  ⟨cfg.chunksPerWave, cfg.substreamsPerWave, cfg.stagingBuffers, cfg.maxChunkBytes,
    cfg.output.samplesPerBatch⟩

/-- `resolve_wave_geometry`: the index storage is set aside, and the rest is split. -/
def resolveWaveGeometry (nv : NvComp) (cfg : CudaConfig) (resolverBudget fuel : ℕ) :
    Option (Except Status (WavePoolSizing × ℕ)) :=
  let indexBytes := 2 * dispatchIndexStorageBytes cfg
  if resolverBudget < indexBytes then some (.error .budget)
  else
    match wavePoolResolveSizing nv cfg.poolShape (resolverBudget - indexBytes) cfg.maxReadBytes
        cfg.pageAlignment fuel with
    | none => none
    | some (.error e) => some (.error e)
    | some (.ok sizing) =>
      match gpuBudgetPredict nv cfg sizing.inputStagingPerWave sizing.devDecompressedPerWave with
      | .error e => some (.error e)
      | .ok total =>
        some (.ok ({ sizing with worstCaseTotalBytes := sizing.worstCaseTotalBytes + indexBytes },
          total))

/-- `cuda_start`, as far as sizes go: the checks before the first allocation. -/
def cudaStartGeometry (nv : NvComp) (cfg : CudaConfig) (fuel : ℕ) :
    Option (Except Status CudaGeometry) :=
  if cfg.maxIndexBytes ≠ 0 ∧
      cfg.maxIndexBytes / sizeofGatherIndex < dispatchMaxIndices cfg.output then
    some (.error .budget)
  else
    match batchPoolComputeLayout cfg.output with
    | .error e => some (.error e)
    | .ok bytes =>
      if cfg.maxGpuMemoryBytes / 2 ≤ bytes then some (.error .budget)
      else
        match resolveWaveGeometry nv cfg (cfg.maxGpuMemoryBytes - 2 * bytes) fuel with
        | none => none
        | some (.error e) => some (.error e)
        | some (.ok (sizing, total)) =>
          some (.ok ⟨bytes, sizing, total, min cfg.maxReadBytes sizing.inputStagingPerWave⟩)

/-- A configuration that passes the checks of create and start, and what it resolves to. -/
def CudaAccepted (nv : NvComp) (cfg : CudaConfig) (geometry : CudaGeometry) : Prop :=
  cfg.InRange ∧ damacyCudaExecutorCreate cfg = .ok () ∧
    ∃ fuel, cudaStartGeometry nv cfg fuel = some (.ok geometry)

end Damacy

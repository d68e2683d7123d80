import Damacy.Wave.BatchWaves

/-!
# Decoding a wave (`wave/wave_pool.c`, `decoder/status_reduce.cu`, `decoder/decoder_memcpy.cu`)

A wave first secures room for its decode operations, one entry for every substream that its chunks
can have. Then nvCOMP decodes the streams, a kernel counts those that failed or came out with another
size, and another kernel makes the copies. The wave retires with `DAMACY_OK` only if there were no
parse errors, the operations fit, and no stream was counted.
-/

open List ExceptFold ByteWrites

namespace Damacy

/-! ## Capacities -/

/-- `chunk_substreams_upper_bound`; a sample plan without a probed layout has none. -/
def chunkSubstreamsUpperBound (layouts : ℕ → Option ChunkLayout) (c : PlacedChunk) :
    Except Status ℕ :=
  if c.isFill = true ∨ c.codecId = .fill then .ok 0
  else if c.codecId.isBlosc then
    match layouts c.sampleIdxInBatch with
    | none => .error .inval
    | some layout => .ok layout.nsubstreams
  else .ok 1

def countWaveSubstreams (bypassDecode : Bool) (layouts : ℕ → Option ChunkLayout)
    (chunks : List PlacedChunk) : Except Status ℕ :=
  if bypassDecode then .ok 0
  else chunks.foldlM (fun out c => do return out + (← chunkSubstreamsUpperBound layouts c)) 0

/-! ## Status -/

/-- `struct blosc1_totals`, as `read_parse_totals` fills it. -/
structure Blosc1Totals where
  nZstd : ℕ
  nLz4 : ℕ
  nMemcpy : ℕ
  nParseErrors : ℕ
deriving DecidableEq, Repr

/-- What nvCOMP leaves behind for a stream: its status and the bytes it wrote. -/
structure StreamResult where
  status : ℕ
  bytes : List UInt8

/-- The counter of `status_reduce_kernel`. -/
def codecErrors (result : StreamOp → StreamResult) (ops : List StreamOp) : ℕ :=
  ops.countP fun op => (result op).status ≠ 0 ∨ (result op).bytes.length ≠ op.decompBufSize

/-- The status a wave retires with if all CUDA calls succeed: `validate_parse_totals`, the check of
`kick_decode` and `wave_decode_status`. -/
def waveStatus (fanoutCap : ℕ) (tot : Blosc1Totals) (nCodecErrors : ℕ) : Except Status Unit := do
  failIf (tot.nParseErrors ≠ 0) .decode
  failIf (fanoutCap < tot.nLz4 ∨ fanoutCap - tot.nLz4 < tot.nZstd ∨ fanoutCap < tot.nMemcpy) .decode
  failIf (nCodecErrors ≠ 0) .decode

/-- The totals of a wave without Blosc chunks: the parse kernels leave the host's counters as they
are. -/
def ParseWork.hostTotals (w : ParseWork) : Blosc1Totals :=
  ⟨w.zstdOps.length, 0, w.memcpyOps.length, 0⟩

/-- The surroundings a wave is decoded in: the capacity of its fan-out, the outcome of the CUDA
calls, the results of nvCOMP, and what its two device buffers held before. -/
structure WaveEnv where
  fanoutCap : ℕ
  cudaOk : Bool
  result : StreamOp → StreamResult
  input : ℕ → UInt8
  decompressed : ℕ → UInt8

/-- A wave without Blosc chunks retires with `DAMACY_OK`. -/
def WaveEnv.Completes (env : WaveEnv) (w : ParseWork) : Prop :=
  env.cudaOk = true ∧
    waveStatus env.fanoutCap w.hostTotals (codecErrors env.result w.zstdOps) = .ok ()

/-- What a wave stores in its decompressed buffer: the streams, and the copies that
`gpu_memcpy_kernel` makes from the input buffer. -/
def WaveEnv.decodeWrites (env : WaveEnv) (w : ParseWork) (input : ℕ → UInt8) :
    List (ℕ × List UInt8) :=
  w.zstdOps.map (fun op => (op.decomp, (env.result op).bytes)) ++
    w.memcpyOps.map fun op => (op.dst, load input op.src op.nbytes)

/-! ## Waves without Blosc chunks -/

section Plain

variable {env : WaveEnv} {limits : WavePackLimits} {out : DispatchOutput} {res : Reservation}
  {layouts : ℕ → Option ChunkLayout} {chunks : List PlacedChunk} {c : PlacedChunk}

theorem chunkSubstreamsUpperBound_plain (hc : c.codecId.isBlosc = false) :
    chunkSubstreamsUpperBound layouts c =
      .ok (([c].filter (hostZstd false)).length + ([c].filter (hostCopied false)).length) := by
  obtain ⟨⟨_, _, _, _, _, _, _, codec, fill, _⟩, _, _⟩ := c
  cases codec <;> cases fill <;> simp_all [chunkSubstreamsUpperBound, hostZstd, hostCopied,
    chunkEffectivelyFill, Codec.isBlosc]

theorem countWaveSubstreams_plain (hc : ∀ c ∈ chunks, c.codecId.isBlosc = false) :
    countWaveSubstreams false layouts chunks =
      .ok ((buildGpuParseChunks false layouts chunks).zstdOps.length +
        (buildGpuParseChunks false layouts chunks).memcpyOps.length) := by
  rw [buildGpuParseChunks_eq, countWaveSubstreams, if_neg Bool.false_ne_true]
  simp only [length_map]
  induction chunks using List.reverseRecOn with
  | nil => rfl
  | append_singleton chunks c ih =>
    simp only [mem_append, mem_singleton] at hc
    rw [foldlM_append, ih fun c hmem => hc c (.inl hmem)]
    simp only [filter_append, length_append, foldlM_cons, foldlM_nil,
      bind_pure, chunkSubstreamsUpperBound_plain (hc c (.inr rfl))]
    show Except.ok _ = Except.ok _
    congr 1
    omega

theorem completes_iff (hc : ∀ c ∈ chunks, c.codecId.isBlosc = false)
    (hcap : ∀ need, countWaveSubstreams false layouts chunks = .ok need → need ≤ env.fanoutCap) :
    env.Completes (buildGpuParseChunks false layouts chunks) ↔ env.cudaOk = true ∧
      ∀ op ∈ (buildGpuParseChunks false layouts chunks).zstdOps,
        (env.result op).status = 0 ∧ (env.result op).bytes.length = op.decompBufSize := by
  have hle := hcap _ (countWaveSubstreams_plain hc)
  have herrors : ∀ ops, codecErrors env.result ops = 0 ↔
      ∀ op ∈ ops, (env.result op).status = 0 ∧
        (env.result op).bytes.length = op.decompBufSize := fun ops => by
    simp [codecErrors, countP_eq_zero]
  rw [WaveEnv.Completes, waveStatus, ← herrors]
  simp only [bind_eq_ok, failIf_eq_ok, exists_const, ne_eq, not_not]
  refine and_congr_right fun _ => ⟨fun h => h.2.2, fun h => ⟨rfl, ?_, h⟩⟩
  simp only [ParseWork.hostTotals]
  omega

theorem hostCopied_iff : hostCopied false c = true ↔ c.isFill = false ∧ c.codecId = .none := by
  cases hcodec : c.codecId <;> simp [hostCopied, chunkEffectivelyFill, hcodec]

theorem hostZstd_iff : hostZstd false c = true ↔ c.isFill = false ∧ c.codecId = .zstd := by
  cases hcodec : c.codecId <;> simp [hostZstd, chunkEffectivelyFill, hcodec]

theorem mem_decodeWrites {input : ℕ → UInt8} {w : ℕ × List UInt8} :
    w ∈ env.decodeWrites (buildGpuParseChunks false layouts chunks) input ↔
      (∃ d ∈ chunks, d.isFill = false ∧ d.codecId = .zstd ∧
        w = (d.devDecompressedOffset, (env.result (zstdPrefix d)).bytes)) ∨
      ∃ d ∈ chunks, d.isFill = false ∧ d.codecId = .none ∧
        w = (d.devDecompressedOffset, load input (chunkCompressedOffset d) d.decompressedNbytes) := by
  rw [buildGpuParseChunks_eq, WaveEnv.decodeWrites, mem_append]
  simp only [map_map, mem_map, mem_filter, hostCopied_iff, hostZstd_iff,
    Function.comp_apply]
  constructor
  · rintro (⟨d, ⟨hd, hfill, hcodec⟩, rfl⟩ | ⟨d, ⟨hd, hfill, hcodec⟩, rfl⟩)
    · exact .inl ⟨d, hd, hfill, hcodec, rfl⟩
    · exact .inr ⟨d, hd, hfill, hcodec, rfl⟩
  · rintro (⟨d, hd, hfill, hcodec, rfl⟩ | ⟨d, hd, hfill, hcodec, rfl⟩)
    · exact .inl ⟨d, ⟨hd, hfill, hcodec⟩, rfl⟩
    · exact .inr ⟨d, ⟨hd, hfill, hcodec⟩, rfl⟩

end Plain

end Damacy

import Damacy.Executor.CpuDecode
import Damacy.Wave.WaveDecode

/-!
# Uncompressed chunks on both executors

The CPU refuses an uncompressed chunk whose stored size is not its decoded size. On the CUDA path
nothing compares the two: `append_memcpy_prefix` copies as many bytes as the chunk decodes to from
where its stored bytes begin. Besides, places are recorded in 32 bits, so that in a wave of more than
4 GiB a copy can come from elsewhere, or another chunk can be written over it.
`uncompressed_agrees_iff` says that these are the only differences.
-/

open List ByteWrites

namespace Damacy

def compressedWindow (c : PlacedChunk) : Set ℕ :=
  Set.Ico (c.hostBufOffset + c.offsetInRead) (c.hostBufOffset + c.offsetInRead + c.compressedNbytes)

/-- The operations that `build_gpu_parse_chunks` appends for a chunk read only its stored bytes. -/
structure ReadsOwnBytes (layouts : ℕ → Option ChunkLayout) (item : PlacedChunk × ℕ) : Prop where
  memcpy : ∀ op ∈ (buildGpuParseChunk false layouts ⟨[], [], [], [], []⟩ item).memcpyOps,
    Set.Ico op.src (op.src + op.nbytes) ⊆ compressedWindow item.1
  zstd : ∀ op ∈ (buildGpuParseChunk false layouts ⟨[], [], [], [], []⟩ item).zstdOps,
    Set.Ico op.comp (op.comp + op.compSize) ⊆ compressedWindow item.1

structure UncompressedUse (plan : PreparedPlan) (use : PlanUse) (chunk : PlanChunk)
    (region : PlanRegion) (array : PlanArray) : Prop where
  mem : use ∈ plan.uses
  records : useRecords plan use = some (chunk, region, array)
  stored : chunk.missing = false
  codec : array.metadata.innerCodec = .none

/-- The CPU accepts an uncompressed chunk, and what it delivers is what the wave leaves in the place
of chunk `c`, whatever the order of the reads, the copies and the streams. -/
def DeliversLikeCpu (layouts : ℕ → Option ChunkLayout) (env : WaveEnv) (res : Reservation)
    (c : PlacedChunk) (chunk : PlanChunk) (metadata : ZarrMetadata) : Prop :=
  ∀ files lib scratch, ∃ bytes,
    decodeChunk lib scratch chunk metadata
      (load (files chunk.path) chunk.offset chunk.encodedBytes) = .ok bytes ∧
    ∀ readOrder, readOrder.Perm (inputWrites files res.reads) →
      ∀ order, order.Perm (env.decodeWrites (buildGpuParseChunks false layouts res.waveChunks)
        (stores env.input readOrder)) →
        load (stores env.decompressed order) c.devDecompressedOffset c.decompressedNbytes = bytes

/-- The waves of a batch treat uncompressed chunks as the CPU does: no operation reads beyond the
bytes of its chunk, and if all waves complete, the CPU accepts every uncompressed chunk and delivers
the same bytes. -/
structure UncompressedAgrees (layouts : ℕ → Option ChunkLayout) (plan : PreparedPlan)
    (out : DispatchOutput) (waves : List Reservation) : Prop where
  ownBytes : ∀ res ∈ waves, ∀ item ∈ res.waveChunks.zipIdx, ReadsOwnBytes layouts item
  delivers : ∀ env : Reservation → WaveEnv,
    (∀ res ∈ waves, ∀ need, countWaveSubstreams false layouts res.waveChunks = .ok need →
      need ≤ (env res).fanoutCap) →
    (∀ res ∈ waves, (env res).Completes (buildGpuParseChunks false layouts res.waveChunks)) →
    ∀ res ∈ waves, ∀ c ∈ res.waveChunks, ∀ use chunk region array s,
      UncompressedUse plan use chunk region array →
      UsePlan plan out.samplePlans out.readOps out.gatherDims use c.toChunkPlan chunk region array s →
      DeliversLikeCpu layouts (env res) res c chunk array.metadata

def deviceWindow (c : PlacedChunk) : Set ℕ :=
  Set.Ico c.devDecompressedOffset (c.devDecompressedOffset + c.decompressedNbytes)

/-- The byte of a file that belongs at an address in the place of an uncompressed chunk. -/
def fileByte (readOps : List ReadOp) (c : PlacedChunk) (p : ℕ) : Option CString × ℕ :=
  let r := readOps.getD c.readOpIdx ReadOp.blank
  (r.shardPath, r.fileOffset + c.offsetInRead + (p - c.devDecompressedOffset))

/-- Where the places of two chunks meet, the second is uncompressed too and has the bytes of the
first. -/
def KeepsBytes (readOps : List ReadOp) (c d : PlacedChunk) : Prop :=
  ∀ p ∈ deviceWindow c, p ∈ deviceWindow d →
    d.codecId = .none ∧ fileByte readOps d p = fileByte readOps c p

/-- What 32 bits must leave of the next wave for its uncompressed chunks, by the sizes of the groups
and the chunks that are left: no stored chunk is placed at 4 GiB or beyond in the input buffer, and a
stored chunk that is recorded in the place of an uncompressed one brings the same bytes. -/
structure UncompressedFits (limits : WavePackLimits) (job : RenderJob) : Prop where
  input : ∀ k i c, NextChunk limits job k i c → c.isFill = false →
    inputStart job k + c.offsetInRead < 2 ^ 32
  device : ∀ k i c k' i' d, NextChunk limits job k i c → NextChunk limits job k' i' d →
    c.isFill = false → c.codecId = .none → d.isFill = false →
    KeepsBytes job.readOps (placedAt job k i c) (placedAt job k' i' d)

section Agree

variable {layouts : ℕ → Option ChunkLayout} {plan : PreparedPlan} {out : DispatchOutput}
  {limits : WavePackLimits} {res : Reservation} {c : PlacedChunk} {maxChunks : ℕ}
  {files : Option CString → ℕ → UInt8}

structure Undisturbed (res : Reservation) : Prop where
  input : ∀ c ∈ res.waveChunks, c.isFill = false → c.hostBufOffset + c.offsetInRead < 2 ^ 32
  device : ∀ c ∈ res.waveChunks, ∀ d ∈ res.waveChunks, c.isFill = false → c.codecId = .none →
    d.isFill = false → KeepsBytes res.job.readOps c d

theorem uncompressedFits_iff (hout : ReadGroups maxChunks out) {step : WaveStep}
    (h : step.Reserves limits out) :
    UncompressedFits limits step.job ↔ Undisturbed (step.wave limits) := by
  have hget := fun j c => waveChunks_getElem?_iff (j := j) (c := c) hout h.jobAt h.hasWork h.ok
  have hreadOps : (step.wave limits).job.readOps = step.job.readOps :=
    (h.waveChunks hout).readOps.trans h.jobAt.readOps.symm
  have hmem : ∀ c, c ∈ (step.wave limits).waveChunks ↔
      ∃ k i c', NextChunk limits step.job k i c' ∧ c = placedAt step.job k i c' := by
    intro c
    rw [mem_iff_getElem?]
    constructor
    · rintro ⟨j, hj⟩
      obtain ⟨k, i, c', hnext, -, heq⟩ := (hget j c).1 hj
      exact ⟨k, i, c', hnext, heq⟩
    · rintro ⟨k, i, c', hnext, heq⟩
      exact ⟨_, (hget _ c).2 ⟨k, i, c', hnext, rfl, heq⟩⟩
  have hhost : ∀ k i (c : PlacedChunk), c.isFill = false →
      (placedAt step.job k i c).hostBufOffset = inputStart step.job k := by
    intro k i c hfill
    simp [placedAt, hfill]
  constructor
  · intro hfits
    refine ⟨fun c hc hfill => ?_, fun c hc d hd hfill hcodec hdfill => ?_⟩
    · obtain ⟨k, i, c', hnext, rfl⟩ := (hmem c).1 hc
      rw [hhost k i c' hfill]
      exact hfits.input k i c' hnext hfill
    · obtain ⟨k, i, c', hnext, rfl⟩ := (hmem c).1 hc
      obtain ⟨k', i', d', hnext', rfl⟩ := (hmem d).1 hd
      rw [hreadOps]
      exact hfits.device k i c' k' i' d' hnext hnext' hfill hcodec hdfill
  · intro hrec
    refine ⟨fun k i c hnext hfill => ?_, fun k i c k' i' d hnext hnext' hfill hcodec hdfill => ?_⟩
    · have hlt := hrec.input _ ((hmem _).2 ⟨k, i, c, hnext, rfl⟩) hfill
      rwa [hhost k i c hfill] at hlt
    · have hkeep := hrec.device _ ((hmem _).2 ⟨k, i, c, hnext, rfl⟩) _
        ((hmem _).2 ⟨k', i', d, hnext', rfl⟩) hfill hcodec hdfill
      rwa [hreadOps] at hkeep

theorem NotTruncated.undisturbed (hwave : WaveChunks limits out res) (h : NotTruncated res) :
    Undisturbed res := by
  refine ⟨h.host, fun c hc d hd hfill hcodec hdfill p hpc hpd => ?_⟩
  have hdisj := pairwise_map.mp (hwave.waveWindows h).disjoint
  have : Std.Symm fun c d => DeviceDisjoint (setParseChunk c false) (setParseChunk d false) :=
    ⟨fun _ _ hcd => Disjoint.symm hcd⟩
  by_cases hne : c = d
  · subst hne
    exact ⟨hcodec, rfl⟩
  · exact absurd hpd (Set.disjoint_left.mp (hdisj.forall hc hd hne) hpc)

theorem UsePlan.codec_isBlosc {use : PlanUse} {cp : ChunkPlan} {chunk : PlanChunk}
    {region : PlanRegion} {array : PlanArray} {s : SamplePlan}
    (h : UsePlan plan out.samplePlans out.readOps out.gatherDims use cp chunk region array s)
    (hcodec : ∀ a ∈ plan.arrays, a.metadata.innerCodec = .none ∨ a.metadata.innerCodec = .zstd) :
    cp.codecId.isBlosc = false := by
  rw [h.codec]
  split
  · rfl
  · rcases hcodec array (useRecords_array_mem h.records) with hnone | hzstd
    · rw [hnone]; rfl
    · rw [hzstd]; rfl

theorem UsePlan.uncompressed {use : PlanUse} {cp : ChunkPlan} {chunk : PlanChunk}
    {region : PlanRegion} {array : PlanArray} {s : SamplePlan}
    (h : UsePlan plan out.samplePlans out.readOps out.gatherDims use cp chunk region array s)
    (huse : use ∈ plan.uses) (hcodec : cp.codecId = .none) :
    UncompressedUse plan use chunk region array := by
  rw [h.codec] at hcodec
  split at hcodec
  · cases hcodec
  · rename_i hmissing
    exact ⟨huse, h.records, Bool.eq_false_iff.mpr hmissing, hcodec⟩

/-! ## The bytes that operations read -/

theorem chunkCompressedOffset_of_lt (h : c.hostBufOffset + c.offsetInRead < 2 ^ 32) :
    chunkCompressedOffset c = c.hostBufOffset + c.offsetInRead :=
  (chunkCompressedOffset_eq c).trans (Nat.mod_eq_of_lt h)

theorem readsOwnBytes_of_sizes {i : ℕ}
    (hsizes : c.codecId = .none → c.decompressedNbytes = c.compressedNbytes)
    (hlt : c.isFill = false → c.hostBufOffset + c.offsetInRead < 2 ^ 32) :
    ReadsOwnBytes layouts (c, i) := by
  by_cases hfill : chunkEffectivelyFill c false = true
  · constructor <;> simp [buildGpuParseChunk, hfill]
  · have hoff := chunkCompressedOffset_of_lt (hlt (by
      simp only [chunkEffectivelyFill, Bool.or_eq_true, not_or, Bool.not_eq_true] at hfill
      exact hfill.1.1))
    by_cases hnone : c.codecId = .none
    · constructor
      · simp [buildGpuParseChunk, hfill, hnone, memcpyPrefix, compressedWindow, hsizes hnone, hoff]
      · simp [buildGpuParseChunk, hfill, hnone]
    · by_cases hzstd : c.codecId = .zstd
      · constructor <;>
          simp [buildGpuParseChunk, hfill, hzstd, zstdPrefix, compressedWindow, hoff]
      · constructor <;> simp [buildGpuParseChunk, hfill, hnone, hzstd]

theorem lt_of_subset_window {n : ℕ} (hn : 0 < n)
    (h : Set.Ico (chunkCompressedOffset c) (chunkCompressedOffset c + n) ⊆ compressedWindow c) :
    c.hostBufOffset + c.offsetInRead < 2 ^ 32 := by
  have hlo := (h (Set.left_mem_Ico.mpr (Nat.lt_add_of_pos_right hn))).1
  have hmod := chunkCompressedOffset_eq c
  have hlt := Nat.mod_lt (c.hostBufOffset + c.offsetInRead) (show 2 ^ 32 > 0 by decide)
  omega

theorem ReadsOwnBytes.input_lt {i : ℕ} (h : ReadsOwnBytes layouts (c, i)) (hfill : c.isFill = false)
    (hcodec : c.codecId = .none ∧ 0 < c.decompressedNbytes ∨
      c.codecId = .zstd ∧ 0 < c.compressedNbytes) :
    c.hostBufOffset + c.offsetInRead < 2 ^ 32 := by
  have hnotFill : chunkEffectivelyFill c false = false := by
    rcases hcodec with ⟨hcodec, -⟩ | ⟨hcodec, -⟩ <;> simp [chunkEffectivelyFill, hfill, hcodec]
  rcases hcodec with ⟨hcodec, hpos⟩ | ⟨hcodec, hpos⟩
  · refine lt_of_subset_window hpos (h.memcpy (memcpyPrefix c) ?_)
    simp [buildGpuParseChunk, hnotFill, hcodec]
  · refine lt_of_subset_window hpos (h.zstd (zstdPrefix c) ?_)
    simp [buildGpuParseChunk, hnotFill, hcodec]

theorem WaveChunks.getElem?_copy (hwave : WaveChunks limits out res) (hc : c ∈ res.waveChunks)
    (hfill : c.isFill = false) (hlt : c.hostBufOffset + c.offsetInRead < 2 ^ 32)
    (hsize : c.decompressedNbytes = c.compressedNbytes) (old : ℕ → UInt8)
    {readOrder : List (ℕ × List UInt8)} (hread : readOrder.Perm (inputWrites files res.reads))
    {p : ℕ} (hp : p ∈ deviceWindow c) :
    (load (stores old readOrder) (chunkCompressedOffset c)
      c.decompressedNbytes)[p - c.devDecompressedOffset]? =
        some (files (fileByte res.job.readOps c p).1 (fileByte res.job.readOps c p).2) := by
  obtain ⟨r, hr, hinput⟩ := hwave.load_input hc hfill old hread
  have hk : p - c.devDecompressedOffset < c.compressedNbytes := by
    have := hp.1
    have := hp.2
    omega
  rw [chunkCompressedOffset_of_lt hlt, hsize, hinput, getElem?_load _ hk, fileByte, hwave.readOps,
    List.getD, hr, Option.getD_some]

/-! ## Both directions -/

theorem Undisturbed.delivers (hfit : Undisturbed res) (hwave : WaveChunks limits out res)
    {env : WaveEnv}
    (hops : ∀ op ∈ (buildGpuParseChunks false layouts res.waveChunks).zstdOps,
      (env.result op).bytes.length = op.decompBufSize)
    (hsizes : ∀ d ∈ res.waveChunks, d.codecId = .none →
      d.decompressedNbytes = d.compressedNbytes)
    (hc : c ∈ res.waveChunks) {use : PlanUse} {chunk : PlanChunk} {region : PlanRegion}
    {array : PlanArray} {s : SamplePlan} (huse : UncompressedUse plan use chunk region array)
    (hplan : UsePlan plan out.samplePlans out.readOps out.gatherDims use c.toChunkPlan chunk region
      array s) : DeliversLikeCpu layouts env res c chunk array.metadata := by
  intro files lib scratch
  have hfill : c.isFill = false := hplan.isFill.trans huse.stored
  have hcodec : c.codecId = .none := by
    rw [hplan.codec, huse.stored, if_neg Bool.false_ne_true, huse.codec]
  have hsize : chunk.encodedBytes = chunk.decodedBytes := by
    rw [← hplan.compressed, ← hplan.decompressed, hsizes c hc hcodec]
  refine ⟨_, (decodeChunk_none_iff huse.stored huse.codec).mpr ⟨hsize, rfl⟩, ?_⟩
  intro readOrder hread order horder
  rw [hsize, ← hplan.decompressed, load_eq_iff]
  intro k hk
  have hpc : c.devDecompressedOffset + k ∈ deviceWindow c := ⟨Nat.le_add_right _ _, by omega⟩
  -- the byte of the file that belongs here
  have hbyte : fileByte res.job.readOps c (c.devDecompressedOffset + k) =
      (chunk.path, chunk.offset + k) := by
    obtain ⟨r, hr, hlocated⟩ := hplan.read
    obtain ⟨hpath, hoffset⟩ := hlocated huse.stored
    rw [fileByte, hwave.readOps, List.getD, hr, Option.getD_some, Nat.add_sub_cancel_left, hpath,
      ← hoffset]
  refine stores_of_agree ⟨_, horder.symm.subset (mem_decodeWrites.2
    (.inr ⟨c, hc, hfill, hcodec, rfl⟩)), ?_⟩ fun w hw hpw => ?_
  · rwa [window, length_load]
  · rcases mem_decodeWrites.1 (horder.subset hw) with
      ⟨d, hd, hdfill, hdcodec, rfl⟩ | ⟨d, hd, hdfill, hdcodec, rfl⟩
    · -- no stream is written over an uncompressed chunk
      have hlength : (env.result (zstdPrefix d)).bytes.length = d.decompressedNbytes := by
        refine hops (zstdPrefix d) ?_
        rw [buildGpuParseChunks_eq]
        exact mem_map_of_mem (mem_filter.2 ⟨hd, hostZstd_iff.2 ⟨hdfill, hdcodec⟩⟩)
      rw [window, hlength] at hpw
      have hnone := (hfit.device c hc d hd hfill hcodec hdfill _ hpc hpw).1
      exact Codec.noConfusion (hdcodec.symm.trans hnone)
    · rw [window, length_load] at hpw
      have hsame := (hfit.device c hc d hd hfill hcodec hdfill _ hpc hpw).2
      rw [hwave.getElem?_copy hd hdfill (hfit.input d hd hdfill) (hsizes d hd hdcodec) _ hread hpw,
        hsame, hbyte]

def goodEnv (layouts : ℕ → Option ChunkLayout) (res : Reservation) : WaveEnv where
  fanoutCap := (buildGpuParseChunks false layouts res.waveChunks).zstdOps.length +
    (buildGpuParseChunks false layouts res.waveChunks).memcpyOps.length
  cudaOk := true
  result op := ⟨0, List.replicate op.decompBufSize 1⟩
  input _ := 0
  decompressed _ := 0

theorem DeliversLikeCpu.getElem?_write {env : WaveEnv} {use : PlanUse} {chunk : PlanChunk}
    {region : PlanRegion} {array : PlanArray} {s : SamplePlan} (hwave : WaveChunks limits out res)
    (huse : UncompressedUse plan use chunk region array)
    (hplan : UsePlan plan out.samplePlans out.readOps out.gatherDims use c.toChunkPlan chunk region
      array s) (h : DeliversLikeCpu layouts env res c chunk array.metadata)
    (files : Option CString → ℕ → UInt8) {w : ℕ × List UInt8}
    (hw : w ∈ env.decodeWrites (buildGpuParseChunks false layouts res.waveChunks)
      (stores env.input (inputWrites files res.reads)))
    {p : ℕ} (hpc : p ∈ deviceWindow c) (hpw : p ∈ window w) :
    w.2[p - w.1]? =
      some (files (fileByte res.job.readOps c p).1 (fileByte res.job.readOps c p).2) := by
  obtain ⟨bytes, hbytes, hall⟩ := h files
    ⟨fun _ _ => none, fun _ => none, fun _ => (0, 0, 0), fun _ => (0, 0), fun _ => none,
      fun _ _ => none⟩ []
  obtain ⟨hsize, rfl⟩ := (decodeChunk_none_iff huse.stored huse.codec).mp hbytes
  set ws := env.decodeWrites (buildGpuParseChunks false layouts res.waveChunks)
    (stores env.input (inputWrites files res.reads)) with hws
  -- the write comes last
  have hlast : (ws.erase w ++ [w]).Perm ws :=
    (perm_append_singleton w _).trans (perm_cons_erase hw).symm
  have hload := hall _ (List.Perm.refl _) _ hlast
  rw [hsize, ← hplan.decompressed, load_eq_iff] at hload
  obtain ⟨k, rfl⟩ := Nat.exists_eq_add_of_le hpc.1
  have hk := hload k (by have := hpc.2; omega)
  obtain ⟨v, hv⟩ : ∃ v, w.2[c.devDecompressedOffset + k - w.1]? = some v :=
    ⟨_, getElem?_eq_getElem (by have := hpw.1; have := hpw.2; omega)⟩
  rw [stores_concat, store_of_mem hpw hv] at hk
  obtain ⟨r, hr, hlocated⟩ := hplan.read
  obtain ⟨hpath, hoffset⟩ := hlocated huse.stored
  rw [hv, hk, fileByte, hwave.readOps, List.getD, hr, Option.getD_some, Nat.add_sub_cancel_left,
    hpath, ← hoffset]

theorem DeliversLikeCpu.keepsBytes {use : PlanUse} {chunk : PlanChunk} {region : PlanRegion}
    {array : PlanArray} {s : SamplePlan} (hwave : WaveChunks limits out res)
    (huse : UncompressedUse plan use chunk region array)
    (hplan : UsePlan plan out.samplePlans out.readOps out.gatherDims use c.toChunkPlan chunk region
      array s) (h : DeliversLikeCpu layouts (goodEnv layouts res) res c chunk array.metadata)
    {d : PlacedChunk} (hd : d ∈ res.waveChunks) (hdfill : d.isFill = false)
    (hdcodec : d.codecId = .none ∨ d.codecId = .zstd)
    (hlt : d.hostBufOffset + d.offsetInRead < 2 ^ 32)
    (hsize : d.codecId = .none → d.decompressedNbytes = d.compressedNbytes) :
    KeepsBytes res.job.readOps c d := by
  intro p hpc hpd
  rcases hdcodec with hnone | hzstd
  · refine ⟨hnone, ?_⟩
    -- a file in which only the byte that belongs to `c` is not zero
    set byte := fileByte res.job.readOps c p with hbyte
    set files : Option CString → ℕ → UInt8 := fun path a => if (path, a) = byte then 1 else 0
    have hcopy := hwave.getElem?_copy hd hdfill hlt (hsize hnone) (goodEnv layouts res).input
      (List.Perm.refl (inputWrites files res.reads)) hpd
    have hwrite := h.getElem?_write hwave huse hplan files
      (mem_decodeWrites.2 (.inr ⟨d, hd, hdfill, hnone, rfl⟩)) hpc (by rwa [window, length_load])
    rw [hcopy, Option.some.injEq, ← hbyte] at hwrite
    by_contra hne
    simp [files, hne] at hwrite
  · -- the stream writes ones where the file has zeros
    have hwrite := h.getElem?_write hwave huse hplan (fun _ _ => 0)
      (mem_decodeWrites.2 (.inl ⟨d, hd, hdfill, hzstd, rfl⟩)) hpc
      (by rw [window, goodEnv, length_replicate]; exact hpd)
    have hone : p - d.devDecompressedOffset < d.decompressedNbytes := by
      have := hpd.1
      have := hpd.2
      omega
    simp [goodEnv, zstdPrefix, hone] at hwrite

/-- What the waves of a batch of uncompressed and zstd chunks are made of. -/
structure PlainWaves (limits : WavePackLimits) (plan : PreparedPlan) (out : DispatchOutput)
    (waves : List Reservation) : Prop where
  sizes : PlanSizes plan
  codec : ∀ a ∈ plan.arrays, a.metadata.innerCodec = .none ∨ a.metadata.innerCodec = .zstd
  wave : ∀ res ∈ waves, WaveChunks limits out res
  used : ∀ res ∈ waves, ∀ c ∈ res.waveChunks, ∃ use ∈ plan.uses,
    HasUsePlan plan out.samplePlans out.readOps out.gatherDims use c.toChunkPlan
  placed : ∀ use ∈ plan.uses, ∃ res ∈ waves, ∃ c ∈ res.waveChunks,
    HasUsePlan plan out.samplePlans out.readOps out.gatherDims use c.toChunkPlan

/-- Every stored uncompressed chunk of a plan is recorded with its decoded size. -/
def SnugUses (plan : PreparedPlan) : Prop :=
  ∀ use chunk region array, UncompressedUse plan use chunk region array →
    chunk.encodedBytes = chunk.decodedBytes

variable {waves : List Reservation}

theorem PlainWaves.not_blosc (h : PlainWaves limits plan out waves) (hres : res ∈ waves) :
    ∀ c ∈ res.waveChunks, c.codecId.isBlosc = false := by
  intro c hc
  obtain ⟨use, -, chunk, region, array, s, hup⟩ := h.used res hres c hc
  exact hup.codec_isBlosc h.codec

theorem PlainWaves.stored (h : PlainWaves limits plan out waves) (hres : res ∈ waves)
    (hc : c ∈ res.waveChunks) (hfill : c.isFill = false) :
    (c.codecId = .none ∨ c.codecId = .zstd) ∧ 0 < c.compressedNbytes := by
  obtain ⟨use, -, chunk, region, array, s, hup⟩ := h.used res hres c hc
  have hmissing : chunk.missing = false := hup.isFill.symm.trans hfill
  rw [hup.codec, hmissing, if_neg Bool.false_ne_true, hup.compressed]
  exact ⟨h.codec array (useRecords_array_mem hup.records),
    (h.sizes.chunk chunk (useRecords_mem hup.records)).encoded_pos hmissing⟩

theorem PlainWaves.snug (h : PlainWaves limits plan out waves) (hsnug : SnugUses plan)
    (hres : res ∈ waves) (hc : c ∈ res.waveChunks) (hnone : c.codecId = .none) :
    c.decompressedNbytes = c.compressedNbytes := by
  obtain ⟨use, huse, chunk, region, array, s, hup⟩ := h.used res hres c hc
  rw [hup.decompressed, hup.compressed, hsnug use chunk region array (hup.uncompressed huse hnone)]

theorem PlainWaves.delivers_goodEnv (h : PlainWaves limits plan out waves)
    (hagree : UncompressedAgrees layouts plan out waves) (hres : res ∈ waves)
    (hc : c ∈ res.waveChunks) {use : PlanUse} {chunk : PlanChunk} {region : PlanRegion}
    {array : PlanArray} {s : SamplePlan} (huse : UncompressedUse plan use chunk region array)
    (hup : UsePlan plan out.samplePlans out.readOps out.gatherDims use c.toChunkPlan chunk region
      array s) : DeliversLikeCpu layouts (goodEnv layouts res) res c chunk array.metadata := by
  have hsecured : ∀ res ∈ waves, ∀ need,
      countWaveSubstreams false layouts res.waveChunks = .ok need →
        need ≤ (goodEnv layouts res).fanoutCap := by
    intro res hres need hneed
    rw [countWaveSubstreams_plain (h.not_blosc hres)] at hneed
    exact (Except.ok.inj hneed).symm.le
  have hcomplete : ∀ res ∈ waves,
      (goodEnv layouts res).Completes (buildGpuParseChunks false layouts res.waveChunks) :=
    fun res hres => (completes_iff (h.not_blosc hres) (hsecured res hres)).mpr
      ⟨rfl, fun op _ => ⟨rfl, length_replicate⟩⟩
  exact hagree.delivers (goodEnv layouts) hsecured hcomplete res hres c hc use chunk region array s
    huse hup

theorem PlainWaves.snugUses (h : PlainWaves limits plan out waves)
    (hagree : UncompressedAgrees layouts plan out waves) : SnugUses plan := by
  intro use chunk region array huse
  obtain ⟨res, hres, c, hc, chunk', region', array', s, hup⟩ := h.placed use huse.mem
  have heq := hup.records.symm.trans huse.records
  simp only [Option.some.injEq, Prod.mk.injEq] at heq
  obtain ⟨rfl, rfl, rfl⟩ := heq
  obtain ⟨bytes, hbytes, -⟩ := h.delivers_goodEnv hagree hres hc huse hup
    (fun _ _ => 0) ⟨fun _ _ => none, fun _ => none, fun _ => (0, 0, 0), fun _ => (0, 0),
      fun _ => none, fun _ _ => none⟩ []
  exact ((decodeChunk_none_iff huse.stored huse.codec).mp hbytes).1

theorem PlainWaves.undisturbed (h : PlainWaves limits plan out waves)
    (hagree : UncompressedAgrees layouts plan out waves) (hres : res ∈ waves) :
    Undisturbed res := by
  have hsnug := h.snugUses hagree
  have hinput : ∀ c ∈ res.waveChunks, c.isFill = false →
      c.hostBufOffset + c.offsetInRead < 2 ^ 32 := by
    intro c hc hfill
    obtain ⟨hcodec, hpos⟩ := h.stored hres hc hfill
    obtain ⟨i, hi⟩ := mem_iff_getElem?.mp hc
    refine (hagree.ownBytes res hres (c, i) (mem_zipIdx_iff_getElem?.mpr hi)).input_lt hfill ?_
    rcases hcodec with hnone | hzstd
    · exact .inl ⟨hnone, h.snug hsnug hres hc hnone ▸ hpos⟩
    · exact .inr ⟨hzstd, hpos⟩
  refine ⟨hinput, fun c hc d hd hfill hnone hdfill => ?_⟩
  obtain ⟨use, huse, chunk, region, array, s, hup⟩ := h.used res hres c hc
  have huse' := hup.uncompressed huse hnone
  exact (h.delivers_goodEnv hagree hres hc huse' hup).keepsBytes (h.wave res hres) huse' hup hd
    hdfill (h.stored hres hd hdfill).1 (hinput d hd hdfill) (h.snug hsnug hres hd)

theorem PlainWaves.agrees (h : PlainWaves limits plan out waves) (hsnug : SnugUses plan)
    (hfits : ∀ res ∈ waves, Undisturbed res) : UncompressedAgrees layouts plan out waves where
  ownBytes := by
    rintro res hres ⟨c, i⟩ hitem
    have hc : c ∈ res.waveChunks := fst_mem_of_mem_zipIdx hitem
    exact readsOwnBytes_of_sizes (h.snug hsnug hres hc) ((hfits res hres).input c hc)
  delivers := by
    intro env hsecured hcomplete res hres c hc use chunk region array s huse hup
    have hops := (completes_iff (h.not_blosc hres) (hsecured res hres)).mp (hcomplete res hres)
    exact (hfits res hres).delivers (h.wave res hres) (fun op hop => (hops.2 op hop).2)
      (fun d hd => h.snug hsnug hres hd) hc huse hup

/-- **Uncompressed chunks on both executors.** For every plan of uncompressed and zstd chunks and
all the waves that render it: the operations of a chunk read only its stored bytes, and waves that
complete deliver of uncompressed chunks what the CPU delivers, if and only if every stored
uncompressed chunk is recorded with its decoded size and, before each of the waves, the sizes of what
is left keep the places of the wave within what 32 bits can record. -/
theorem uncompressed_agrees_iff {planMem : PlanMemory}
    {arrays : PrefetchHandle → CacheQuery ZarrMetadata}
    {shards : PrefetchHandle → CacheQuery (List ShardEntry)} {samples : List PlannerSample}
    {output : BatchSpec} {planLimits : PlanLimits} {mem : DispatchMemory} {args : DispatchArgs}
    {caps : DispatchCaps} {job : RenderJob} {steps : List WaveStep}
    (hplan : preparedPlanBuild planMem arrays shards samples output planLimits = .ok plan)
    (hdispatch : dispatchPlanBuild mem plan args caps = .ok out)
    (hcodec : ∀ a ∈ plan.arrays, a.metadata.innerCodec = .none ∨ a.metadata.innerCodec = .zstd)
    (hwaves : JobWaves limits out job steps) (hdone : renderJobHasWork job = false) :
    UncompressedAgrees layouts plan out (steps.map (WaveStep.wave limits)) ↔
      (∀ use chunk region array, UncompressedUse plan use chunk region array →
        chunk.encodedBytes = chunk.decodedBytes) ∧
      ∀ step ∈ steps, UncompressedFits limits step.job := by
  have hsizes := preparedPlanBuild_sizes hplan
  have hout := dispatchPlanBuild_groups hsizes hdispatch
  have hsteps := hwaves.reserves hout
  obtain ⟨huses, hplans⟩ := dispatchPlanBuild_uses hplan hdispatch
  have hchunks := fun step hstep => (hsteps step hstep).waveChunks hout
  have hplain : PlainWaves limits plan out (steps.map (WaveStep.wave limits)) := by
    refine ⟨hsizes, hcodec, forall_mem_map.2 hchunks, forall_mem_map.2 fun step hstep c hc =>
      huses _ ((hchunks step hstep).mem_chunkPlans hc), fun use huse => ?_⟩
    obtain ⟨cp, hcp, hup⟩ := hplans use huse
    obtain ⟨step, hstep, c, hc, rfl⟩ := hwaves.exists_wave hout hdone hcp
    exact ⟨_, mem_map_of_mem hstep, c, hc, hup⟩
  have hfits : (∀ step ∈ steps, UncompressedFits limits step.job) ↔
      ∀ res ∈ steps.map (WaveStep.wave limits), Undisturbed res := by
    rw [forall_mem_map]
    exact forall₂_congr fun step hstep => uncompressedFits_iff hout (hsteps step hstep)
  rw [hfits]
  exact ⟨fun h => ⟨hplain.snugUses h, fun res hres => hplain.undisturbed h hres⟩,
    fun h => hplain.agrees h.1 h.2⟩

end Agree

/-- Two uncompressed chunks that are stored with half of their 2000 bytes. -/
def loose : Strip := ⟨.none, 2, 2000, narrow.n_le, by decide⟩

def looseGeometry : CudaGeometry := ⟨2, ⟨3325966, 8000, 7340028⟩, 7340028, 3325966⟩

def looseLimits : WavePackLimits := packLimitsOf (loose.config (7 * 2 ^ 20)) looseGeometry

def looseWave : Reservation := waveDispatcherReserve loose.job 0 looseLimits

/-- A batch of uncompressed chunks that are stored with half of their bytes. The CPU refuses them;
on the CUDA path the only wave completes, and the copy for the first chunk reads on into the
second. -/
theorem uncompressed_loose :
    CudaAccepted Strip.nvComp (loose.config (7 * 2 ^ 20)) looseGeometry ∧
    loose.build = .ok loose.plan ∧
    loose.dispatchBuild (7 * 2 ^ 20) looseGeometry = .ok loose.dispatched ∧
    JobWaves looseLimits loose.dispatched looseWave.job [⟨loose.job, 0⟩] ∧
    renderJobHasWork looseWave.job = false ∧
    (goodEnv (fun _ => none) looseWave).Completes
      (buildGpuParseChunks false (fun _ => none) looseWave.waveChunks) ∧
    (∀ chunk ∈ loose.plan.chunks, ∀ lib scratch input,
      decodeChunk lib scratch chunk loose.metadata input = .error .decode) ∧
    ¬ UncompressedAgrees (fun _ => none) loose.plan loose.dispatched [looseWave] := by
  refine ⟨⟨⟨?_, ?_, ?_, ?_⟩, ?_, 1, ?_⟩, ?_, ?_, ?_, ?_, ⟨rfl, ?_⟩, fun chunk hchunk _ _ _ => ?_,
    fun h => ?_⟩
  iterate 8 decide +kernel
  · exact .reserve 0 (.commit 0 0) (by decide +kernel) (by decide +kernel)
  iterate 2 decide +kernel
  · have hsizes : ∀ chunk ∈ loose.plan.chunks,
        chunk.missing = false ∧ chunk.encodedBytes ≠ chunk.decodedBytes := by decide
    simp [decodeChunk, hsizes chunk hchunk, loose, Strip.metadata]
  · have hwindow := (h.ownBytes looseWave (mem_singleton_self _) (looseWave.waveChunks[0], 0)
      (by decide +kernel)).memcpy _ (mem_singleton_self _)
    have hmem := hwindow (Set.mem_Ico.mpr (by decide +kernel : 0 ≤ 1500 ∧ 1500 < 2000))
    exact absurd hmem.2 (by decide +kernel)

def snug : Strip := ⟨.none, 2, 1000, narrow.n_le, by decide⟩

def snugWave : WaveStep := ⟨snug.job, 0⟩

/-- Chunks that are stored in full are delivered alike. -/
theorem uncompressed_snug :
    renderJobHasWork (snugWave.wave ⟨2 ^ 21, 2 ^ 21, 4⟩).job = false ∧
    UncompressedAgrees (fun _ => none) snug.plan snug.dispatched
      [snugWave.wave ⟨2 ^ 21, 2 ^ 21, 4⟩] := by
  have hplan : snug.build = .ok snug.plan := by decide +kernel
  have hdispatch : snug.dispatchBuild (2 ^ 36) wideGeometry = .ok snug.dispatched := by
    decide +kernel
  have hout := dispatchPlanBuild_groups (preparedPlanBuild_sizes hplan) hdispatch
  have hwaves : JobWaves ⟨2 ^ 21, 2 ^ 21, 4⟩ snug.dispatched
      (snugWave.wave ⟨2 ^ 21, 2 ^ 21, 4⟩).job [snugWave] :=
    .reserve 0 (.commit 0 0) (by decide +kernel) (by decide +kernel)
  have hstep := hwaves.reserves hout snugWave (mem_singleton_self _)
  have hchunks := hstep.waveChunks hout
  have hfits : UncompressedFits ⟨2 ^ 21, 2 ^ 21, 4⟩ snug.job :=
    (uncompressedFits_iff hout hstep).mpr
      ((hchunks.notTruncated (by decide) (by decide) (by decide +kernel)).undisturbed hchunks)
  refine ⟨by decide +kernel, (uncompressed_agrees_iff hplan hdispatch (by decide +kernel) hwaves
    (by decide +kernel)).mpr ⟨fun use chunk region array huse => ?_, by simpa [snugWave] using hfits⟩⟩
  have hsizes : ∀ chunk ∈ snug.plan.chunks, chunk.encodedBytes = chunk.decodedBytes := by decide
  exact hsizes chunk (useRecords_mem huse.records)

end Damacy

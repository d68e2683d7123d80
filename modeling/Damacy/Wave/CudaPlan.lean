import Damacy.Executor.RunGroups
import Damacy.RenderJob.Reserve
import Damacy.Wave.WaveBudget

/-!
# How the CUDA executor dispatches and packs (`executor/cuda_executor.c`, `wave/wave_input.c`)

The limits of a wave come from the sizing at start-up, and so do the limits that reads are merged
under. `packLimitsOf` and `dispatchArgsOf` are the two calls' arguments; `reserve_progress_iff` says
when the two fit together, so that a job with work always gets a wave.
-/

open LongestRuns

namespace Damacy

/-! ## What the sizing leaves for a wave -/

section Sizing

variable {nv : NvComp} {cfg : CudaConfig} {geometry : CudaGeometry}

theorem shrinkLoop_ge {predict : ℕ → Except Status ℕ} {maxBytes minPerWave fuel perWave predicted : ℕ}
    {last : ℕ × ℕ} (hle : minPerWave ≤ perWave)
    (h : shrinkLoop predict maxBytes minPerWave fuel perWave predicted = some (.ok last)) :
    minPerWave ≤ last.1 := by
  induction fuel generalizing perWave predicted with
  | zero => simp [shrinkLoop] at h
  | succ fuel ih =>
    rw [shrinkLoop] at h
    split at h
    · dsimp only at h
      split at h
      · simp at h
      · exact ih (le_max_right _ _) h
    · obtain rfl : (perWave, predicted) = last := by simpa using h
      exact hle

theorem wavePoolResolveSizing_dev_ge {shape : PoolShape} {maxBytes maxReadBytes pageAlignment fuel : ℕ}
    {sizing : WavePoolSizing} (hchunks : 0 < shape.maxChunksPerWave)
    (h : wavePoolResolveSizing nv shape maxBytes maxReadBytes pageAlignment fuel =
      some (.ok sizing)) : shape.maxChunkBytes ≤ sizing.devDecompressedPerWave := by
  unfold wavePoolResolveSizing at h
  dsimp only at h
  split at h
  · simp at h
  split at h
  · simp at h
  split at h
  · simp at h
  split at h
  · simp at h
  · simp at h
  · rename_i perWave predicted hloop
    obtain rfl := Except.ok.inj (Option.some.inj h)
    refine shrinkLoop_ge (le_min (le_max_right _ _) ?_) hloop
    exact Nat.le_mul_of_pos_left _ hchunks

/-- What an accepted configuration leaves for a wave: a chunk fits the device buffer, and a merged
read fits the input buffer. -/
theorem CudaAccepted.sizing_bounds (h : CudaAccepted nv cfg geometry)
    (hchunks : 0 < cfg.chunksPerWave) :
    cfg.maxChunkBytes ≤ geometry.sizing.devDecompressedPerWave ∧
      geometry.maxReadBytes ≤ geometry.sizing.inputStagingPerWave := by
  obtain ⟨-, -, fuel, hstart⟩ := h
  unfold cudaStartGeometry at hstart
  split at hstart
  · simp at hstart
  split at hstart
  · simp at hstart
  split at hstart
  · simp at hstart
  split at hstart
  · simp at hstart
  · simp at hstart
  · rename_i sizing total hresolve
    obtain rfl := Except.ok.inj (Option.some.inj hstart)
    refine ⟨?_, min_le_right _ _⟩
    unfold resolveWaveGeometry at hresolve
    dsimp only at hresolve
    split at hresolve
    · simp at hresolve
    split at hresolve
    · simp at hresolve
    · simp at hresolve
    · rename_i sizing' hsizing
      split at hresolve
      · simp at hresolve
      · obtain ⟨rfl, -⟩ := Prod.mk.inj (Except.ok.inj (Option.some.inj hresolve))
        exact wavePoolResolveSizing_dev_ge hchunks hsizing

end Sizing

/-- The limits that `wave_input_reserve` packs a wave with. -/
def packLimitsOf (cfg : CudaConfig) (geometry : CudaGeometry) : WavePackLimits :=
  ⟨geometry.sizing.inputStagingPerWave, geometry.sizing.devDecompressedPerWave, cfg.chunksPerWave⟩

/-- The arguments of `dispatch_plan_build` in `cuda_submit`. -/
def dispatchArgsOf (cfg : CudaConfig) (geometry : CudaGeometry) (slot : ℕ)
    (hpage : cfg.pageAlignment < 2 ^ 64) : DispatchArgs :=
  ⟨slot, cfg.pageAlignment, geometry.maxReadBytes, cfg.chunksPerWave, hpage⟩

theorem dispatchIndexCapacity_lt (cfg : CudaConfig) : dispatchIndexCapacity cfg < 2 ^ 32 :=
  (min_le_right _ _).trans_lt (by decide)

theorem dispatchGatherDimCapacity_lt (cfg : CudaConfig) :
    dispatchGatherDimCapacity cfg < 2 ^ 32 := by
  unfold dispatchGatherDimCapacity
  split
  · decide
  · rename_i hne
    -- an output with too many axes has no indices
    have hrank : cfg.output.sampleShape.length ≤ maxRank := by
      by_contra hgt
      refine hne ?_
      have hzero : dispatchMaxIndices cfg.output = 0 := if_pos (.inr (.inr (Nat.lt_of_not_le hgt)))
      simp [dispatchIndexCapacity, hzero]
    simp only [maxRank, maxChunksPerBatch] at *
    omega

/-- The capacities of `render_job_dispatch_output`. -/
def dispatchCapsOf (cfg : CudaConfig) : DispatchCaps where
  chunkPlans := maxChunksPerBatch
  readOps := maxChunksPerBatch
  samplePlans := cfg.output.samplesPerBatch
  readOpGroups := maxChunksPerBatch
  groupsPresent := true
  indices := dispatchIndexCapacity cfg
  indicesPresent := dispatchIndexCapacity cfg ≠ 0
  gatherDims := dispatchGatherDimCapacity cfg
  indices_lt := dispatchIndexCapacity_lt cfg
  gatherDims_lt := dispatchGatherDimCapacity_lt cfg

section Progress

variable {maxChunks : ℕ} {out : DispatchOutput} {limits : WavePackLimits} {job : RenderJob}
  {g : ReadOpGroup}

theorem JobAt.hostAdd_eq (hjob : JobAt out job) (g : ReadOpGroup) :
    hostAdd job.readOps job.chunkPlans g = out.groupInput g := by
  rw [hostAdd, DispatchOutput.groupInput, hjob.readOps, ← hjob.plans, isFillGroup, plansOf,
    List.getElem?_map, Option.elim_map]
  rfl

/-- A group of a dispatched plan has at most as many chunks as a wave takes, so it fits an empty
wave if it fits both buffers. -/
theorem JobAt.groupFits_iff (hout : ReadGroups limits.maxChunksPerWave out) (hjob : JobAt out job)
    (hg : g ∈ out.readOpGroups) : GroupFits limits job g ↔
      out.groupInput g ≤ limits.inputCap ∧ g.totalDecompressed ≤ limits.devDecompressedCap := by
  rw [← hjob.hostAdd_eq g]
  exact ⟨fun h => ⟨h.host, h.dev⟩, fun h => ⟨h.1, (hout.group g hg).le, h.2⟩⟩

theorem JobAt.reserve_groups (hout : ReadGroups maxChunks out) (hjob : JobAt out job)
    (hwork : renderJobHasWork job = true) (idx : ℕ)
    (hok : (waveDispatcherReserve job idx limits).status = .ok) :
    job.nGroupsDispatched < (waveDispatcherReserve job idx limits).job.nGroupsDispatched ∧
      ∀ k g, job.nGroupsDispatched ≤ k →
        k < (waveDispatcherReserve job idx limits).job.nGroupsDispatched →
        job.readOpGroups[k]? = some g → GroupFits limits job g := by
  obtain ⟨htake, heq, -⟩ := waveDispatcherReserve_ok hwork idx hok
  rw [heq]
  exact ⟨packWave_completes hout hjob htake, (packWave_packed hout hjob limits).1.fits⟩

theorem exists_wave_with_group (hout : ReadGroups maxChunks out) {k : ℕ}
    (hk : k < out.readOpGroups.length)
    (hok : ∀ job, JobRun limits out job → renderJobHasWork job = true →
      (waveDispatcherReserve job 0 limits).status = .ok) :
    ∃ job, JobRun limits out job ∧ renderJobHasWork job = true ∧ job.nGroupsDispatched ≤ k ∧
      k < (waveDispatcherReserve job 0 limits).job.nGroupsDispatched := by
  -- walk on from jobs at most `n` groups before group `k`
  suffices H : ∀ n job, JobRun limits out job → job.nGroupsDispatched ≤ k →
      k ≤ job.nGroupsDispatched + n → ∃ job, JobRun limits out job ∧
        renderJobHasWork job = true ∧ job.nGroupsDispatched ≤ k ∧
        k < (waveDispatcherReserve job 0 limits).job.nGroupsDispatched from
    H k (renderJobCommitPlan 0 0 out) (.commit 0 0) (Nat.zero_le _) (by simp)
  intro n
  induction n with
  | zero =>
    intro job hrun hle hge
    have hjob := hrun.jobAt hout
    have hwork : renderJobHasWork job = true := by
      rw [hjob.hasWork_iff hout, hjob.groups]
      omega
    obtain ⟨hlt, -⟩ := hjob.reserve_groups hout hwork 0 (hok job hrun hwork)
    exact ⟨job, hrun, hwork, hle, by omega⟩
  | succ n ih =>
    intro job hrun hle hge
    have hjob := hrun.jobAt hout
    have hwork : renderJobHasWork job = true := by
      rw [hjob.hasWork_iff hout, hjob.groups]
      omega
    obtain ⟨hlt, -⟩ := hjob.reserve_groups hout hwork 0 (hok job hrun hwork)
    by_cases hnext : k < (waveDispatcherReserve job 0 limits).job.nGroupsDispatched
    · exact ⟨job, hrun, hwork, hle, hnext⟩
    · exact ih _ (.reserve 0 hrun (hok job hrun hwork)) (by omega) (by omega)

/-- A reservation takes a chunk from every job with work that reserving and rolling back can reach
if and only if every group fits both buffers of an empty wave. -/
theorem reserve_progress_groups (hout : ReadGroups limits.maxChunksPerWave out) :
    (∀ job idx, JobRun limits out job → renderJobHasWork job = true →
      (waveDispatcherReserve job idx limits).status = .ok ∧
        0 < (waveDispatcherReserve job idx limits).desc.nChunks) ↔
      ∀ g ∈ out.readOpGroups, out.groupInput g ≤ limits.inputCap ∧
        g.totalDecompressed ≤ limits.devDecompressedCap := by
  constructor
  · intro hok g hg
    obtain ⟨k, hk, rfl⟩ := List.getElem_of_mem hg
    obtain ⟨job, hrun, hwork, hle, hlt⟩ := exists_wave_with_group hout hk
      fun job hrun hwork => (hok job 0 hrun hwork).1
    have hjob := hrun.jobAt hout
    have hfits := (hjob.reserve_groups hout hwork 0 (hok job 0 hrun hwork).1).2 k _ hle hlt
      (by rw [hjob.groups, List.getElem?_eq_getElem hk])
    exact (hjob.groupFits_iff hout hg).mp hfits
  · intro hfits job idx hrun hwork
    have hjob := hrun.jobAt hout
    have hlt := (hjob.hasWork_iff hout).mp hwork
    have hg := List.getElem?_eq_getElem hlt
    have hmem : job.readOpGroups[job.nGroupsDispatched] ∈ out.readOpGroups :=
      hjob.groups ▸ List.getElem_mem hlt
    have htake := (packWave_take_ne_zero_iff hout hjob hg).mpr
      ((hjob.groupFits_iff hout hmem).mpr (hfits _ hmem))
    have hstatus : (waveDispatcherReserve job idx limits).status = .ok := by
      rw [waveDispatcherReserve_status hwork, if_neg htake]
    refine ⟨hstatus, ?_⟩
    rw [(waveDispatcherReserve_ok hwork idx hstatus).2.2.2.1]
    exact Nat.pos_of_ne_zero htake

/-- **When packing makes progress.** Let a configuration be accepted, and let a plan of chunks within
its limit be built and dispatched. Every read group fits an empty wave, and a reservation takes a
chunk from every job with work that reserving and rolling back can reach, if and only if the runs of
the plan fit the buffers that the sizing resolved: the pages of every stored chunk the input buffer,
and the decoded chunks of every run that is read at once the device buffer. -/
theorem reserve_progress_iff {nv : NvComp} {cfg : CudaConfig} {geometry : CudaGeometry}
    {planMem : PlanMemory} {arrays : PrefetchHandle → CacheQuery ZarrMetadata}
    {shards : PrefetchHandle → CacheQuery (List ShardEntry)} {samples : List PlannerSample}
    {output : BatchSpec} {planLimits : PlanLimits} {plan : PreparedPlan} {mem : DispatchMemory}
    {slot : ℕ} {hpage : cfg.pageAlignment < 2 ^ 64} {caps : DispatchCaps}
    (haccepted : CudaAccepted nv cfg geometry)
    (hplan : preparedPlanBuild planMem arrays shards samples output planLimits = .ok plan)
    (hbytes : ∀ chunk ∈ plan.chunks, chunk.decodedBytes ≤ cfg.maxChunkBytes)
    (hdispatch : dispatchPlanBuild mem plan (dispatchArgsOf cfg geometry slot hpage) caps =
      .ok out) :
    ((∀ g ∈ out.readOpGroups, out.groupInput g ≤ geometry.sizing.inputStagingPerWave ∧
        g.totalDecompressed ≤ geometry.sizing.devDecompressedPerWave ∧
        g.nChunks ≤ cfg.chunksPerWave) ∧
      ∀ job idx, JobRun (packLimitsOf cfg geometry) out job → renderJobHasWork job = true →
        (waveDispatcherReserve job idx (packLimitsOf cfg geometry)).status = .ok ∧
          0 < (waveDispatcherReserve job idx (packLimitsOf cfg geometry)).desc.nChunks) ↔
      RunsFit plan cfg.pageAlignment geometry.maxReadBytes cfg.chunksPerWave
        geometry.sizing.inputStagingPerWave geometry.sizing.devDecompressedPerWave := by
  have hsizes := preparedPlanBuild_sizes hplan
  have hout : ReadGroups (packLimitsOf cfg geometry).maxChunksPerWave out :=
    dispatchPlanBuild_groups hsizes hdispatch
  obtain ⟨_, _, hparts⟩ := dispatchPlanBuild_parts hsizes hdispatch
  obtain ⟨hdev, hinput⟩ := haccepted.sizing_bounds hparts.maxChunks_pos
  have hruns := groupsFit_iff hsizes hdispatch hinput hbytes hdev
  have hgroups := reserve_progress_groups hout
  constructor
  · rintro ⟨-, hprogress⟩
    exact hruns.mp (hgroups.mp hprogress)
  · intro hfit
    have hfits := hruns.mpr hfit
    exact ⟨fun g hg => ⟨(hfits g hg).1, (hfits g hg).2, (hout.group g hg).le⟩, hgroups.mpr hfits⟩

end Progress

/-! ## Strips -/

/-- An array of one axis and one shard for the runs below: `n` chunks of `chunk` bytes, stored one
after the other in 1000 bytes each. The sample takes the first byte of every chunk. -/
structure Strip where
  codec : Codec
  n : ℕ
  chunk : ℕ
  n_le : n ≤ 4 := by decide
  chunk_lt : chunk < 2 ^ 32 := by decide

namespace Strip

variable (s : Strip)

theorem shape_lt : s.n * s.chunk < 2 ^ 64 := by
  have hle : s.n * s.chunk ≤ 4 * 2 ^ 32 := Nat.mul_le_mul s.n_le s.chunk_lt.le
  omega

theorem chunk_lt' : s.chunk < 2 ^ 64 := s.chunk_lt.trans (by decide)

def metadata : ZarrMetadata :=
  { dtype := .u8
    dims := [⟨s.n * s.chunk, s.chunk, s.n * s.chunk, s.shape_lt, s.chunk_lt', s.shape_lt⟩]
    innerCodec := s.codec
    fillValue := 0 }

def dims : List QueryDim :=
  [⟨⟨0, (s.n - 1) * s.chunk + 1⟩, (List.range s.n).map fun i => ⟨i * s.chunk, i⟩⟩]

def output : BatchSpec := ⟨.u8, 1, [(s.n : ℤ)]⟩

def build : Except Status PreparedPlan :=
  preparedPlanBuild ⟨true, true, fun _ _ => true⟩ (fun _ => .ready s.metadata)
    (fun _ => .ready (some ((List.range s.n).map fun i => ⟨1000 * i, 1000⟩)))
    [⟨⟨[0x61], s.dims⟩, ⟨0, 1⟩, [⟨0, 1⟩]⟩] s.output
    { maxChunks := 16, maxChunkBytes := s.chunk, maxShardsPerSample := 4, maxPlanBytes := 65536,
      maxChunks_lt := exampleLimits.maxChunks_lt, maxChunkBytes_lt := s.chunk_lt,
      maxShardsPerSample_lt := exampleLimits.maxShardsPerSample_lt,
      maxPlanBytes_lt := exampleLimits.maxPlanBytes_lt }

def path : CString := [0x61, 0x2f, 0x63, 0x2f, 0x30]

def plan : PreparedPlan :=
  { output := s.output
    arrays := [⟨[0x61], s.metadata⟩]
    chunks := (List.range s.n).map fun i =>
      { path := some path, offset := 1000 * i, coordinate := [i], array := 0,
        encodedBytes := 1000, decodedBytes := s.chunk, firstUse := some i, missing := false }
    regions := [⟨.gather, 0, 0, s.dims⟩]
    uses := (List.range s.n).map fun i => ⟨i, 0, none⟩
    allocatedBytes := 2172 + 316 * s.n + 4 * tableBuckets s.n }

def config (maxGpuMemoryBytes : ℕ) : CudaConfig :=
  { maxGpuMemoryBytes, maxIndexBytes := 64, maxChunkBytes := s.chunk, maxReadBytes := 2 ^ 22,
    maxChunksPerWave := 4, maxSubstreamsPerChunk := 32, hostBufferWaves := 4,
    chunkLayoutEntries := 64, enableGds := false, maxInflightReads := 64, output := s.output,
    pageAlignment := 4096 }

def nvComp : NvComp := ⟨fun _ _ total => some total, fun _ _ _ => some 0⟩

def dispatchBuild (maxGpuMemoryBytes : ℕ) (geometry : CudaGeometry) :
    Except Status DispatchOutput :=
  dispatchPlanBuild ⟨fun _ => true, true⟩ s.plan
    (dispatchArgsOf (s.config maxGpuMemoryBytes) geometry 0 (show 4096 < 2 ^ 64 by decide))
    (dispatchCapsOf (s.config maxGpuMemoryBytes))

/-- What dispatch makes of the plan: the chunks are in one page of the file, so there is one read
and one group. -/
def dispatched : DispatchOutput :=
  { readOps := [⟨some path, 0, 4096⟩]
    chunkPlans := (List.range s.n).map fun i =>
      { readOpIdx := 0, offsetInRead := 1000 * i, compressedNbytes := 1000,
        decompressedNbytes := s.chunk, gatherOffset := i, batchPoolSlot := 0,
        sampleIdxInBatch := 0, codecId := s.codec, isFill := false, chunkD := [0] }
    samplePlans := [
      { batchPoolSlot := 0, sampleIdxInBatch := 0, srcDtype := .u8, indexed := true,
        dims := [⟨s.chunk, 0, 0, s.n, 0, s.n, 1, 1⟩], sampleDstOffElems := 0, fillValue := 0 }]
    readOpGroups := [⟨0, 0, s.n, s.n * s.chunk⟩]
    indices := (List.range s.n).map fun i => ⟨0, i⟩
    gatherDims := (List.range s.n).map fun i => ⟨i, 1, 0⟩
    nChunksToLoad := s.n
    nLoadsIssued := 1 }

def job : RenderJob := renderJobCommitPlan 0 0 s.dispatched

end Strip

def narrow : Strip := ⟨.zstd, 2, 2 ^ 20, by decide, by decide⟩

/-- The geometry of `narrow` under a budget of 7 MiB: the device buffer of a wave has room for one
chunk. -/
def narrowGeometry : CudaGeometry := ⟨2, ⟨1765102, 2 ^ 20, 7340028⟩, 7340028, 1765102⟩

/-- Two chunks of 1 MiB under a budget of 7 MiB. The configuration is accepted and no chunk is
larger than its limit, but the chunks share a read, so they make one group, which no wave has room
for: the reservation fails. -/
theorem reserve_narrow_budget :
    CudaAccepted Strip.nvComp (narrow.config (7 * 2 ^ 20)) narrowGeometry ∧
    narrow.build = .ok narrow.plan ∧
    (∀ chunk ∈ narrow.plan.chunks, chunk.decodedBytes ≤ (narrow.config (7 * 2 ^ 20)).maxChunkBytes ∧
      chunk.encodedBytes ≤ (narrow.config (7 * 2 ^ 20)).maxChunkBytes) ∧
    narrow.dispatchBuild (7 * 2 ^ 20) narrowGeometry = .ok narrow.dispatched ∧
    renderJobHasWork narrow.job = true ∧
    (waveDispatcherReserve narrow.job 0
      (packLimitsOf (narrow.config (7 * 2 ^ 20)) narrowGeometry)).status = .budget := by
  refine ⟨⟨⟨?_, ?_, ?_, ?_⟩, ?_, 1, ?_⟩, ?_, ?_, ?_, ?_, ?_⟩ <;> decide +kernel

def wide : Strip := ⟨.zstd, 3, 2 ^ 31, by decide, by decide⟩

/-- The geometry of `wide` under a budget of 64 GiB: the device buffer of a wave has room for four
chunks. -/
def wideGeometry : CudaGeometry := ⟨3, ⟨2 ^ 33, 2 ^ 33, 42950337072⟩, 42950337072, 2 ^ 22⟩

def wideLimits : WavePackLimits := packLimitsOf (wide.config (2 ^ 36)) wideGeometry

theorem wide_build : wide.build = .ok wide.plan := by decide +kernel

theorem wide_dispatchBuild : wide.dispatchBuild (2 ^ 36) wideGeometry = .ok wide.dispatched := by
  decide +kernel

theorem wide_useReads : wide.plan.useReads 4096 = List.replicate 3 ⟨some Strip.path, 0, 4096⟩ := by
  decide +kernel

theorem wide_runs : ReadRuns (wide.plan.useReads 4096) wideGeometry.maxReadBytes
    (wide.config (2 ^ 36)).chunksPerWave [[0, 1, 2]] := by
  have hjoins (n : ℕ) (hn : n < 4) : ReadOp.Joins (2 ^ 22) 4 n ⟨some Strip.path, 0, 4096⟩
      ⟨some Strip.path, 0, 4096⟩ := ⟨rfl, le_rfl, by decide, hn, by decide, by decide⟩
  rw [wide_useReads]
  refine ⟨fun i => ?_, ?_, by simp, ?_, .singleton _⟩
  · constructor
    · intro hi
      have hlt : i = 0 ∨ i = 1 ∨ i = 2 := by simpa using hi
      rcases hlt with rfl | rfl | rfl <;> decide
    · rintro ⟨hi, -⟩
      rw [List.length_replicate] at hi
      simp
      omega
  · simp [opKey, Prod.Lex.toLex_lt_toLex]
  · simp only [List.mem_singleton, forall_eq]
    exact (mergeable_concat_iff (by simp) _).mpr ⟨(mergeable_concat_iff (by simp) _).mpr
      ⟨mergeable_singleton _, hjoins 1 (by decide)⟩, hjoins 2 (by decide)⟩

/-- Three chunks of 2 GiB under a budget of 64 GiB always get a wave. -/
theorem reserve_progress_wide :
    renderJobHasWork wide.job = true ∧
    ∀ job idx, JobRun wideLimits wide.dispatched job → renderJobHasWork job = true →
      (waveDispatcherReserve job idx wideLimits).status = .ok ∧
        0 < (waveDispatcherReserve job idx wideLimits).desc.nChunks := by
  have haccepted : CudaAccepted Strip.nvComp (wide.config (2 ^ 36)) wideGeometry := by
    refine ⟨⟨?_, ?_, ?_, ?_⟩, ?_, 1, ?_⟩ <;> decide +kernel
  have hpages : ∀ chunk ∈ wide.plan.chunks, (chunk.pages 4096).nbytes ≤ 2 ^ 33 := by
    decide +kernel
  exact ⟨rfl, ((reserve_progress_iff haccepted wide_build (by decide) wide_dispatchBuild).mpr
    ⟨fun i _ chunk hchunk _ => hpages chunk (PreparedPlan.useChunk_mem hchunk), _, wide_runs,
      by decide +kernel⟩).2⟩

end Damacy

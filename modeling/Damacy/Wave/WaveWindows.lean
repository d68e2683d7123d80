import Damacy.Wave.CudaPlan
import Damacy.Wave.NextWave

/-!
# The windows of a wave

The packing loop counts in 64 bits, but the places of a chunk are recorded in 32 bits: its start in
the device buffer, and its start in the input buffer. A wave whose buffers are larger than 4 GiB can
therefore record a place that it did not reserve. `waveWindows_iff` says exactly when the recorded
windows are those that were reserved.
-/

open List

namespace Damacy

section Windows

variable {maxChunks idx : ℕ} {out : DispatchOutput} {limits : WavePackLimits} {job : RenderJob}

def DeviceDisjoint (c d : GpuParseChunk) : Prop :=
  Disjoint (Set.Ico c.decompressedOffset (c.decompressedOffset + c.decompressedNbytes))
    (Set.Ico d.decompressedOffset (d.decompressedOffset + d.decompressedNbytes))

/-- The compressed bytes of a chunk, where its parse record has them, are inside the bytes reserved
for its read. -/
def InOwnRead (limits : WavePackLimits) (res : Reservation) (c : PlacedChunk) : Prop :=
  ∃ r, res.job.readOps[c.readOpIdx]? = some r ∧
    ⟨r.shardPath, c.hostBufOffset, r.fileOffset, r.nbytes⟩ ∈ res.reads ∧
    c.hostBufOffset + r.nbytes ≤ limits.inputCap ∧
    c.hostBufOffset ≤ (setParseChunk c false).compressedOffset ∧
    (setParseChunk c false).compressedOffset + (setParseChunk c false).compressedNbytes ≤
      c.hostBufOffset + r.nbytes

/-- The recorded windows of a wave: those of the device buffer are disjoint and inside it, those of
the input buffer are inside the reads they belong to. -/
structure WaveWindows (limits : WavePackLimits) (res : Reservation) : Prop where
  disjoint : (res.waveChunks.map fun c => setParseChunk c false).Pairwise DeviceDisjoint
  within : ∀ c ∈ res.waveChunks,
    c.devDecompressedOffset + c.decompressedNbytes ≤ limits.devDecompressedCap
  compressed : ∀ c ∈ res.waveChunks, c.isFill = false → InOwnRead limits res c

/-- No start of the next wave exceeds 32 bits, by the sizes of the groups and the chunks that are
left: of every chunk that goes into the wave, the decoded bytes before it if it has any, and its
place in the input buffer if it is stored. -/
structure StartsFit (limits : WavePackLimits) (job : RenderJob) : Prop where
  device : ∀ k i c, NextChunk limits job k i c → 0 < c.decompressedNbytes →
    deviceStart job k i < 2 ^ 32
  input : ∀ k i c, NextChunk limits job k i c → c.isFill = false →
    inputStart job k + c.offsetInRead < 2 ^ 32

/-- No start was truncated: the sizes before a chunk that has bytes, and the place of a stored chunk
in the input buffer, are below `2 ^ 32`. -/
structure NotTruncated (res : Reservation) : Prop where
  device : ∀ i (hi : i < res.waveChunks.length), 0 < res.waveChunks[i].decompressedNbytes →
    Packing.start (sizesOf res.waveChunks) i < 2 ^ 32
  host : ∀ c ∈ res.waveChunks, c.isFill = false → c.hostBufOffset + c.offsetInRead < 2 ^ 32

theorem startsFit_iff (hout : ReadGroups maxChunks out) (hjob : JobAt out job)
    (hwork : renderJobHasWork job = true)
    (hok : (waveDispatcherReserve job idx limits).status = .ok) :
    StartsFit limits job ↔ NotTruncated (waveDispatcherReserve job idx limits) := by
  have hget := fun j c => waveChunks_getElem?_iff (j := j) (c := c) hout hjob hwork hok
  have hsizes := sizesOf_waveChunks hout hjob hwork hok
  set res := waveDispatcherReserve job idx limits with hres
  have hstart : ∀ j < res.waveChunks.length,
      Packing.start (sizesOf res.waveChunks) j = Packing.start (waveSizes job) j := by
    intro j hj
    have hlen := congrArg List.length hsizes
    rw [sizesOf, length_map, length_take] at hlen
    rw [hsizes, Packing.start, Packing.start, take_take, min_eq_left (by omega)]
  constructor
  · intro h
    refine ⟨fun j hj hpos => ?_, fun c hc hfill => ?_⟩
    · obtain ⟨k, i, c', hnext, hjk, heq⟩ := (hget j _).1 (getElem?_eq_getElem hj)
      rw [heq] at hpos
      rw [hstart j hj, hjk]
      exact h.device k i c' hnext hpos
    · obtain ⟨j, hj, rfl⟩ := getElem_of_mem hc
      obtain ⟨k, i, c', hnext, -, heq⟩ := (hget j _).1 (getElem?_eq_getElem hj)
      rw [heq] at hfill ⊢
      have hfill' : c'.isFill = false := hfill
      simpa [placedAt, hfill'] using h.input k i c' hnext hfill'
  · intro h
    refine ⟨fun k i c hnext hpos => ?_, fun k i c hnext hfill => ?_⟩
    · obtain ⟨hj, heq⟩ := List.getElem?_eq_some_iff.1 ((hget _ _).2 ⟨k, i, c, hnext, rfl, rfl⟩)
      have hlt := h.device _ hj (by rw [heq]; exact hpos)
      rwa [hstart _ hj] at hlt
    · have hmem := mem_of_getElem? ((hget _ _).2 ⟨k, i, c, hnext, rfl, rfl⟩)
      simpa [placedAt, hfill] using h.host _ hmem hfill

/-- The chunks of a wave as the packing loop left them. -/
structure WaveChunks (limits : WavePackLimits) (out : DispatchOutput) (res : Reservation) : Prop where
  device : ∀ i (hi : i < res.waveChunks.length), res.waveChunks[i].devDecompressedOffset =
    Packing.start (sizesOf res.waveChunks) i % 2 ^ 32
  sum_le : (sizesOf res.waveChunks).sum ≤ limits.devDecompressedCap
  reads_apart : res.reads.Pairwise fun a b => a.dst + a.len ≤ b.dst
  plans : plansOf res.waveChunks =
    (out.chunkPlans.drop res.desc.batchChunkOffset).take res.desc.nChunks
  readOps : res.job.readOps = out.readOps
  compressed : ∀ c ∈ res.waveChunks, c.isFill = false →
    ∃ r, res.job.readOps[c.readOpIdx]? = some r ∧ r.Fits ∧
      ⟨r.shardPath, c.hostBufOffset, r.fileOffset, r.nbytes⟩ ∈ res.reads ∧
      c.hostBufOffset + r.nbytes ≤ limits.inputCap ∧
      c.offsetInRead + c.compressedNbytes ≤ r.nbytes

theorem waveDispatcherReserve_waveChunks (hout : ReadGroups maxChunks out) (hjob : JobAt out job)
    (hwork : renderJobHasWork job = true)
    (hok : (waveDispatcherReserve job idx limits).status = .ok) :
    WaveChunks limits out (waveDispatcherReserve job idx limits) := by
  obtain ⟨hpacked, -⟩ := packWave_packed hout hjob limits
  obtain ⟨-, hj, hreads, hn, hoff, -⟩ := waveDispatcherReserve_ok hwork idx hok
  have hchunks := waveChunks_eq hwork hok
  have hsizes := sizesOf_waveChunks hout hjob hwork hok
  set res := waveDispatcherReserve job idx limits with hres
  set s := (packWave job limits).1 with hs
  -- chunk `i` of the wave is chunk `i` after the cursor of the job
  have hget : ∀ i (hi : i < res.waveChunks.length), i < s.take ∧
      s.chunkPlans[job.nChunksDispatched + i]? = some res.waveChunks[i] := by
    intro i hi
    have hlt : i < s.take := by
      rw [hchunks, length_take] at hi
      omega
    refine ⟨hlt, ?_⟩
    rw [← getElem?_eq_getElem hi, hchunks, getElem?_take_of_lt hlt, getElem?_drop]
  refine ⟨fun i hi => ?_, ?_, hreads ▸ hpacked.reads_apart, ?_, ?_, fun c hc hfill => ?_⟩
  · obtain ⟨hlt, hci⟩ := hget i hi
    rw [hpacked.device i hlt _ hci, hsizes, Packing.start, Packing.start, take_take,
      min_eq_left hlt.le]
    rfl
  · rw [hsizes, ← Packing.start, ← hpacked.dev]
    exact hpacked.dev_le
  · rw [hchunks, hn, hoff, ← hjob.plans, ← hpacked.plans, plansOf, plansOf, map_take,
      map_drop]
  · rw [hj]
    exact hjob.readOps
  · obtain ⟨i, hi, rfl⟩ := getElem_of_mem hc
    obtain ⟨hlt, hci⟩ := hget i hi
    obtain ⟨r, hr, hmem⟩ := hpacked.host i hlt _ hci hfill
    obtain ⟨r', hr', hfits, hle⟩ :=
      hout.held.read _ (mem_of_getElem? (hpacked.plan_eq hjob hci))
    obtain rfl := Option.some.inj (hr.symm.trans (hjob.readOps ▸ hr'))
    refine ⟨r, by rw [hj]; exact hr, hfits, hreads ▸ hmem, ?_, hle hfill⟩
    exact (hpacked.reads_le _ hmem).trans hpacked.host_le

theorem chunkCompressedOffset_eq (c : PlacedChunk) :
    chunkCompressedOffset c = (c.hostBufOffset + c.offsetInRead) % 2 ^ 32 :=
  Nat.mod_mod_of_dvd _ (by decide)

theorem WaveChunks.disjoint_iff {res : Reservation} (h : WaveChunks limits out res) :
    (res.waveChunks.map fun c => setParseChunk c false).Pairwise DeviceDisjoint ↔
      ∀ i (hi : i < res.waveChunks.length), 0 < res.waveChunks[i].decompressedNbytes →
        Packing.start (sizesOf res.waveChunks) i < 2 ^ 32 := by
  have hmod := Packing.disjoint_mod_iff (sizesOf res.waveChunks) (M := 2 ^ 32) (by decide)
  simp only [Packing.PairwiseDisjoint, sizesOf, length_map, getElem_map] at hmod
  rw [sizesOf, ← hmod, pairwise_map, pairwise_iff_getElem]
  constructor
  · intro hpair i hi j hj hij
    have hdisj := hpair i j hi hj hij
    rwa [DeviceDisjoint, setParseChunk, setParseChunk, h.device i hi, h.device j hj] at hdisj
  · intro hpair i j hi hj hij
    rw [DeviceDisjoint, setParseChunk, setParseChunk, h.device i hi, h.device j hj]
    exact hpair i hi j hj hij

theorem WaveChunks.inOwnRead_iff {res : Reservation} (h : WaveChunks limits out res)
    {c : PlacedChunk} (hc : c ∈ res.waveChunks) (hfill : c.isFill = false) :
    InOwnRead limits res c ↔ c.hostBufOffset + c.offsetInRead < 2 ^ 32 := by
  obtain ⟨r, hr, hfits, hmem, hcap, hle⟩ := h.compressed c hc hfill
  have hnbytes := hfits.nbytes_lt
  constructor
  · rintro ⟨r', -, -, -, hlo, -⟩
    by_contra hge
    -- a truncated start lies below the read, since the offset in the read has 32 bits
    have hmod := chunkCompressedOffset_eq c
    have hlo' : c.hostBufOffset ≤ chunkCompressedOffset c := hlo
    omega
  · intro hlt
    have hoff : (setParseChunk c false).compressedOffset = c.hostBufOffset + c.offsetInRead :=
      (chunkCompressedOffset_eq c).trans (Nat.mod_eq_of_lt hlt)
    refine ⟨r, hr, hmem, hcap, ?_, ?_⟩
    · omega
    · rw [hoff]
      show _ + c.compressedNbytes ≤ _
      omega

theorem WaveChunks.notTruncated {res : Reservation} (h : WaveChunks limits out res)
    (hdev : limits.devDecompressedCap ≤ 2 ^ 32) (hin : limits.inputCap ≤ 2 ^ 32)
    (hstored : ∀ c ∈ res.waveChunks, c.isFill = false → 0 < c.compressedNbytes) :
    NotTruncated res := by
  refine ⟨fun i hi hpos => ?_, fun c hc hfill => ?_⟩
  · have hi' : i < (sizesOf res.waveChunks).length := by simpa [sizesOf] using hi
    have hend := Packing.start_add_le_sum hi'
    simp only [sizesOf, getElem_map] at hend
    have hsum := h.sum_le
    rw [sizesOf] at hsum ⊢
    omega
  · obtain ⟨r, -, -, -, hcap, hle⟩ := h.compressed c hc hfill
    have hpos := hstored c hc hfill
    omega

theorem WaveChunks.waveWindows {res : Reservation} (h : WaveChunks limits out res)
    (hfit : NotTruncated res) : WaveWindows limits res := by
  refine ⟨h.disjoint_iff.mpr hfit.device, fun c hc => ?_,
    fun c hc hfill => (h.inOwnRead_iff hc hfill).mpr (hfit.host c hc hfill)⟩
  obtain ⟨i, hi, rfl⟩ := getElem_of_mem hc
  have hi' : i < (sizesOf res.waveChunks).length := by simpa [sizesOf] using hi
  have hend := Packing.mod_add_le_sum hi' (2 ^ 32)
  rw [← h.device i hi] at hend
  simp only [sizesOf, getElem_map] at hend
  exact hend.trans h.sum_le

/-- **The windows of a wave.** For every plan that is built and dispatched, every job that waves are
reserved from and every limits, the windows recorded for a reserved wave are disjoint, inside the
device buffer and inside the reads they belong to if and only if no start exceeds 32 bits, by the
sums over the groups and the chunks of the job before the wave is reserved. -/
theorem waveWindows_iff {planMem : PlanMemory} {arrays : PrefetchHandle → CacheQuery ZarrMetadata}
    {shards : PrefetchHandle → CacheQuery (List ShardEntry)} {samples : List PlannerSample}
    {output : BatchSpec} {planLimits : PlanLimits} {plan : PreparedPlan} {mem : DispatchMemory}
    {args : DispatchArgs} {caps : DispatchCaps}
    (hplan : preparedPlanBuild planMem arrays shards samples output planLimits = .ok plan)
    (hdispatch : dispatchPlanBuild mem plan args caps = .ok out) (hrun : JobRun limits out job)
    (hwork : renderJobHasWork job = true)
    (hok : (waveDispatcherReserve job idx limits).status = .ok) :
    WaveWindows limits (waveDispatcherReserve job idx limits) ↔ StartsFit limits job := by
  have hout := dispatchPlanBuild_groups (preparedPlanBuild_sizes hplan) hdispatch
  have hchunks := waveDispatcherReserve_waveChunks hout (hrun.jobAt hout) hwork hok
  rw [startsFit_iff hout (hrun.jobAt hout) hwork hok]
  constructor
  · intro h
    exact ⟨hchunks.disjoint_iff.mp h.disjoint,
      fun c hc hfill => (hchunks.inOwnRead_iff hc hfill).mp (h.compressed c hc hfill)⟩
  · exact hchunks.waveWindows

end Windows

/-- Three chunks of 2 GiB under a budget of 64 GiB. The wave has room for them, but the third starts
at 4 GiB, which is recorded as 0: its window is that of the first. -/
theorem waveWindows_wide_overlap :
    CudaAccepted Strip.nvComp (wide.config (2 ^ 36)) wideGeometry ∧
    wide.build = .ok wide.plan ∧
    wide.dispatchBuild (2 ^ 36) wideGeometry = .ok wide.dispatched ∧
    (waveDispatcherReserve wide.job 0 wideLimits).status = .ok ∧
    ¬ WaveWindows wideLimits (waveDispatcherReserve wide.job 0 wideLimits) := by
  refine ⟨⟨⟨?_, ?_, ?_, ?_⟩, ?_, 1, ?_⟩, wide_build, wide_dispatchBuild, ?_, fun h => ?_⟩
  iterate 7 decide +kernel
  have hpairs := pairwise_iff_getElem.mp h.disjoint 0 2 (by decide) (by decide) (by decide)
  exact Set.disjoint_left.mp hpairs (Set.left_mem_Ico.mpr (by decide +kernel))
    (Set.mem_Ico.mpr (by decide +kernel))

/-- The first chunks of 1 MiB, in a wave with room for them. -/
theorem waveWindows_narrow :
    (waveDispatcherReserve narrow.job 0 ⟨2 ^ 21, 2 ^ 21, 4⟩).status = .ok ∧
    WaveWindows ⟨2 ^ 21, 2 ^ 21, 4⟩ (waveDispatcherReserve narrow.job 0 ⟨2 ^ 21, 2 ^ 21, 4⟩) := by
  have hplan : narrow.build = .ok narrow.plan := by decide +kernel
  have hdispatch : narrow.dispatchBuild (2 ^ 36) narrowGeometry = .ok narrow.dispatched := by
    decide +kernel
  have hout := dispatchPlanBuild_groups (preparedPlanBuild_sizes hplan) hdispatch
  have hrun : JobRun ⟨2 ^ 21, 2 ^ 21, 4⟩ narrow.dispatched narrow.job := .commit 0 0
  have hok : (waveDispatcherReserve narrow.job 0 ⟨2 ^ 21, 2 ^ 21, 4⟩).status = .ok := by
    decide +kernel
  have hchunks := waveDispatcherReserve_waveChunks hout (hrun.jobAt hout) rfl hok
  exact ⟨hok, (waveWindows_iff hplan hdispatch hrun rfl hok).mpr
    ((startsFit_iff hout (hrun.jobAt hout) rfl hok).mpr
      (hchunks.notTruncated (by decide) (by decide) (by decide +kernel)))⟩

end Damacy

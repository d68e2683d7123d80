import Damacy.Lib.ByteWrites
import Damacy.Wave.WaveWindows

/-!
# The waves of a batch

A batch is rendered by the waves that are reserved from its job until no work is left. Together they
hold every chunk plan once and in order (`JobWaves.plans`), every chunk plan stands for a use of the
plan, and the input buffer of a wave holds, where a stored chunk was placed, the bytes of the file
(`WaveChunks.load_input`).
-/

open List ByteWrites

namespace Damacy

/-- A wave that is reserved, with the job as it stood before. -/
structure WaveStep where
  job : RenderJob
  renderJobIdx : ℕ

def WaveStep.wave (limits : WavePackLimits) (step : WaveStep) : Reservation :=
  waveDispatcherReserve step.job step.renderJobIdx limits

/-- The waves reserved from the job of a batch, without those that were rolled back. -/
inductive JobWaves (limits : WavePackLimits) (out : DispatchOutput) :
    RenderJob → List WaveStep → Prop
  | commit (slot batchId : ℕ) : JobWaves limits out (renderJobCommitPlan slot batchId out) []
  | reserve {job : RenderJob} {steps : List WaveStep} (idx : ℕ)
      (h : JobWaves limits out job steps) (hwork : renderJobHasWork job = true)
      (hok : (waveDispatcherReserve job idx limits).status = .ok) :
      JobWaves limits out (waveDispatcherReserve job idx limits).job (steps ++ [⟨job, idx⟩])
  | rollback {job : RenderJob} {steps : List WaveStep} (idx : ℕ)
      (h : JobWaves limits out job steps) (hwork : renderJobHasWork job = true)
      (hok : (waveDispatcherReserve job idx limits).status = .ok) :
      JobWaves limits out (renderJobRollbackWave (waveDispatcherReserve job idx limits).job
        (waveDispatcherReserve job idx limits).desc) steps

/-- A step that reserves a wave from a job at the start of a group. -/
structure WaveStep.Reserves (limits : WavePackLimits) (out : DispatchOutput) (step : WaveStep) :
    Prop where
  jobAt : JobAt out step.job
  hasWork : renderJobHasWork step.job = true
  ok : (step.wave limits).status = .ok

section Waves

variable {maxChunks : ℕ} {out : DispatchOutput} {limits : WavePackLimits} {job : RenderJob}
  {steps : List WaveStep} {step : WaveStep} {res : Reservation}

theorem JobWaves.jobRun (h : JobWaves limits out job steps) : JobRun limits out job := by
  induction h with
  | commit slot batchId => exact .commit slot batchId
  | reserve idx _ _ hok ih => exact .reserve idx ih hok
  | rollback idx _ _ hok ih => exact .rollback idx ih hok

theorem JobWaves.reserves (hout : ReadGroups maxChunks out) (h : JobWaves limits out job steps) :
    ∀ step ∈ steps, step.Reserves limits out := by
  induction h with
  | commit slot batchId => simp
  | reserve idx h hwork hok ih =>
    intro step hstep
    rcases mem_append.mp hstep with hstep | hstep
    · exact ih step hstep
    · obtain rfl := mem_singleton.mp hstep
      exact ⟨h.jobRun.jobAt hout, hwork, hok⟩
  | rollback idx h hwork hok ih => exact ih

theorem WaveStep.Reserves.waveChunks (hout : ReadGroups maxChunks out)
    (h : step.Reserves limits out) : WaveChunks limits out (step.wave limits) :=
  waveDispatcherReserve_waveChunks hout h.jobAt h.hasWork h.ok

theorem rollback_cursors (hout : ReadGroups maxChunks out) (hjob : JobAt out job)
    (hwork : renderJobHasWork job = true) {idx : ℕ}
    (hok : (waveDispatcherReserve job idx limits).status = .ok) :
    (renderJobRollbackWave (waveDispatcherReserve job idx limits).job
      (waveDispatcherReserve job idx limits).desc).nChunksDispatched = job.nChunksDispatched := by
  have hback := hjob.rollback hout idx hok
  have hgroups := (waveDispatcherReserve_ok hwork idx hok).2.2.2.2.2
  rw [hback.chunks, hback.groups, hjob.chunks, hjob.groups]
  exact congrArg _ hgroups

/-- **The waves hold the chunk plans in order**, up to the cursor of the job. -/
theorem JobWaves.plans (hout : ReadGroups maxChunks out) (h : JobWaves limits out job steps) :
    plansOf (steps.flatMap fun step => (step.wave limits).waveChunks) =
      out.chunkPlans.take job.nChunksDispatched := by
  induction h with
  | commit slot batchId => rfl
  | @reserve job steps idx h hwork hok ih =>
    have hjob := h.jobRun.jobAt hout
    have hchunks := waveDispatcherReserve_waveChunks hout hjob hwork hok
    obtain ⟨-, hj, -, hn, hoff, -⟩ := waveDispatcherReserve_ok hwork idx hok
    have hnext := (hjob.reserve hout idx hok).chunks
    have hcursor : (waveDispatcherReserve job idx limits).job.nChunksDispatched =
        job.nChunksDispatched + (waveDispatcherReserve job idx limits).desc.nChunks := by
      rw [hj, hn]
      refine u32_of_lt ?_
      obtain ⟨hpacked, -⟩ := packWave_packed hout hjob limits
      rw [hpacked.take, hjob.groups]
      exact (Packing.start_le_sum _ _).trans_lt (hout.tiles.sum ▸ hout.chunks_lt)
    rw [flatMap_append, plansOf, map_append, ← plansOf, ih, flatMap_singleton,
      ← plansOf, WaveStep.wave, hchunks.plans, hoff, hcursor, take_add]
  | rollback idx h hwork hok ih =>
    rw [ih, rollback_cursors hout (h.jobRun.jobAt hout) hwork hok]

theorem JobWaves.exists_wave (hout : ReadGroups maxChunks out) (h : JobWaves limits out job steps)
    (hdone : renderJobHasWork job = false) {cp : ChunkPlan} (hcp : cp ∈ out.chunkPlans) :
    ∃ step ∈ steps, ∃ c ∈ (step.wave limits).waveChunks, c.toChunkPlan = cp := by
  have hjob := h.jobRun.jobAt hout
  have hall : out.chunkPlans.length ≤ job.nChunksDispatched := by
    by_contra hlt
    have hwork : renderJobHasWork job = true := by
      simp only [renderJobHasWork, hjob.state, beq_self_eq_true, Bool.true_and, decide_eq_true_eq,
        hjob.length]
      omega
    rw [hwork] at hdone
    cases hdone
  have hplans := h.plans hout
  rw [take_of_length_le hall] at hplans
  rw [← hplans, plansOf, mem_map] at hcp
  obtain ⟨c, hc, rfl⟩ := hcp
  obtain ⟨step, hstep, hc⟩ := mem_flatMap.mp hc
  exact ⟨step, hstep, c, hc, rfl⟩

theorem WaveChunks.mem_chunkPlans (h : WaveChunks limits out res) {c : PlacedChunk}
    (hc : c ∈ res.waveChunks) : c.toChunkPlan ∈ out.chunkPlans := by
  have hmem : c.toChunkPlan ∈ plansOf res.waveChunks := mem_map_of_mem hc
  rw [h.plans] at hmem
  exact mem_of_mem_drop (mem_of_mem_take hmem)

/-! ## The input buffer -/

/-- What the reads of a wave store in its input buffer, each of them in full. -/
def inputWrites (files : Option CString → ℕ → UInt8) (reads : List StoreRead) :
    List (ℕ × List UInt8) :=
  reads.map fun r => (r.dst, load (files r.key) r.offset r.len)

theorem WaveChunks.inputWrites_disjoint (h : WaveChunks limits out res)
    (files : Option CString → ℕ → UInt8) :
    (inputWrites files res.reads).Pairwise fun v w => Disjoint (window v) (window w) := by
  rw [inputWrites, pairwise_map]
  refine h.reads_apart.imp fun {a b} hab => ?_
  rw [window, window, length_load, length_load, Set.disjoint_left]
  intro x hx hx'
  have := hx.2
  have := hx'.1
  simp only at *
  omega

theorem WaveChunks.load_input (h : WaveChunks limits out res) {c : PlacedChunk}
    (hc : c ∈ res.waveChunks) (hfill : c.isFill = false) {files : Option CString → ℕ → UInt8}
    (old : ℕ → UInt8) {order : List (ℕ × List UInt8)}
    (horder : order.Perm (inputWrites files res.reads)) :
    ∃ r, out.readOps[c.readOpIdx]? = some r ∧
      load (stores old order) (c.hostBufOffset + c.offsetInRead) c.compressedNbytes =
        load (files r.shardPath) (r.fileOffset + c.offsetInRead) c.compressedNbytes := by
  obtain ⟨r, hr, -, hmem, -, hle⟩ := h.compressed c hc hfill
  refine ⟨r, h.readOps ▸ hr, ?_⟩
  have hwrite : (c.hostBufOffset, load (files r.shardPath) r.fileOffset r.nbytes) ∈
      inputWrites files res.reads := mem_map_of_mem hmem
  have hload := load_stores old horder (h.inputWrites_disjoint files) hwrite
  rw [length_load, load_eq_iff] at hload
  rw [load_eq_iff]
  intro k hk
  rw [Nat.add_assoc, Nat.add_assoc]
  exact hload (c.offsetInRead + k) (by omega)

end Waves

/-! ## The uses of a plan -/

section Uses

variable {planMem : PlanMemory} {arrays : PrefetchHandle → CacheQuery ZarrMetadata}
  {shards : PrefetchHandle → CacheQuery (List ShardEntry)} {samples : List PlannerSample}
  {output : BatchSpec} {planLimits : PlanLimits} {plan : PreparedPlan} {mem : DispatchMemory}
  {args : DispatchArgs} {caps : DispatchCaps} {out : DispatchOutput}

theorem dispatchPlanBuild_uses
    (hplan : preparedPlanBuild planMem arrays shards samples output planLimits = .ok plan)
    (hdispatch : dispatchPlanBuild mem plan args caps = .ok out) :
    (∀ cp ∈ out.chunkPlans, ∃ use ∈ plan.uses,
      HasUsePlan plan out.samplePlans out.readOps out.gatherDims use cp) ∧
    ∀ use ∈ plan.uses, ∃ cp ∈ out.chunkPlans,
      HasUsePlan plan out.samplePlans out.readOps out.gatherDims use cp := by
  have hsizes := preparedPlanBuild_sizes hplan
  obtain ⟨-, cps, hperm, hall⟩ := dispatchPlanBuild_spec (preparedPlanBuild_region_sample hplan)
    (fun chunk hchunk => (hsizes.chunk chunk hchunk).stop_lt) hdispatch
  constructor
  · intro cp hcp
    obtain ⟨i, hi, rfl⟩ := getElem_of_mem (hperm.subset hcp)
    have hi' : i < plan.uses.length := hall.length_eq ▸ hi
    exact ⟨_, getElem_mem hi', hall.get hi' hi⟩
  · intro use huse
    obtain ⟨i, hi, rfl⟩ := getElem_of_mem huse
    have hi' : i < cps.length := hall.length_eq ▸ hi
    exact ⟨_, hperm.symm.subset (getElem_mem hi'), hall.get hi hi'⟩

end Uses

end Damacy

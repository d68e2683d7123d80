import Damacy.BatchPool.Layout
import Damacy.Wave.CudaPlan

/-!
# The packed indices of a batch fit (`executor/dispatch.c`)

`cuda_start` sizes the arrays of packed indices and gather dims from the output specification, and
`dispatch_plan_build` fills them from a plan, in fields of 32 bits. `dispatchPlanBuild_packed` says
that the arrays suffice for every plan of a batch, and that no value that is stored is cut off: the
arrays are those that fields of 64 bits would hold (`PackedOutput`).
-/

open List ExceptFold Odometer RowMajor

namespace Damacy

/-! ## The capacities -/

section Capacity

variable {shape : List ℤ} {output : BatchSpec} {cfg : CudaConfig} {layout : BatchLayout}

theorem sumExtents_eq (hpos : ∀ x ∈ shape, 0 < x) (hlt : ∀ x ∈ shape, x < 2 ^ 63) (count : ℕ) :
    sumExtents count shape = .ok (count + (shape.map Int.toNat).sum) ∨
      sumExtents count shape = .error uint64Max := by
  induction shape generalizing count with
  | nil => exact .inl rfl
  | cons x shape ih =>
    rw [forall_mem_cons] at hpos hlt
    rw [sumExtents, if_neg (not_le.mpr hpos.1)]
    split
    · exact .inr rfl
    · rw [u64OfInt_of_nonneg hpos.1.le hlt.1, map_cons, sum_cons, ← Nat.add_assoc]
      exact ih hpos.2 hlt.2 _

theorem dispatchMaxIndices_eq (hfits : output.Fits) (hlt : ∀ x ∈ output.sampleShape, x < 2 ^ 63)
    (hle : dispatchMaxIndices output ≤ uint32Max) :
    dispatchMaxIndices output = output.samplesPerBatch * output.shape.sum := by
  have hguard : ¬ (output.samplesPerBatch = 0 ∨ output.sampleShape.length = 0 ∨
      maxRank < output.sampleShape.length) := by
    have := hfits.samples
    have := hfits.rank
    omega
  unfold dispatchMaxIndices at hle ⊢
  rw [if_neg hguard] at hle ⊢
  rcases sumExtents_eq hfits.pos hlt 0 with hsum | hsum
  · simp only [hsum, Nat.zero_add] at hle ⊢
    split at hle
    · exact absurd hle (by decide)
    · rename_i hfits
      rw [if_neg hfits, Nat.mul_comm]
      rfl
  · simp only [hsum] at hle
    exact absurd hle (by decide)

theorem CudaAccepted.indices_le {nv : NvComp} {geometry : CudaGeometry}
    (h : CudaAccepted nv cfg geometry) (hindexed : cfg.maxIndexBytes ≠ 0) :
    dispatchMaxIndices cfg.output ≤ cfg.maxIndexBytes / sizeofGatherIndex ∧
      cfg.maxIndexBytes / sizeofGatherIndex ≤ uint32Max := by
  obtain ⟨-, hcreate, fuel, hstart⟩ := h
  rw [damacyCudaExecutorCreate, failIf_eq_ok] at hcreate
  unfold cudaStartGeometry at hstart
  split at hstart
  · cases hstart
  · rename_i hcheck
    have hbytes : cfg.maxIndexBytes ≤ uint32Max * sizeofGatherIndex := by
      by_contra hgt
      exact hcreate (.inr (.inr (.inl (not_le.mp hgt))))
    exact ⟨not_lt.mp fun hgt => hcheck ⟨hindexed, hgt⟩, Nat.div_le_of_le_mul
      (hbytes.trans_eq (Nat.mul_comm _ _))⟩

theorem CudaAccepted.caps_eq {nv : NvComp} {geometry : CudaGeometry}
    (h : CudaAccepted nv cfg geometry) (hindexed : cfg.maxIndexBytes ≠ 0) (hfits : cfg.output.Fits)
    (hlt : ∀ x ∈ cfg.output.sampleShape, x < 2 ^ 63) :
    (dispatchCapsOf cfg).indices = cfg.output.samplesPerBatch * cfg.output.shape.sum ∧
      (dispatchCapsOf cfg).gatherDims = maxChunksPerBatch * cfg.output.sampleShape.length := by
  obtain ⟨hle, hmax⟩ := h.indices_le hindexed
  have heq := dispatchMaxIndices_eq hfits hlt (hle.trans hmax)
  have hcap : dispatchIndexCapacity cfg = cfg.output.samplesPerBatch * cfg.output.shape.sum := by
    rw [dispatchIndexCapacity, min_eq_left hle, min_eq_left (hle.trans hmax), heq]
  -- there is at least one index, so there are gather dims
  have hsum : 0 < cfg.output.shape.sum := by
    obtain ⟨x, rest, hcons⟩ := exists_cons_of_length_pos hfits.rank.1
    have := hfits.pos x (hcons ▸ mem_cons_self)
    rw [BatchSpec.shape, hcons, map_cons, sum_cons]
    omega
  refine ⟨hcap, if_neg ?_⟩
  rw [hcap]
  exact (Nat.mul_pos hfits.samples.1 hsum).ne'

end Capacity

/-! ## The loops do not run out of room -/

section Room

variable {mem : DispatchMemory} {plan : PreparedPlan} {caps : DispatchCaps} {slot alignment : ℕ}
  {axes : List RegionAxis} {pre : List GatherIndex}

def axisIndexCount (axes : List RegionAxis) : ℕ := (axes.map fun a => a.dim.count).sum

theorem length_axisIndices (a : RegionAxis) : (axisIndices a).length = a.dim.count :=
  length_map _

theorem sampleDims_length {r : List SampleDim × ℤ × List GatherIndex}
    (h : sampleDims caps axes pre = .ok r) : r.2.2.length = pre.length + axisIndexCount axes := by
  induction axes generalizing r with
  | nil =>
    obtain rfl := Except.ok.inj h
    rfl
  | cons a axes ih =>
    simp only [sampleDims, bind_eq_ok, failIf_eq_ok, exists_const, pure_eq_ok,
      Except.ok.injEq] at h
    obtain ⟨r', hr', -, -, rfl⟩ := h
    have hlen := ih hr'
    show (r'.2.2 ++ axisIndices a).length = pre.length + axisIndexCount (a :: axes)
    rw [length_append, length_axisIndices, hlen, axisIndexCount, axisIndexCount, map_cons,
      sum_cons]
    omega

theorem sampleDims_ne_budget (hroom : pre.length + axisIndexCount axes ≤ caps.indices) :
    sampleDims caps axes pre ≠ .error .budget := by
  induction axes with
  | nil => exact nofun
  | cons a axes ih =>
    rw [axisIndexCount, map_cons, sum_cons] at hroom
    have hrest : pre.length + axisIndexCount axes ≤ caps.indices := by
      rw [axisIndexCount]
      omega
    intro h
    simp only [sampleDims, bind_eq_error, failIf_eq_error, failIf_eq_ok, exists_const] at h
    rcases h with h | ⟨r, hr, ⟨hfull, -⟩ | ⟨-, ⟨-, h⟩ | ⟨-, h⟩⟩⟩
    · exact ih hrest h
    · rw [sampleDims_length hr, axisIndexCount] at hfull
      omega
    · cases h
    · cases h

def RegionsWithin (plan : PreparedPlan) (total : ℕ) : Prop :=
  ∀ region ∈ plan.regions, ∀ array, plan.arrays[region.array]? = some array →
    axisIndexCount (regionAxes plan.output region array.metadata) ≤ total

theorem dispatchRegion_length {total : ℕ} {region : PlanRegion}
    (hwithin : RegionsWithin plan total) (hregion : region ∈ plan.regions)
    {s s' : List SamplePlan × List GatherIndex}
    (h : dispatchRegion plan slot caps s region = .ok s') :
    s'.2.length ≤ s.2.length + total := by
  unfold dispatchRegion at h
  split at h
  · cases h
  · rename_i array harray
    simp only [bind_eq_ok, pure_eq_ok, Except.ok.injEq] at h
    obtain ⟨r, hr, rfl⟩ := h
    have := hwithin region hregion array harray
    have := sampleDims_length hr
    dsimp only
    omega

theorem foldlM_dispatchRegion_length {total : ℕ} (hwithin : RegionsWithin plan total)
    {init : List SamplePlan} {s : List SamplePlan × List GatherIndex}
    (h : plan.regions.foldlM (dispatchRegion plan slot caps) (init, []) = .ok s) :
    s.2.length ≤ plan.regions.length * total := by
  refine foldlM_ok_induction (fun done _ s => s.2.length ≤ done.length * total) (Nat.zero_le _) ?_ h
  intro done region rest s s' hlist hlen hstep
  have := dispatchRegion_length hwithin (by simp [hlist]) hstep
  rw [length_append, length_singleton, Nat.succ_mul]
  omega

theorem foldlM_dispatchRegion_ne_budget {total : ℕ} (hwithin : RegionsWithin plan total)
    (hroom : plan.regions.length * total ≤ caps.indices) (init : List SamplePlan) :
    plan.regions.foldlM (dispatchRegion plan slot caps) (init, []) ≠ .error .budget := by
  intro h
  have hinv := foldlM_error_induction (fun done _ s => s.2.length ≤ done.length * total)
    (Nat.zero_le _) ?_ h
  · obtain ⟨done, region, rest, s, hlist, hlen, hstep⟩ := hinv
    have hregion : region ∈ plan.regions := by simp [hlist]
    unfold dispatchRegion at hstep
    split at hstep
    · cases hstep
    · rename_i array harray
      rcases bind_eq_error.mp hstep with hdims | ⟨r, -, hret⟩
      · refine sampleDims_ne_budget ?_ hdims
        have hcount := hwithin region hregion array harray
        have hmul : (done.length + 1) * total ≤ plan.regions.length * total := by
          apply Nat.mul_le_mul_right
          simp [hlist]
        rw [Nat.succ_mul] at hmul
        omega
      · cases hret
  · intro done region rest s s' hlist hlen hstep
    have := dispatchRegion_length hwithin (by simp [hlist]) hstep
    rw [length_append, length_singleton, Nat.succ_mul]
    omega

theorem dispatchRead_ne_budget (i : ℕ) (chunk : PlanChunk) :
    dispatchRead mem alignment i chunk ≠ .error .budget := by
  intro h
  unfold dispatchRead at h
  split at h
  · cases h
  · simp only [bind_eq_error, failIf_eq_error, failIf_eq_ok, exists_const] at h
    rcases h with ⟨-, h⟩ | ⟨-, ⟨-, h⟩ | ⟨-, ⟨-, h⟩ | ⟨-, h⟩⟩⟩ <;> cases h

def RanksWithin (plan : PreparedPlan) (rank : ℕ) : Prop :=
  ∀ use ∈ plan.uses, ∀ chunk region array, useRecords plan use = some (chunk, region, array) →
    array.metadata.dims.length ≤ rank

variable {rank : ℕ} {samplePlans : List SamplePlan} {s s' : DispatchUses} {item : PlanUse × ℕ}

theorem mem_uses_of_zipIdx {done rest : List (PlanUse × ℕ)}
    (h : plan.uses.zipIdx = done ++ item :: rest) : item.1 ∈ plan.uses := by
  apply fst_mem_of_mem_zipIdx
  rw [h]
  exact mem_append_right _ mem_cons_self

theorem dispatchUse_length (hrank : RanksWithin plan rank) (huse : item.1 ∈ plan.uses)
    (h : dispatchUse mem plan slot alignment caps samplePlans s item = .ok s') :
    s'.reads.length = s.reads.length + 1 ∧ s'.gatherDims.length ≤ s.gatherDims.length + rank := by
  unfold dispatchUse at h
  split at h
  · cases h
  · rename_i chunk region array hrecords
    split at h
    · cases h
    · have hdims := hrank _ huse _ _ _ hrecords
      simp only [bind_eq_ok, failIf_eq_ok, exists_const, pure_eq_ok, Except.ok.injEq] at h
      obtain ⟨-, read, -, rfl⟩ := h
      refine ⟨length_append, ?_⟩
      dsimp only
      split
      · rw [length_append, chunkGatherDims, length_zipWith, length_zip]
        omega
      · rw [append_nil]
        omega

theorem dispatchUse_ne_budget (hrank : RanksWithin plan rank) (huse : item.1 ∈ plan.uses)
    (hroom : s.gatherDims.length + rank ≤ caps.gatherDims) :
    dispatchUse mem plan slot alignment caps samplePlans s item ≠ .error .budget := by
  intro h
  unfold dispatchUse at h
  split at h
  · cases h
  · rename_i chunk region array hrecords
    split at h
    · cases h
    · have hdims := hrank _ huse _ _ _ hrecords
      simp only [bind_eq_error, failIf_eq_error, failIf_eq_ok, exists_const] at h
      rcases h with ⟨⟨-, hfull⟩, -⟩ | ⟨-, h | ⟨_, -, h⟩⟩
      · omega
      · exact dispatchRead_ne_budget _ _ h
      · cases h

theorem foldlM_dispatchUse_length (hrank : RanksWithin plan rank)
    (h : plan.uses.zipIdx.foldlM (dispatchUse mem plan slot alignment caps samplePlans)
      ⟨[], [], []⟩ = .ok s) :
    s.reads.length = plan.uses.length ∧ s.gatherDims.length ≤ plan.uses.length * rank := by
  have hinv := foldlM_ok_induction (fun done _ s => s.reads.length = done.length ∧
    s.gatherDims.length ≤ done.length * rank) ⟨rfl, Nat.zero_le _⟩ ?_ h
  · rwa [length_zipIdx] at hinv
  · intro done item rest s s' hlist hdone hstep
    have huse := mem_uses_of_zipIdx hlist
    have := dispatchUse_length hrank huse hstep
    rw [length_append, length_singleton, Nat.succ_mul]
    omega

theorem foldlM_dispatchUse_ne_budget (hrank : RanksWithin plan rank)
    (hroom : plan.uses.length * rank ≤ caps.gatherDims) :
    plan.uses.zipIdx.foldlM (dispatchUse mem plan slot alignment caps samplePlans)
      ⟨[], [], []⟩ ≠ .error .budget := by
  intro h
  have hinv := foldlM_error_induction
    (fun done _ s => s.gatherDims.length ≤ done.length * rank) (Nat.zero_le _) ?_ h
  · obtain ⟨done, item, rest, s, hlist, hlen, hstep⟩ := hinv
    have huse := mem_uses_of_zipIdx hlist
    refine dispatchUse_ne_budget hrank huse ?_ hstep
    have hmul : (done.length + 1) * rank ≤ plan.uses.length * rank := by
      apply Nat.mul_le_mul_right
      have := congrArg List.length hlist
      simp only [length_zipIdx, length_append, length_cons] at this
      omega
    rw [Nat.succ_mul] at hmul
    omega
  · intro done item rest s s' hlist hlen hstep
    have huse := mem_uses_of_zipIdx hlist
    have := dispatchUse_length hrank huse hstep
    rw [length_append, length_singleton, Nat.succ_mul]
    omega

variable {maxBytes maxChunks : ℕ} {out out' : DispatchOutput}

theorem coalesceChunks_ne_budget : coalesceChunks maxBytes maxChunks out ≠ .error .budget := by
  intro h
  unfold coalesceChunks at h
  split at h
  · cases h
  · rcases bind_eq_error.mp h with h | ⟨_, -, h⟩
    · obtain ⟨cp, -, h⟩ := exists_of_mapM_eq_error h
      simp only [coalesceChunk, bind_eq_error, failIf_eq_error] at h
      rcases h with ⟨-, h⟩ | ⟨_, -, h⟩ <;> cases h
    · cases h

theorem coalesceChunks_packed (h : coalesceChunks maxBytes maxChunks out = .ok out') :
    out'.indices = out.indices ∧ out'.gatherDims = out.gatherDims := by
  unfold coalesceChunks at h
  split at h
  · obtain rfl := Except.ok.inj h
    exact ⟨rfl, rfl⟩
  · simp only [bind_eq_ok, pure_eq_ok, Except.ok.injEq] at h
    obtain ⟨chunkPlans, -, rfl⟩ := h
    exact ⟨rfl, rfl⟩

theorem coalesceChunks_length (h : coalesceChunks maxBytes maxChunks out = .ok out') :
    out'.readOps.length ≤ out.readOps.length := by
  unfold coalesceChunks at h
  split at h
  · obtain rfl := Except.ok.inj h
    exact le_rfl
  · simp only [bind_eq_ok, pure_eq_ok, Except.ok.injEq] at h
    obtain ⟨chunkPlans, -, rfl⟩ := h
    show (List.take _ (Scatter.scatter _ _ _ out.readOps)).length ≤ _
    rw [length_take, Scatter.length_scatter]
    exact min_le_right _ _

theorem groupChunksByRead_ne_budget (hpresent : caps.groupsPresent = true)
    (hroom : out.readOps.length ≤ caps.readOpGroups) :
    groupChunksByRead caps out ≠ .error .budget := by
  intro h
  simp only [groupChunksByRead] at h
  split at h
  · cases h
  · simp only [bind_eq_error, failIf_eq_error, failIf_eq_ok, exists_const] at h
    rcases h with ⟨hfull, -⟩ | ⟨-, ⟨-, h⟩ | ⟨-, h⟩⟩
    · rw [hpresent] at hfull
      simp only [Bool.true_eq_false, false_or] at hfull
      omega
    · cases h
    · cases h

theorem dispatchPlanBuild_ne_budget {total : ℕ} (args : DispatchArgs)
    (hwithin : RegionsWithin plan total) (hrank : RanksWithin plan rank)
    (hindices : plan.regions.length * total ≤ caps.indices)
    (hgather : plan.uses.length * rank ≤ caps.gatherDims)
    (hplans : plan.uses.length ≤ caps.chunkPlans) (hreads : plan.uses.length ≤ caps.readOps)
    (hsamples : plan.regions.length ≤ caps.samplePlans) (hpresent : caps.groupsPresent = true)
    (hgroups : plan.uses.length ≤ caps.readOpGroups) :
    dispatchPlanBuild mem plan args caps ≠ .error .budget := by
  intro h
  simp only [dispatchPlanBuild, bind_eq_error, failIf_eq_error, failIf_eq_ok, exists_const] at h
  rcases h with ⟨-, h⟩ | ⟨-, ⟨hfull, -⟩ | ⟨-, h | ⟨samples, -, h | ⟨uses, huses, ⟨-, h⟩ |
    ⟨-, h | ⟨merged, hmerged, h⟩⟩⟩⟩⟩⟩
  · cases h
  · omega
  · exact foldlM_dispatchRegion_ne_budget hwithin hindices _ h
  · exact foldlM_dispatchUse_ne_budget hrank hgather h
  · cases h
  · exact coalesceChunks_ne_budget h
  · refine groupChunksByRead_ne_budget hpresent ?_ h
    have := coalesceChunks_length hmerged
    have := (foldlM_dispatchUse_length hrank huses).1
    dsimp only at *
    omega

theorem dispatchPlanBuild_lengths {total : ℕ} {args : DispatchArgs}
    (hwithin : RegionsWithin plan total) (hrank : RanksWithin plan rank)
    (h : dispatchPlanBuild mem plan args caps = .ok out) :
    out.indices.length ≤ plan.regions.length * total ∧
      out.gatherDims.length ≤ plan.uses.length * rank := by
  simp only [dispatchPlanBuild, bind_eq_ok, failIf_eq_ok, exists_const] at h
  obtain ⟨-, -, samples, hregions, uses, huses, -, merged, hmerged, hgroup⟩ := h
  have hindices := foldlM_dispatchRegion_length hwithin hregions
  have hgather := (foldlM_dispatchUse_length hrank huses).2
  obtain ⟨-, -, -, hi, hg⟩ := groupChunksByRead_spec hgroup
  obtain ⟨hmi, hmg⟩ := coalesceChunks_packed hmerged
  rw [hi, hg, hmi, hmg]
  exact ⟨hindices, hgather⟩

end Room

/-! ## Values of 64 bits -/

section Wide

def wideIndices (a : RegionAxis) : List GatherIndex :=
  a.dim.indices.map fun e => ⟨e.source % a.zarr.innerChunkShape, e.output⟩

def wideSampleDim (a : RegionAxis) (sourceStride : ℤ) (indexOffset : ℕ) : SampleDim :=
  let chunk := a.zarr.innerChunkShape
  let begin_ := u64OfInt a.dim.bounds.beg / chunk
  let stop := u64Sub (u64OfInt a.dim.bounds.stop) 1 / chunk + 1
  { sampleDim a sourceStride indexOffset with
    chunkShape := chunk
    chunkGridExtent := if a.dim.count ≠ 0 then 0 else u64Sub stop begin_ }

def wideRelativeChunk (dim : QueryDim) (d : ZarrDim) (coordinate : ℕ) : ℕ :=
  u64Sub coordinate (u64OfInt dim.bounds.beg / d.innerChunkShape)

def wideGatherDim (dim : QueryDim) (d : ZarrDim) (coordinate indexOffset : ℕ) : GatherDim :=
  let origin := u64 (coordinate * d.innerChunkShape)
  let span := queryChunkSpan dim origin d.innerChunkShape
  { begin_ := if dim.count ≠ 0 then indexOffset + span.begin_ else u64Sub span.begin_ origin
    count := span.count
    outputBegin := if dim.count ≠ 0 then 0 else u64Sub span.begin_ (u64OfInt dim.bounds.beg) }

variable {r : PlanRow} {a : RegionAxis} {k : ℕ}

theorem axisIndices_eq_wide (hpos : 0 < a.zarr.innerChunkShape)
    (hinner : a.zarr.innerChunkShape < 2 ^ 32) : axisIndices a = wideIndices a := by
  apply map_congr_left
  intro e _
  rw [u32_of_lt ((Nat.mod_lt _ hpos).trans hinner)]

theorem PlanRow.gridExtent_lt (h : r.Wf) (hix : r.1.indices = [])
    (hlen : r.chunkCells.length < 2 ^ 32) :
    u64Sub (u64Sub (u64OfInt r.1.bounds.stop) 1 / r.2.innerChunkShape + 1)
      (u64OfInt r.1.bounds.beg / r.2.innerChunkShape) < 2 ^ 32 := by
  have hlo := h.dim.lo_lt_hi
  have hhi := h.dim.hi_lt
  have hlast : (r.1.hi - 1) / r.2.innerChunkShape ∈ r.chunkCells := by
    rw [PlanRow.mem_chunkCells h]
    refine ⟨r.1.hi - 1, ?_, rfl⟩
    rw [QueryDim.Selects, if_pos hix]
    omega
  obtain ⟨hle, hlt⟩ := PlanRow.sub_lt_length h hix hlast
  have hstop : u64Sub r.1.hi 1 = r.1.hi - 1 := u64Sub_of_le (by omega) (by omega)
  rw [h.dim.u64OfInt_beg, h.dim.u64OfInt_stop, hstop, u64Sub_of_le (by omega) (by omega)]
  omega

theorem sampleDim_eq_wide (h : r.Wf) (hlen : r.chunkCells.length < 2 ^ 32)
    (hinner : r.2.innerChunkShape < 2 ^ 32) (hdim : a.dim = r.1) (hzarr : a.zarr = r.2)
    (stride : ℤ) (indexOffset : ℕ) :
    sampleDim a stride indexOffset = wideSampleDim a stride indexOffset := by
  simp only [wideSampleDim, sampleDim, hdim, hzarr, u32_of_lt hinner]
  congr 1
  by_cases hix : r.1.indices = []
  · rw [u32_of_lt (PlanRow.gridExtent_lt h hix hlen)]
  · have hcount : r.1.count ≠ 0 := by simpa [QueryDim.count] using hix
    rw [if_pos hcount, if_pos hcount]

theorem relativeChunk_eq_wide (h : r.Wf) (hix : r.1.indices = []) (hk : k ∈ r.chunkCells)
    (hlen : r.chunkCells.length < 2 ^ 32) :
    relativeChunk r.1 r.2 k = wideRelativeChunk r.1 r.2 k := by
  obtain ⟨hle, hlt⟩ := PlanRow.sub_lt_length h hix hk
  rw [relativeChunk, wideRelativeChunk, h.dim.u64OfInt_beg, u64Sub_of_le hle (by omega),
    u32_of_lt (by omega)]

theorem gatherDim_eq_wide (hwf : (r.axis k).Wf k) {indexOffset : ℕ}
    (hoffset : indexOffset + r.1.count < 2 ^ 32) :
    gatherDim r.1 r.2 k indexOffset = wideGatherDim r.1 r.2 k indexOffset := by
  have horigin : u64 (k * r.2.innerChunkShape) = (r.axis k).origin :=
    u64_of_lt (show (r.axis k).origin < 2 ^ 64 from hwf.origin_lt.trans (by decide))
  have hbeg : u64OfInt r.1.bounds.beg = r.1.lo := hwf.dim.u64OfInt_beg
  have hspan : queryChunkSpan r.1 (r.axis k).origin r.2.innerChunkShape = (r.axis k).span := rfl
  rw [wideGatherDim, horigin, hbeg, hspan]
  by_cases hix : r.1.indices = []
  · have hcount : ¬ r.1.count ≠ 0 := by simp [QueryDim.count, hix]
    obtain ⟨heq, hbegin, hend⟩ := gatherDim_interval hwf hix indexOffset
    have hinner := hwf.inner_lt
    have ho := hwf.origin_lt
    rw [heq, if_neg hcount, if_neg hcount, u64Sub_of_le (by omega) (by omega),
      u64Sub_of_le (by omega) (by omega)]
  · have hcount : r.1.count ≠ 0 := by simpa [QueryDim.count] using hix
    rw [gatherDim_indices hwf hix hoffset, if_pos hcount, if_pos hcount]

/-- An axis of a sample plan, whose values and packed indices are not cut off. -/
structure WideAxis (indices : List GatherIndex) (a : RegionAxis) (sd : SampleDim) : Prop where
  eq : sd = wideSampleDim a sd.srcStride sd.indexOffset
  slice : ∀ j < a.dim.count, indices[sd.indexOffset + j]? = (wideIndices a)[j]?
  offset_lt : sd.indexOffset + a.dim.count < 2 ^ 32

/-- A chunk plan of a use, whose relative coordinates or gather dims are not cut off. -/
structure WideUse (plan : PreparedPlan) (out : DispatchOutput) (use : PlanUse) (cp : ChunkPlan)
    (chunk : PlanChunk) (region : PlanRegion) (array : PlanArray) (s : SamplePlan) : Prop where
  records : useRecords plan use = some (chunk, region, array)
  sample : out.samplePlans[region.sample]? = some s
  chunkD : s.indexed = false → cp.chunkD = List.zipWith
    (fun (d : QueryDim × ZarrDim) c => wideRelativeChunk d.1 d.2 c)
    (region.dims.zip array.metadata.dims) chunk.coordinate
  gather : s.indexed = true → gatherSlice out.gatherDims s cp.gatherOffset = List.zipWith
    (fun (d : QueryDim × ZarrDim) (c : ℕ × SampleDim) => wideGatherDim d.1 d.2 c.1 c.2.indexOffset)
    (region.dims.zip array.metadata.dims) (chunk.coordinate.zip s.dims)
  offset_lt : s.indexed = true → cp.gatherOffset < 2 ^ 32

/-- What dispatch makes of a plan, with nothing cut off. -/
structure PackedOutput (plan : PreparedPlan) (out : DispatchOutput) : Prop where
  indices_lt : out.indices.length < 2 ^ 32
  gatherDims_lt : out.gatherDims.length < 2 ^ 32
  region : ∀ region ∈ plan.regions, ∃ array s, plan.arrays[region.array]? = some array ∧
    out.samplePlans[region.sample]? = some s ∧
    List.Forall₂ (WideAxis out.indices) (regionAxes plan.output region array.metadata) s.dims
  use : ∃ cps, out.chunkPlans.Perm cps ∧ List.Forall₂ (fun use cp =>
    ∃ chunk region array s, WideUse plan out use cp chunk region array s) plan.uses cps

end Wide

/-! ## A dispatched batch -/

section Batch

variable {arrays : PrefetchHandle → CacheQuery ZarrMetadata}
  {shards : PrefetchHandle → CacheQuery (List ShardEntry)} {output : BatchSpec}
  {limits : PlanLimits} {raws : List Sample} {samples : List PlannerSample} {plan : PreparedPlan}
  {layout : BatchLayout} {i : ℕ} {raw : Sample} {sample : PlannerSample} {ctx : PlanSampleCtx}
  {vs : List Visit} {rows : List PlanRow}

theorem SampleSpec.exists_cell
    (hs : SampleSpec arrays shards raws samples output limits plan i raw sample ctx vs rows) :
    ∃ c, c ∈ cartesian (rows.map PlanRow.chunkCells) := by
  have hcells : ∀ r ∈ rows, ∃ k, k ∈ r.chunkCells := by
    intro r hr
    have hwf := hs.walk.rows_wf r hr
    simp only [PlanRow.mem_chunkCells hwf]
    by_cases hix : r.1.indices = []
    · refine ⟨_, r.1.lo, ?_, rfl⟩
      rw [QueryDim.Selects, if_pos hix]
      exact ⟨le_rfl, hwf.dim.lo_lt_hi⟩
    · obtain ⟨e, rest, hcons⟩ := exists_cons_of_ne_nil hix
      refine ⟨_, e.source, ?_, rfl⟩
      rw [QueryDim.Selects, if_neg hix]
      exact ⟨e, hcons ▸ mem_cons_self, rfl⟩
  simp only [mem_cartesian, List.forall₂_map_right_iff]
  clear hs
  induction rows with
  | nil => exact ⟨[], .nil⟩
  | cons r rows ih =>
    rw [forall_mem_cons] at hcells
    obtain ⟨k, hk⟩ := hcells.1
    obtain ⟨c, hc⟩ := ih hcells.2
    exact ⟨k :: c, .cons hk hc⟩

theorem BatchPlan.region_spec (h : BatchPlan arrays shards raws samples output limits plan layout)
    {region : PlanRegion} (hregion : region ∈ plan.regions) :
    ∃ i raw sample ctx vs rows,
      SampleSpec arrays shards raws samples output limits plan i raw sample ctx vs rows ∧
      region = planRegion sample i ctx.array := by
  obtain ⟨walks, hspec⟩ := h.exists_spec
  obtain ⟨i, hi, rfl⟩ := getElem_of_mem hregion
  obtain ⟨raw, sample, ctx, vs, rows, hs, -⟩ := h.exists_use (hspec.regions_length ▸ hi)
  refine ⟨i, raw, sample, ctx, vs, rows, hs, ?_⟩
  exact Option.some.inj ((getElem?_eq_getElem hi).symm.trans hs.region)

theorem SampleSpec.regionAxes
    (hs : SampleSpec arrays shards raws samples output limits plan i raw sample ctx vs rows)
    (h : BatchPlan arrays shards raws samples output limits plan layout) :
    List.Forall₂ (fun a r => a.dim = r.1 ∧ a.zarr = r.2 ∧ a.extent = r.1.extent)
      (Damacy.regionAxes output (planRegion sample i ctx.array) ctx.metadata) rows := by
  obtain ⟨c, hc⟩ := hs.exists_cell
  obtain ⟨hshape, -⟩ := hs.sampleShape_eq
  rw [hs.walk.dims] at hshape
  exact (forall₂_regionAxes hs.walk.dims hs.walk.metadata
    (hshape.trans (congrArg (List.map Nat.cast) map_map)) (h.useWf hs hc).shape_pos).1

theorem BatchPlan.regionsWithin
    (h : BatchPlan arrays shards raws samples output limits plan layout) :
    RegionsWithin plan output.shape.sum := by
  intro region hregion array harray
  obtain ⟨walks, hspec⟩ := h.exists_spec
  obtain ⟨i, raw, sample, ctx, vs, rows, hs, rfl⟩ := h.region_spec hregion
  obtain rfl := Option.some.inj (harray.symm.trans hs.array)
  have haxes := hs.regionAxes h
  rw [hspec.output_eq, (h.layout_spec hs).1, hs.walk.dims, map_map, axisIndexCount]
  have hcounts : (Damacy.regionAxes output (planRegion sample i ctx.array) ctx.metadata).map
      (fun a => a.dim.count) = rows.map fun r => r.1.count :=
    map_eq_of_forall₂ haxes fun a r har => by rw [har.1]
  rw [hcounts]
  apply sum_le_sum
  intro r _
  show r.1.indices.length ≤ r.1.extent
  unfold QueryDim.extent
  split
  · rename_i hix
    rw [hix]
    exact Nat.zero_le _
  · exact le_rfl

theorem BatchPlan.ranksWithin
    (h : BatchPlan arrays shards raws samples output limits plan layout) :
    RanksWithin plan output.sampleShape.length := by
  intro use huse chunk region array hrecords
  obtain ⟨i, raw, sample, ctx, vs, rows, chunk', hu⟩ := h.use_spec huse
  have heq := hrecords.symm.trans hu.records
  simp only [Option.some.injEq, Prod.mk.injEq] at heq
  obtain ⟨-, -, rfl⟩ := heq
  dsimp only
  rw [hu.spec.sampleShape_eq.1, hu.spec.walk.dims, hu.spec.walk.metadata]
  simp

theorem BatchPlan.extent_lt (h : BatchPlan arrays shards raws samples output limits plan layout) :
    ∀ x ∈ output.sampleShape, x < 2 ^ 63 := by
  obtain ⟨walks, hspec⟩ := h.exists_spec
  obtain ⟨raw, sample, ctx, vs, rows, hs, -⟩ :=
    h.exists_use (length_pos_of_ne_nil hspec.ne_nil)
  obtain ⟨hshape, hext⟩ := hs.sampleShape_eq
  intro x hx
  rw [hshape, map_map] at hx
  obtain ⟨dim, hdim, rfl⟩ := mem_map.mp hx
  have := hext dim hdim
  show ((dim.extent : ℕ) : ℤ) < 2 ^ 63
  omega

section Dispatched

variable {mem : DispatchMemory} {args : DispatchArgs} {caps : DispatchCaps} {out : DispatchOutput}

theorem SampleSpec.wideAxes
    (hs : SampleSpec arrays shards raws samples output limits plan i raw sample ctx vs rows)
    (h : BatchPlan arrays shards raws samples output limits plan layout) {dims : List SampleDim}
    (hdims : List.Forall₂ (SampleAxis caps out.indices)
      (Damacy.regionAxes output (planRegion sample i ctx.array) ctx.metadata) dims) :
    List.Forall₂ (WideAxis out.indices)
      (Damacy.regionAxes output (planRegion sample i ctx.array) ctx.metadata) dims := by
  have haxes := hs.regionAxes h
  obtain ⟨c, hc⟩ := hs.exists_cell
  have hcaps := caps.indices_lt
  rw [List.forall₂_iff_get] at haxes hdims ⊢
  refine ⟨hdims.1, fun d h1 h2 => ?_⟩
  have hd : d < rows.length := haxes.1 ▸ h1
  obtain ⟨hdim, hzarr, -⟩ := haxes.2 d h1 hd
  have hsd := hdims.2 d h1 h2
  have hr : rows.get ⟨d, hd⟩ ∈ rows := get_mem _ _
  have hwf := hs.walk.rows_wf _ hr
  have hinner := hs.inner_prod_lt.2 _ hr
  refine ⟨?_, fun j hj => ?_, hsd.offset_le.trans_lt hcaps⟩
  · conv_lhs => rw [hsd.eq]
    exact sampleDim_eq_wide hwf (hs.chunkCells_lt hc hr) hinner hdim hzarr _ _
  · rw [hsd.slice j hj, axisIndices_eq_wide]
    · rw [hzarr]
      exact hwf.inner_pos
    · rw [hzarr]
      exact hinner

theorem DispatchedUse.wideUse {slot : ℕ} {use : PlanUse} {chunk : PlanChunk} {cp : ChunkPlan}
    {s : SamplePlan} (hd : DispatchedUse arrays shards raws samples output limits plan caps slot out
      i raw sample ctx vs rows use chunk cp s)
    (h : BatchPlan arrays shards raws samples output limits plan layout)
    (hlt : out.gatherDims.length < 2 ^ 32) :
    WideUse plan out use cp chunk (planRegion sample i ctx.array) ⟨sample.query.uri, ctx.metadata⟩
      s := by
  have haxes := hd.axes h
  have hs := hd.use_spec.spec
  have hlen := hd.length_coordinate
  have hwf := (h.useWf hs hd.use_spec.coordinate).axes_wf
  have hdims : (planRegion sample i ctx.array).dims = rows.map Prod.fst := hs.walk.dims
  have hcaps := caps.indices_lt
  refine ⟨hd.use_plan.records, hd.use_plan.sample, fun hix => ?_, fun hix => ?_, fun hix => ?_⟩
  · rw [hd.use_plan.chunkD hix, hdims, hs.walk.metadata]
    apply ext_getElem
    · simp
    · intro d h1 h2
      have hd1 : d < rows.length := by
        simp only [length_zipWith, length_zip, length_map] at h1
        omega
      have hmem : rows[d] ∈ rows := getElem_mem hd1
      simp only [getElem_zipWith, getElem_zip, getElem_map]
      exact relativeChunk_eq_wide (hs.walk.rows_wf _ hmem) (hd.interval_of_copy hix hmem)
        (hd.cell_mem hd1 (hlen ▸ hd1)) (hs.chunkCells_lt hd.use_spec.coordinate hmem)
  · rw [(hd.gatherSlice_eq h hix).1, hdims, hs.walk.metadata]
    apply ext_getElem
    · simp
    · intro d h1 h2
      have hd1 : d < rows.length := by
        simp only [length_zipWith, length_zip, length_map] at h1
        omega
      obtain ⟨a, ⟨hdim, -, -⟩, hsd⟩ := haxes.get hd1 (haxes.length_eq ▸ hd1)
      have hw := hwf.get (by simp [hlen, hd1]) (hlen ▸ hd1)
      have hoff := hsd.offset_le
      simp only [get_eq_getElem, getElem_zipWith] at hw hoff
      simp only [getElem_zipWith, getElem_zip, getElem_map]
      refine gatherDim_eq_wide hw ?_
      rw [hdim] at hoff
      exact hoff.trans_lt hcaps
  · -- the slice is not empty
    have hpos : 0 < rows.length := length_pos_of_ne_nil hd.rows_ne
    have hslice := (hd.gatherSlice_eq h hix).2
    rw [gatherSlice, length_take, length_drop, ← haxes.length_eq] at hslice
    omega

end Dispatched

/-- **The arrays of indices and gather dims suffice, and nothing in them is cut off.** A
configuration with indexed queries passes the checks of create and start, and the plan of a batch
for its output has at most as many uses as a batch may have chunks. Then dispatch does not return
`DAMACY_BUDGET`; and where it succeeds, every packed index, offset, relative coordinate and count is
the value of 64 bits that it was computed from. -/
theorem dispatchPlanBuild_packed (nv : NvComp) (cfg : CudaConfig) (geometry : CudaGeometry)
    (haccepted : CudaAccepted nv cfg geometry) (hindexed : cfg.maxIndexBytes ≠ 0)
    (h : BatchPlan arrays shards raws samples cfg.output limits plan layout)
    (huses : plan.uses.length ≤ maxChunksPerBatch) (mem : DispatchMemory) (args : DispatchArgs) :
    dispatchPlanBuild mem plan args (dispatchCapsOf cfg) ≠ .error .budget ∧
      ∀ out, dispatchPlanBuild mem plan args (dispatchCapsOf cfg) = .ok out →
        PackedOutput plan out := by
  obtain ⟨walks, hspec⟩ := h.exists_spec
  have hlt := h.extent_lt
  have hfits := ((batchSpecLayout_eq_ok_iff hlt).mp h.layout_eq).1
  obtain ⟨hindices, hgather⟩ := haccepted.caps_eq hindexed hfits hlt
  have hregions : plan.regions.length ≤ cfg.output.samplesPerBatch :=
    hspec.regions_length.trans_le h.count_le
  refine ⟨dispatchPlanBuild_ne_budget args h.regionsWithin h.ranksWithin ?_ ?_ huses huses hregions
    rfl huses, fun out hout => ?_⟩
  · rw [hindices]
    exact Nat.mul_le_mul_right _ hregions
  · rw [hgather]
    exact Nat.mul_le_mul_right _ huses
  · have hlengths := dispatchPlanBuild_lengths h.regionsWithin h.ranksWithin hout
    have hilt := (dispatchCapsOf cfg).indices_lt
    have hglt := (dispatchCapsOf cfg).gatherDims_lt
    have hi := Nat.mul_le_mul_right cfg.output.shape.sum hregions
    have hg := Nat.mul_le_mul_right cfg.output.sampleShape.length huses
    have hgatherDims : out.gatherDims.length < 2 ^ 32 := by omega
    obtain ⟨hregion, cps, hperm, hplans⟩ :=
      dispatchPlanBuild_spec h.region_sample h.chunk_bound hout
    refine ⟨by omega, hgatherDims, fun region hmem => ?_, cps, hperm, ?_⟩
    · obtain ⟨array, s, harray, hplan⟩ := hregion region hmem
      obtain ⟨i, raw, sample, ctx, vs, rows, hs, rfl⟩ := h.region_spec hmem
      obtain rfl := Option.some.inj (harray.symm.trans hs.array)
      have haxes := hplan.axes
      rw [hspec.output_eq] at haxes
      refine ⟨_, s, harray, hplan.stored, ?_⟩
      rw [hspec.output_eq]
      exact hs.wideAxes h haxes
    · rw [List.forall₂_iff_get] at hplans ⊢
      refine ⟨hplans.1, fun n h1 h2 => ?_⟩
      obtain ⟨i, raw, sample, ctx, vs, rows, chunk, s, hd⟩ :=
        h.dispatchedUse hregion (get_mem _ _) (hplans.2 n h1 h2)
      exact ⟨_, _, _, _, hd.wideUse h hgatherDims⟩

end Batch

def exampleConfig : CudaConfig := { narrow.config (7 * 2 ^ 20) with output := exampleOutput }

theorem dispatchPlanBuild_packed_example :
    dispatchPlanBuild ⟨fun _ => true, true⟩ examplePlan
        { slot := 0, alignment := 1, maxReadBytes := 1000, maxChunksPerWave := 10 }
        (dispatchCapsOf exampleConfig) = .ok exampleDispatch ∧
      PackedOutput examplePlan exampleDispatch := by
  have hdispatch : dispatchPlanBuild ⟨fun _ => true, true⟩ examplePlan
      { slot := 0, alignment := 1, maxReadBytes := 1000, maxChunksPerWave := 10 }
      (dispatchCapsOf exampleConfig) = .ok exampleDispatch := by
    decide +kernel
  refine ⟨hdispatch, (dispatchPlanBuild_packed Strip.nvComp exampleConfig
    ⟨3, ⟨1765093, 2 ^ 20, 7340026⟩, 7340026, 1765093⟩ ⟨⟨?_, ?_, ?_, ?_⟩, ?_, 1, ?_⟩ (by decide)
    (show BatchPlan (fun _ => .ready exampleMetadata) exampleShards [exampleSample]
      [examplePlannerSample] exampleOutput exampleLimits examplePlan ⟨[1, 3], [3, 1], 3⟩ from
      ⟨⟨⟨true, true, fun _ _ => true⟩, by decide +kernel⟩, .cons ⟨true, by decide⟩ .nil, by decide,
        by decide, ?_⟩) (by decide) _ _).2 _ hdispatch⟩
  case refine_7 =>
    intro s _ s' _ _ m m' hm hm'
    exact Except.ok.inj (hm.symm.trans hm')
  all_goals decide +kernel

end Damacy

import Damacy.Executor.CudaAssemble

/-!
# What a dispatched plan holds

For a plan whose region `i` belongs to sample `i`: every region has its sample plan
(`RegionPlan`), with packed indices that stay where they were put, and every use has exactly one
chunk plan (`UsePlan`), whose read still leads to the chunk after the reads were merged
(`dispatchPlanBuild_spec`).
-/

open List ExceptFold RowMajor

namespace Damacy

/-! ## Sample plans -/

section SampleDims

variable {caps : DispatchCaps} {axes : List RegionAxis} {pre post : List GatherIndex}
  {dims : List SampleDim} {stride : ℤ}

/-- One axis of a sample plan: made from the axis of the region, with its indices in place. -/
structure SampleAxis (caps : DispatchCaps) (indices : List GatherIndex) (a : RegionAxis)
    (sd : SampleDim) : Prop where
  eq : sd = sampleDim a sd.srcStride sd.indexOffset
  slice : ∀ j < a.dim.count, indices[sd.indexOffset + j]? = (axisIndices a)[j]?
  offset_le : sd.indexOffset + a.dim.count ≤ caps.indices

theorem SampleAxis.mono {indices indices' : List GatherIndex} {a : RegionAxis} {sd : SampleDim}
    (h : SampleAxis caps indices a sd) (hpre : indices <+: indices') :
    SampleAxis caps indices' a sd := by
  refine ⟨h.eq, fun j hj => ?_, h.offset_le⟩
  obtain ⟨rest, rfl⟩ := hpre
  have hlen : (axisIndices a).length = a.dim.count := by simp [axisIndices, QueryDim.count]
  have hget := h.slice j hj
  rw [← hget, getElem?_append_left]
  by_contra hge
  rw [getElem?_eq_none (by omega), eq_comm, List.getElem?_eq_none_iff] at hget
  omega

theorem sampleDims_spec (hpre : pre.length ≤ caps.indices)
    (h : sampleDims caps axes pre = .ok (dims, stride, post)) :
    List.Forall₂ (SampleAxis caps post) axes dims ∧ pre <+: post ∧ post.length ≤ caps.indices ∧
      dims.map SampleDim.srcStride =
        (strides (axes.map fun a => a.zarr.innerChunkShape)).map Nat.cast ∧
      stride = (axes.map fun a => a.zarr.innerChunkShape).prod := by
  induction axes generalizing dims stride post with
  | nil =>
    simp only [sampleDims, Except.ok.injEq, Prod.mk.injEq] at h
    obtain ⟨rfl, rfl, rfl⟩ := h
    exact ⟨.nil, prefix_rfl, hpre, rfl, rfl⟩
  | cons a axes ih =>
    simp only [sampleDims, bind_eq_ok, failIf_eq_ok, exists_const, pure_eq_ok, Except.ok.injEq,
      Prod.mk.injEq] at h
    obtain ⟨⟨dims', stride', post'⟩, hrec, hcap, -, rfl, rfl, rfl⟩ := h
    obtain ⟨hdims, hprefix, hlen, hstrides, rfl⟩ := ih hrec
    have hcount : (axisIndices a).length = a.dim.count := by simp [axisIndices, QueryDim.count]
    have hext : post' <+: post' ++ axisIndices a := prefix_append _ _
    dsimp only at hcap ⊢
    refine ⟨.cons ⟨rfl, fun j _ => ?_, ?_⟩ (hdims.imp fun _ _ hx => hx.mono hext),
      hprefix.trans hext, ?_, ?_, ?_⟩
    · show (post' ++ axisIndices a)[post'.length + j]? = _
      rw [getElem?_append_right (Nat.le_add_right _ _), Nat.add_sub_cancel_left]
    · show post'.length + a.dim.count ≤ caps.indices
      omega
    · rw [length_append, hcount]
      omega
    · rw [map_cons, hstrides, map_cons, strides, map_cons]
      simp [sampleDim]
    · rw [map_cons, prod_cons, Nat.cast_mul, Int.mul_comm]

end SampleDims

/-- The sample plan of a region, and where its indices are. -/
structure RegionPlan (caps : DispatchCaps) (plan : PreparedPlan) (slot : ℕ)
    (samplePlans : List SamplePlan) (indices : List GatherIndex) (region : PlanRegion)
    (array : PlanArray) (s : SamplePlan) : Prop where
  stored : samplePlans[region.sample]? = some s
  eq : s = samplePlan slot (dispatchStrides plan.output.sampleShape) region array.metadata s.dims
  axes : List.Forall₂ (SampleAxis caps indices) (regionAxes plan.output region array.metadata) s.dims
  strides : s.dims.map SampleDim.srcStride =
    (strides ((regionAxes plan.output region array.metadata).map fun a =>
      a.zarr.innerChunkShape)).map Nat.cast

theorem foldlM_dispatchRegion_spec {caps : DispatchCaps} {plan : PreparedPlan} {slot : ℕ}
    (hsample : ∀ (i : ℕ) region, plan.regions[i]? = some region → region.sample = i)
    (hcap : plan.regions.length ≤ caps.samplePlans) {r : List SamplePlan × List GatherIndex}
    (h : plan.regions.foldlM (dispatchRegion plan slot caps)
      (List.replicate caps.samplePlans SamplePlan.blank, []) = .ok r) :
    ∀ region ∈ plan.regions, ∃ array s, plan.arrays[region.array]? = some array ∧
      RegionPlan caps plan slot r.1 r.2 region array s := by
  have hinv := foldlM_ok_induction (fun done _ r => r.1.length = caps.samplePlans ∧
    r.2.length ≤ caps.indices ∧ ∀ region ∈ done, ∃ array s, plan.arrays[region.array]? = some array ∧
      RegionPlan caps plan slot r.1 r.2 region array s) (by simp) ?_ h
  · exact hinv.2.2
  intro done region rest r r' hlist ⟨hlen, hle, hdone⟩ hstep
  have hregion : plan.regions[done.length]? = some region := by simp [hlist]
  have hidx := hsample _ _ hregion
  unfold dispatchRegion at hstep
  split at hstep
  · cases hstep
  · rename_i array harray
    simp only [bind_eq_ok, pure_eq_ok, Except.ok.injEq] at hstep
    obtain ⟨⟨dims, stride, post⟩, hdims, rfl⟩ := hstep
    obtain ⟨haxes, hprefix, hpost, hstrides, -⟩ := sampleDims_spec hle hdims
    refine ⟨by rw [length_set, hlen], hpost, fun region' hmem => ?_⟩
    rw [mem_append, mem_singleton] at hmem
    rcases hmem with hmem | rfl
    · obtain ⟨array', s, harray', hs⟩ := hdone region' hmem
      -- an earlier region belongs to an earlier sample
      obtain ⟨j, hj, rfl⟩ := getElem_of_mem hmem
      have hj' : plan.regions[j]? = some done[j] := by
        rw [hlist, getElem?_append_left hj, getElem?_eq_getElem hj]
      have hne : region.sample ≠ done[j].sample := by
        rw [hidx, hsample _ _ hj']
        omega
      exact ⟨array', s, harray', by rw [getElem?_set_ne hne]; exact hs.stored, hs.eq,
        hs.axes.imp fun _ _ hx => hx.mono hprefix, hs.strides⟩
    · have hlt : region'.sample < r.1.length := by
        rw [hidx, hlen]
        have := (List.getElem?_eq_some_iff.mp hregion).1
        omega
      exact ⟨array, _, harray, getElem?_set_self hlt, rfl, haxes, hstrides⟩

/-! ## Chunk plans -/

/-- The chunk plan of a use: its records, and where its gather dims and its read are. -/
structure UsePlan (plan : PreparedPlan) (samplePlans : List SamplePlan) (readOps : List ReadOp)
    (gatherDims : List GatherDim) (use : PlanUse) (cp : ChunkPlan) (chunk : PlanChunk)
    (region : PlanRegion) (array : PlanArray) (s : SamplePlan) : Prop where
  records : useRecords plan use = some (chunk, region, array)
  sample : samplePlans[region.sample]? = some s
  sampleIdx : cp.sampleIdxInBatch = region.sample % 2 ^ 16
  isFill : cp.isFill = chunk.missing
  compressed : cp.compressedNbytes = chunk.encodedBytes
  decompressed : cp.decompressedNbytes = chunk.decodedBytes
  codec : cp.codecId = if chunk.missing then .fill else array.metadata.innerCodec
  chunkD : s.indexed = false → cp.chunkD = List.zipWith
    (fun (d : QueryDim × ZarrDim) c => relativeChunk d.1 d.2 c)
    (region.dims.zip array.metadata.dims) chunk.coordinate
  gather : s.indexed = true →
    chunkGatherDims region array.metadata chunk.coordinate s.dims <+: gatherDims.drop cp.gatherOffset
  read : ∃ r, readOps[cp.readOpIdx]? = some r ∧ (chunk.missing = false →
    r.shardPath = chunk.path ∧ r.fileOffset + cp.offsetInRead = chunk.offset)

section Uses

variable {mem : DispatchMemory} {plan : PreparedPlan} {caps : DispatchCaps}
  {alignment slot maxBytes maxChunks : ℕ} {samplePlans : List SamplePlan}

def HasUsePlan (plan : PreparedPlan) (samplePlans : List SamplePlan) (readOps : List ReadOp)
    (gatherDims : List GatherDim) (use : PlanUse) (cp : ChunkPlan) : Prop :=
  ∃ chunk region array s, UsePlan plan samplePlans readOps gatherDims use cp chunk region array s

theorem HasUsePlan.mono {readOps : List ReadOp} {gatherDims : List GatherDim} {use : PlanUse}
    {cp : ChunkPlan} (h : HasUsePlan plan samplePlans readOps gatherDims use cp)
    (read : ReadOp) (more : List GatherDim) :
    HasUsePlan plan samplePlans (readOps ++ [read]) (gatherDims ++ more) use cp := by
  obtain ⟨chunk, region, array, s, hp⟩ := h
  refine ⟨chunk, region, array, s, { hp with gather := fun hix => ?_, read := ?_ }⟩
  · rw [drop_append]
    exact (hp.gather hix).trans (prefix_append _ _)
  · obtain ⟨r, hr, hloc⟩ := hp.read
    have hlt := (List.getElem?_eq_some_iff.mp hr).1
    exact ⟨r, by rw [getElem?_append_left hlt, hr], hloc⟩

/-- The whole pages of a shard's file that hold a stored chunk: from the one that the chunk starts in
to the one that it ends in. -/
def PlanChunk.pages (alignment : ℕ) (chunk : PlanChunk) : ReadOp :=
  let start := chunk.offset / alignment * alignment
  let stop := (chunk.offset + chunk.encodedBytes + alignment - 1) / alignment * alignment
  ⟨chunk.path, start, stop - start⟩

theorem dispatchRead_stored {i : ℕ} {chunk : PlanChunk} {read : ReadOp × ℕ} (halign : 0 < alignment)
    (halignlt : alignment < 2 ^ 64)
    (hbound : chunk.missing = false → chunk.offset + chunk.encodedBytes < 2 ^ 64)
    (h : dispatchRead mem alignment i chunk = .ok read) (hmissing : chunk.missing = false) :
    ∃ start stop, chunk.pages alignment = ⟨chunk.path, start, stop - start⟩ ∧
      start ≤ chunk.offset ∧ chunk.offset + chunk.encodedBytes ≤ stop ∧ stop < 2 ^ 64 ∧
      stop - start < 2 ^ 32 ∧ read = (chunk.pages alignment, chunk.offset - start) ∧
      chunk.path ≠ none := by
  simp only [dispatchRead, hmissing, Bool.false_eq_true, if_false, bind_eq_ok, failIf_eq_ok,
    exists_const, pure_eq_ok, Except.ok.injEq, u64_of_lt (hbound hmissing)] at h
  obtain ⟨hstop, hsize, hpath, rfl⟩ := h
  have hlt := hbound hmissing
  set start := chunk.offset / alignment * alignment with hstart
  set stop := chunk.offset + chunk.encodedBytes with hstopdef
  set aligned := (stop + alignment - 1) / alignment * alignment with haligned
  have hle : start ≤ chunk.offset := Nat.div_mul_le_self _ _
  -- rounding up does not go below the end of the chunk
  have hup : stop ≤ aligned ∧ aligned ≤ stop + alignment - 1 := by
    have hmod := Nat.mod_lt (stop + alignment - 1) halign
    have hdiv := Nat.div_add_mod (stop + alignment - 1) alignment
    rw [Nat.mul_comm, ← haligned] at hdiv
    omega
  simp only [uint64Max] at hstop
  rw [u64Sub_of_le (by omega) (by omega), uint32Max] at hsize
  refine ⟨start, aligned, rfl, hle, hup.1, by omega, by omega, ?_, fun hnone => hpath (.inl hnone)⟩
  rw [show chunk.pages alignment = ⟨chunk.path, start, aligned - start⟩ from rfl,
    u64Sub_of_le (by omega) (by omega), u64Sub_of_le hle (by omega), u32_of_lt (by omega),
    u32_of_lt (by omega)]

theorem dispatchRead_spec {i : ℕ} {chunk : PlanChunk} {read : ReadOp × ℕ} (halign : 0 < alignment)
    (halignlt : alignment < 2 ^ 64)
    (hbound : chunk.missing = false → chunk.offset + chunk.encodedBytes < 2 ^ 64)
    (h : dispatchRead mem alignment i chunk = .ok read) (hmissing : chunk.missing = false) :
    read.1.shardPath = chunk.path ∧ read.1.fileOffset + read.2 = chunk.offset := by
  obtain ⟨start, stop, hpages, hstart, -, -, -, rfl, -⟩ :=
    dispatchRead_stored halign halignlt hbound h hmissing
  rw [hpages]
  exact ⟨rfl, Nat.add_sub_of_le hstart⟩

theorem useRecords_chunk {use : PlanUse} {chunk : PlanChunk} {region : PlanRegion}
    {array : PlanArray} (h : useRecords plan use = some (chunk, region, array)) :
    plan.chunks[use.chunk]? = some chunk := by
  simp only [useRecords, Option.bind_eq_bind, Option.bind_eq_some_iff, Option.pure_def,
    Option.some.injEq, Prod.mk.injEq] at h
  obtain ⟨_, hchunk, -, -, -, -, rfl, -⟩ := h
  exact hchunk

theorem useRecords_mem {use : PlanUse} {chunk : PlanChunk} {region : PlanRegion} {array : PlanArray}
    (h : useRecords plan use = some (chunk, region, array)) : chunk ∈ plan.chunks :=
  mem_of_getElem? (useRecords_chunk h)

theorem useRecords_array_mem {use : PlanUse} {chunk : PlanChunk} {region : PlanRegion}
    {array : PlanArray} (h : useRecords plan use = some (chunk, region, array)) :
    array ∈ plan.arrays := by
  simp only [useRecords, Option.bind_eq_bind, Option.bind_eq_some_iff, Option.pure_def,
    Option.some.injEq, Prod.mk.injEq] at h
  obtain ⟨_, -, _, -, _, harray, -, -, rfl⟩ := h
  exact mem_of_getElem? harray

theorem foldlM_dispatchUse_spec (halign : 0 < alignment) (halignlt : alignment < 2 ^ 64)
    (hbound : ∀ chunk ∈ plan.chunks, chunk.missing = false →
      chunk.offset + chunk.encodedBytes < 2 ^ 64)
    {r : DispatchUses}
    (h : plan.uses.zipIdx.foldlM (dispatchUse mem plan slot alignment caps samplePlans)
      ⟨[], [], []⟩ = .ok r) :
    List.Forall₂ (HasUsePlan plan samplePlans r.reads r.gatherDims) plan.uses r.chunkPlans := by
  have hinv := foldlM_ok_induction (fun done _ r => r.reads.length = done.length ∧
    List.Forall₂ (HasUsePlan plan samplePlans r.reads r.gatherDims) (done.map Prod.fst)
      r.chunkPlans) (by simp) ?_ h
  · have := hinv.2
    rwa [zipIdx_map_fst] at this
  intro done item rest r r' hlist ⟨hlen, hdone⟩ hstep
  -- the item after those done is the one at their number
  have hidx : item.2 = done.length := by
    have hget : plan.uses.zipIdx[done.length]? = some item := by simp [hlist]
    obtain ⟨hlt, heq⟩ := List.getElem?_eq_some_iff.mp hget
    rw [← heq, getElem_zipIdx]
    simp
  unfold dispatchUse at hstep
  split at hstep
  · cases hstep
  · rename_i chunk region array hrecords
    split at hstep
    · cases hstep
    · rename_i s hs
      simp only [bind_eq_ok, failIf_eq_ok, exists_const, pure_eq_ok, Except.ok.injEq] at hstep
      obtain ⟨-, read, hread, rfl⟩ := hstep
      have hmem := useRecords_mem hrecords
      refine ⟨by simp [hlen], ?_⟩
      rw [map_append, map_singleton]
      refine rel_append (hdone.imp fun _ _ hp => hp.mono _ _) (.cons ?_ .nil)
      refine ⟨chunk, region, array, s, ?_⟩
      constructor
      case records => exact hrecords
      case sample => exact hs
      case chunkD => exact fun hix => if_neg (by simp [hix])
      case gather =>
        intro hix
        simp [hix]
      case read =>
        refine ⟨read.1, ?_, fun hmissing => ?_⟩
        · show (r.reads ++ [read.1])[item.2]? = _
          rw [hidx, ← hlen, getElem?_concat_length]
        · exact dispatchRead_spec halign halignlt (hbound chunk hmem) hread hmissing
      all_goals rfl

/-! ## Merging and grouping -/

theorem coalesceChunk_spec {readIndex offsetInRead : List ℕ} {cp cp' : ChunkPlan}
    (h : coalesceChunk readIndex offsetInRead cp = .ok cp') :
    cp' = { cp with
      readOpIdx := readIndex.getD cp.readOpIdx 0
      offsetInRead := if cp.isFill then cp.offsetInRead
        else cp.offsetInRead + offsetInRead.getD cp.readOpIdx 0 } := by
  simp only [coalesceChunk, bind_eq_ok, failIf_eq_ok, exists_const, pure_eq_ok,
    Except.ok.injEq] at h
  exact h.2.symm

theorem HasUsePlan.coalesce {reads : List ReadOp} {gatherDims : List GatherDim} {use : PlanUse}
    {cp cp' : ChunkPlan} (h : HasUsePlan plan samplePlans reads gatherDims use cp)
    (hcp : coalesceChunk (coalesceReads reads maxBytes maxChunks).readIndex
      (coalesceReads reads maxBytes maxChunks).offsetInRead cp = .ok cp') :
    HasUsePlan plan samplePlans (coalesceReads reads maxBytes maxChunks).reads gatherDims use cp' := by
  obtain ⟨chunk, region, array, s, hp⟩ := h
  obtain ⟨r, hr, hloc⟩ := hp.read
  obtain ⟨m, o, r', hindex, hoffset, hr', hpath, hoff⟩ :=
    coalesceReads_located reads maxBytes maxChunks hr
  obtain rfl := coalesceChunk_spec hcp
  refine ⟨chunk, region, array, s, hp.records, hp.sample, hp.sampleIdx, hp.isFill, hp.compressed,
    hp.decompressed, hp.codec, hp.chunkD, hp.gather, r', ?_, fun hmissing => ?_⟩
  · rw [List.getD, hindex, Option.getD_some, hr']
  · obtain ⟨hpath', hoff'⟩ := hloc hmissing
    have hfill : cp.isFill = false := hp.isFill.trans hmissing
    refine ⟨hpath.trans hpath', ?_⟩
    simp only [hfill, Bool.false_eq_true, if_false, List.getD, hoffset, Option.getD_some]
    omega

theorem coalesceChunks_spec {out out' : DispatchOutput}
    (h : List.Forall₂ (HasUsePlan plan out.samplePlans out.readOps out.gatherDims) plan.uses
      out.chunkPlans)
    (hout : coalesceChunks maxBytes maxChunks out = .ok out') :
    List.Forall₂ (HasUsePlan plan out'.samplePlans out'.readOps out'.gatherDims) plan.uses
      out'.chunkPlans ∧ out'.samplePlans = out.samplePlans ∧ out'.indices = out.indices ∧
      out'.gatherDims = out.gatherDims := by
  unfold coalesceChunks at hout
  split at hout
  · obtain rfl := Except.ok.inj hout
    exact ⟨h, rfl, rfl, rfl⟩
  · simp only [bind_eq_ok, pure_eq_ok, Except.ok.injEq, mapM_eq_ok] at hout
    obtain ⟨chunkPlans, hmap, rfl⟩ := hout
    refine ⟨?_, rfl, rfl, rfl⟩
    have hcomp := List.forall₂_iff_get.mp h
    have hmap' := List.forall₂_iff_get.mp hmap
    refine List.forall₂_iff_get.mpr ⟨hcomp.1.trans hmap'.1, fun i h1 h2 => ?_⟩
    exact (hcomp.2 i h1 (hmap'.1 ▸ h2)).coalesce (hmap'.2 i (hmap'.1 ▸ h2) h2)

theorem groupChunksByRead_spec {out out' : DispatchOutput}
    (hout : groupChunksByRead caps out = .ok out') :
    out'.chunkPlans.Perm out.chunkPlans ∧ out'.samplePlans = out.samplePlans ∧
      out'.readOps = out.readOps ∧ out'.indices = out.indices ∧
      out'.gatherDims = out.gatherDims := by
  simp only [groupChunksByRead] at hout
  split at hout
  · obtain rfl := Except.ok.inj hout
    exact ⟨List.Perm.refl _, rfl, rfl, rfl, rfl⟩
  · simp only [bind_eq_ok, failIf_eq_ok, exists_const, pure_eq_ok, Except.ok.injEq] at hout
    obtain ⟨-, hkeys, rfl⟩ := hout
    push Not at hkeys
    refine ⟨?_, rfl, rfl, rfl, rfl⟩
    dsimp only
    split
    · rw [CountingSort.scatterByKey_eq _ hkeys rfl]
      exact CountingSort.grouped_perm _ hkeys
    · exact List.Perm.refl _

/-- **What a dispatched plan holds**: every region has its sample plan, and up to their order the
chunk plans are those of the uses, with reads that lead to their chunks. -/
theorem dispatchPlanBuild_spec {args : DispatchArgs} {out : DispatchOutput}
    (hsample : ∀ (i : ℕ) region, plan.regions[i]? = some region → region.sample = i)
    (hbound : ∀ chunk ∈ plan.chunks, chunk.missing = false →
      chunk.offset + chunk.encodedBytes < 2 ^ 64)
    (h : dispatchPlanBuild mem plan args caps = .ok out) :
    (∀ region ∈ plan.regions, ∃ array s, plan.arrays[region.array]? = some array ∧
      RegionPlan caps plan args.slot out.samplePlans out.indices region array s) ∧
    ∃ cps, out.chunkPlans.Perm cps ∧
      List.Forall₂ (HasUsePlan plan out.samplePlans out.readOps out.gatherDims) plan.uses cps := by
  simp only [dispatchPlanBuild, bind_eq_ok, failIf_eq_ok, exists_const] at h
  obtain ⟨hargs, hcaps, samples, hregions, uses, huses, -, merged, hmerged, hgroup⟩ := h
  have hsamples := foldlM_dispatchRegion_spec hsample (by omega) hregions
  have hplans := foldlM_dispatchUse_spec (Nat.pos_of_ne_zero fun h0 => hargs (.inl h0))
    args.alignment_lt hbound huses
  obtain ⟨hmplans, hms, hmi, -⟩ := coalesceChunks_spec hplans hmerged
  obtain ⟨hperm, hgs, hgr, hgi, hgg⟩ := groupChunksByRead_spec hgroup
  refine ⟨?_, merged.chunkPlans, hperm, ?_⟩
  · rw [hgs, hgi, hms, hmi]
    exact hsamples
  · rw [hgs, hgr, hgg]
    exact hmplans

end Uses

end Damacy

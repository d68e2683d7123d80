import Damacy.Executor.DispatchSpec
import Damacy.Executor.UseWrites
import Damacy.Planner.PlanSizes

/-!
# The GPU writes what the CPU writes

The chunk plans of a dispatched plan are cut into waves and launched. For every chunk plan the
kernel finds strides, relative coordinates and packed index ranges from which its threads make
exactly the copies of the use that the chunk plan stands for; so a batch is assembled alike by both
executors, and every output element by one thread.
-/

open List Odometer RowMajor

namespace Damacy

section Batch

variable {arrays : PrefetchHandle → CacheQuery ZarrMetadata}
  {shards : PrefetchHandle → CacheQuery (List ShardEntry)} {output : BatchSpec}
  {limits : PlanLimits} {raws : List Sample} {samples : List PlannerSample} {plan : PreparedPlan}
  {layout : BatchLayout} {walks : List (PlanSampleCtx × List Visit)} {ctx : PlanSampleCtx}
  {vs : List Visit} {i : ℕ} {raw : Sample} {sample : PlannerSample} {rows : List PlanRow}

/-! ## What dispatch relies on -/

theorem BatchPlan.region_sample
    (h : BatchPlan arrays shards raws samples output limits plan layout) (i : ℕ)
    (region : PlanRegion) (hi : plan.regions[i]? = some region) : region.sample = i := by
  obtain ⟨mem, hbuilt⟩ := h.built
  exact preparedPlanBuild_region_sample hbuilt i region hi

theorem BatchPlan.chunk_bound
    (h : BatchPlan arrays shards raws samples output limits plan layout) (chunk : PlanChunk)
    (hchunk : chunk ∈ plan.chunks) (hmissing : chunk.missing = false) :
    chunk.offset + chunk.encodedBytes < 2 ^ 64 := by
  obtain ⟨mem, hbuilt⟩ := h.built
  exact ((preparedPlanBuild_sizes hbuilt).chunk chunk hchunk).stop_lt hmissing

/-! ## The axes of a sample plan -/

theorem dispatchStrides_eq {shape : List ℤ} (hpos : ∀ x ∈ shape, 0 < x) :
    dispatchStrides shape = (batchStrides (shape.map Int.toNat)).map Nat.cast := by
  induction shape with
  | nil => rfl
  | cons x shape ih =>
    rw [forall_mem_cons] at hpos
    have hx : ((x.toNat : ℕ) : ℤ) = x := Int.toNat_of_nonneg hpos.1.le
    rw [dispatchStrides, ih hpos.2]
    simp only [batchStrides, map_cons, headD_cons, strides, prod_cons, Nat.cast_mul,
      List.cons.injEq, and_true, hx]
    rw [Int.mul_comm]

theorem SampleSpec.chunkCells_lt
    (hs : SampleSpec arrays shards raws samples output limits plan i raw sample ctx vs rows)
    {c : List ℕ} (hc : c ∈ cartesian (rows.map PlanRow.chunkCells)) {r : PlanRow} (hr : r ∈ rows) :
    r.chunkCells.length < 2 ^ 32 := by
  obtain ⟨count, hgeo⟩ := hs.geometry
  obtain ⟨grid, hgrid, -⟩ := hgeo.grid
  have hle := selectionGridInit_count_le hgrid
  rw [hs.walk.dims, hs.walk.metadata] at hgrid
  obtain ⟨hcount, hcoords⟩ := chunkGrid_coords hs.walk.rows_wf hgrid
  rw [hcount, hcoords, length_cartesian, map_map] at hle
  refine Nat.lt_of_le_of_lt (Nat.le_trans ?_ hle) limits.maxChunks_lt
  apply single_le_prod
  · intro n hn
    obtain ⟨r', hr', rfl⟩ := mem_map.mp hn
    obtain ⟨d, hd, rfl⟩ := getElem_of_mem hr'
    have hc' := mem_cartesian.mp hc
    have hmem := hc'.get (by rw [hc'.length_eq]; simpa using hd) (by simpa using hd)
    simp only [get_eq_getElem, getElem_map] at hmem
    exact length_pos_of_mem hmem
  · exact mem_map_of_mem hr

theorem PlanRow.sub_lt_length {r : PlanRow} (h : r.Wf) (hix : r.1.indices = []) {k : ℕ}
    (hk : k ∈ r.chunkCells) :
    r.1.lo / r.2.innerChunkShape ≤ k ∧ k - r.1.lo / r.2.innerChunkShape < r.chunkCells.length := by
  obtain ⟨x, hx, rfl⟩ := (PlanRow.mem_chunkCells h).mp hk
  have hsel : ∀ y, r.1.Selects y ↔ r.1.lo ≤ y ∧ y < r.1.hi := by
    intro y
    rw [QueryDim.Selects, if_pos hix]
  rw [hsel] at hx
  have hle : r.1.lo / r.2.innerChunkShape ≤ x / r.2.innerChunkShape := Nat.div_le_div_right hx.1
  refine ⟨hle, ?_⟩
  -- all chunks between the first one and this one are met
  have hsub : List.range' (r.1.lo / r.2.innerChunkShape)
      (x / r.2.innerChunkShape - r.1.lo / r.2.innerChunkShape + 1) ⊆ r.chunkCells := by
    intro k hk
    rw [mem_range'_1] at hk
    rw [PlanRow.mem_chunkCells h]
    refine ⟨max r.1.lo (k * r.2.innerChunkShape), (hsel _).mpr ⟨le_max_left _ _, ?_⟩, ?_⟩
    · have hkx : k ≤ x / r.2.innerChunkShape := by omega
      have := (Nat.le_div_iff_mul_le h.inner_pos).mp hkx
      omega
    · rcases Nat.le_total (k * r.2.innerChunkShape) r.1.lo with hlo | hlo
      · rw [Nat.max_eq_left hlo]
        exact Nat.le_antisymm hk.1 ((Nat.le_div_iff_mul_le h.inner_pos).mpr hlo)
      · rw [Nat.max_eq_right hlo, Nat.mul_div_cancel _ h.inner_pos]
  have := (subperm_of_subset (nodup_range' _) hsub).length_le
  rw [length_range'] at this
  omega

theorem copyAxis_of_dispatch {caps : DispatchCaps} {indices : List GatherIndex} {r : PlanRow}
    (h : r.Wf) (hix : r.1.indices = []) {k : ℕ} (hk : k ∈ r.chunkCells)
    (hlt : r.chunkCells.length < 2 ^ 32) (hinner : r.2.innerChunkShape ≤ 2 ^ 32 - kBlockSize)
    {a : RegionAxis} (hdim : a.dim = r.1) (hzarr : a.zarr = r.2) (hext : a.extent = r.1.extent)
    {sd : SampleDim} (hsd : SampleAxis caps indices a sd) :
    CopyAxis (r.axis k) (sd, relativeChunk r.1 r.2 k) := by
  obtain ⟨hle, hsub⟩ := PlanRow.sub_lt_length h hix hk
  have hmul := PlanRow.mul_inner_lt h hk
  have hk256 : kBlockSize = 256 := rfl
  have hlo := h.dim.lo_lt_hi
  have hhi := h.dim.hi_lt
  have hbase := Nat.div_mul_le_self r.1.lo r.2.innerChunkShape
  have hchunk : relativeChunk r.1 r.2 k = k - r.1.lo / r.2.innerChunkShape := by
    have hk63 : k < 2 ^ 64 := by
      have := Nat.le_mul_of_pos_right k h.inner_pos
      omega
    rw [relativeChunk, h.dim.u64OfInt_beg, u64Sub_of_le hle (by omega), u32_of_lt (by omega)]
  have hbeg : a.dim.bounds.beg = r.1.lo := by
    rw [hdim]
    have := h.dim.nonneg
    simp only [QueryDim.lo]
    omega
  have hlorel : sd.aabbLoRelative =
      (r.1.lo : ℤ) - (r.1.lo / r.2.innerChunkShape * r.2.innerChunkShape : ℕ) := by
    rw [hsd.eq]
    show a.dim.bounds.beg - (u64 (u64OfInt a.dim.bounds.beg / _ * _) : ℕ) = _
    have hu : u64OfInt a.dim.bounds.beg = r.1.lo := by rw [hdim, h.dim.u64OfInt_beg]
    rw [hu, hbeg, hzarr, u64_of_lt (by omega)]
  refine ⟨hix, hinner, ?_, ?_, ?_⟩
  · rw [hsd.eq]
    show u32 a.zarr.innerChunkShape = r.2.innerChunkShape
    rw [hzarr, u32_of_lt (by omega)]
  · rw [hsd.eq]
    exact hext
  · show ((relativeChunk r.1 r.2 k : ℕ) : ℤ) * (r.2.innerChunkShape : ℕ) - sd.aabbLoRelative =
      ((k * r.2.innerChunkShape : ℕ) : ℤ) - r.1.lo
    rw [hchunk, hlorel, Nat.cast_sub hle]
    push_cast
    ring

theorem gatherDim_eq {r : PlanRow} {k : ℕ} (hwf : (r.axis k).Wf k) (indexOffset : ℕ) :
    gatherDim r.1 r.2 k indexOffset =
      { begin_ := if r.1.count ≠ 0 then u32 (indexOffset + u32 (r.axis k).span.begin_)
          else u32 (u64Sub (r.axis k).span.begin_ (r.axis k).origin)
        count := u32 (r.axis k).span.count
        outputBegin := if r.1.count ≠ 0 then 0 else u64Sub (r.axis k).span.begin_ r.1.lo } := by
  have horigin : u64 (k * r.2.innerChunkShape) = k * r.2.innerChunkShape :=
    u64_of_lt (show (r.axis k).origin < 2 ^ 64 from hwf.origin_lt.trans (by decide))
  have hbeg : u64OfInt r.1.bounds.beg = r.1.lo := hwf.dim.u64OfInt_beg
  rw [gatherDim, horigin, hbeg]
  rfl

section GatherAxis

variable {caps : DispatchCaps} {indices : List GatherIndex} {r : PlanRow} {k : ℕ}
  {a : RegionAxis} {sd : SampleDim}

theorem gatherDim_interval (hwf : (r.axis k).Wf k) (hix : r.1.indices = []) (indexOffset : ℕ) :
    gatherDim r.1 r.2 k indexOffset =
        ⟨(r.axis k).span.begin_ - (r.axis k).origin, (r.axis k).span.count,
          (r.axis k).span.begin_ - r.1.lo⟩ ∧
      max r.1.lo (r.axis k).origin = (r.axis k).span.begin_ ∧
      (r.axis k).span.begin_ + (r.axis k).span.count ≤ (r.axis k).origin + (r.axis k).inner := by
  have hcount0 : ¬ r.1.count ≠ 0 := by simp [QueryDim.count, hix]
  have hinner := hwf.inner_lt
  have horigin := hwf.origin_lt
  have hhi : r.1.hi < 2 ^ 63 := hwf.dim.hi_lt
  have hpos := hwf.span_count_pos
  have hbegin : (r.axis k).span.begin_ = max r.1.lo (r.axis k).origin :=
    congrArg SelectionSpan.begin_ (hwf.span_interval hix)
  have hspan : (r.axis k).span.count = min r.1.hi ((r.axis k).origin + (r.axis k).inner) -
      max r.1.lo (r.axis k).origin := congrArg SelectionSpan.count (hwf.span_interval hix)
  have hcount32 : u32 (r.axis k).span.count = (r.axis k).span.count := u32_of_lt (by omega)
  refine ⟨?_, hbegin.symm, by omega⟩
  rw [gatherDim_eq hwf, if_neg hcount0, if_neg hcount0, hcount32, hbegin,
    u64Sub_of_le (le_max_left _ _) (by omega), u64Sub_of_le (le_max_right _ _) (by omega),
    u32_of_lt (by omega)]

theorem gatherDim_indices (hwf : (r.axis k).Wf k) (hix : r.1.indices ≠ []) {indexOffset : ℕ}
    (hoffset : indexOffset + r.1.count < 2 ^ 32) :
    gatherDim r.1 r.2 k indexOffset =
      ⟨indexOffset + (r.axis k).span.begin_, (r.axis k).span.count, 0⟩ := by
  have hcount0 : r.1.count ≠ 0 := by simpa [QueryDim.count] using hix
  have hend : (r.axis k).span.begin_ + (r.axis k).span.count ≤ r.1.count := hwf.span_end_le hix
  rw [gatherDim_eq hwf, if_pos hcount0, if_pos hcount0,
    u32_of_lt (show (r.axis k).span.begin_ < 2 ^ 32 by omega), u32_of_lt (by omega),
    u32_of_lt (show (r.axis k).span.count < 2 ^ 32 by omega)]

theorem gatherAxis_of_interval (hwf : (r.axis k).Wf k) (hix : r.1.indices = [])
    (hcount : sd.indexCount = r.1.count) :
    GatherAxis indices (r.axis k) (sd, gatherDim r.1 r.2 k sd.indexOffset) := by
  have hcount0 : ¬ r.1.count ≠ 0 := by simp [QueryDim.count, hix]
  have hinner := hwf.inner_lt
  have horigin := hwf.origin_lt
  have hlo := hwf.dim.lo_lt_hi
  have hhi : r.1.hi < 2 ^ 63 := hwf.dim.hi_lt
  have hpick : ∀ p, (r.axis k).dim.pickAt p = (p - r.1.lo, p) := fun p => if_pos hix
  obtain ⟨heq, hbegin, hend⟩ := gatherDim_interval hwf hix sd.indexOffset
  rw [heq]
  refine ⟨rfl, ?_, fun p hp => ?_⟩
  · show (r.axis k).span.count < 2 ^ 32
    omega
  · rw [gatherPosition, if_neg (by rw [hcount]; exact hcount0), hpick, Prod.mk.injEq]
    dsimp only
    rw [u32_of_lt (by omega), u64_of_lt (by omega)]
    omega

theorem gatherAxis_of_indices (hwf : (r.axis k).Wf k) (hix : r.1.indices ≠ [])
    (hcount : sd.indexCount = r.1.count) (hdim : a.dim = r.1) (hzarr : a.zarr = r.2)
    (hsd : SampleAxis caps indices a sd) :
    GatherAxis indices (r.axis k) (sd, gatherDim r.1 r.2 k sd.indexOffset) := by
  have hcount0 : r.1.count ≠ 0 := by simpa [QueryDim.count] using hix
  have hcaps := caps.indices_lt
  have hend : (r.axis k).span.begin_ + (r.axis k).span.count ≤ r.1.count := hwf.span_end_le hix
  have hoff := hsd.offset_le
  have hinner := hwf.inner_lt
  rw [hdim] at hoff
  rw [gatherDim_indices hwf hix (by omega)]
  refine ⟨rfl, ?_, fun p hp => ?_⟩
  · show (r.axis k).span.count < 2 ^ 32
    omega
  have hlt : (r.axis k).span.begin_ + p < r.1.indices.length := by
    rw [QueryDim.count] at hend
    omega
  -- the entry lies in the chunk, so its remainder is its place there
  have hmem : (r.axis k).dim.pickAt ((r.axis k).span.begin_ + p) ∈ (r.axis k).picks :=
    mem_map_of_mem (mem_range'_1.mpr ⟨Nat.le_add_right _ _, by omega⟩)
  have hcell := (hwf.mem_picks.mp hmem).2
  obtain ⟨e, he⟩ : ∃ e, r.1.indices[(r.axis k).span.begin_ + p]? = some e :=
    ⟨_, getElem?_eq_getElem hlt⟩
  have hpick : (r.axis k).dim.pickAt ((r.axis k).span.begin_ + p) = (e.output, e.source) := by
    show (if r.1.indices = [] then _ else (_, _)) = _
    rw [if_neg hix]
    show ((r.1.indices.getD _ _).output, (r.1.indices.getD _ _).source) = _
    rw [List.getD, he]
    rfl
  have hentry : indices[sd.indexOffset + (r.axis k).span.begin_ + p]? =
      some ⟨u32 (e.source % r.2.innerChunkShape), e.output⟩ := by
    rw [Nat.add_assoc, hsd.slice _ (by rw [hdim]; omega), axisIndices, getElem?_map, hdim, he,
      hzarr]
    rfl
  have hpos := hwf.inner_pos
  have hmod := Nat.mod_lt e.source hpos
  have hdiv := Nat.div_add_mod e.source (r.axis k).inner
  rw [hpick] at hcell
  rw [hcell, Nat.mul_comm, ← hwf.origin_eq] at hdiv
  rw [gatherPosition, if_pos (by rw [hcount]; exact hcount0), hpick]
  dsimp only
  rw [u32_of_lt (by omega), List.getD, hentry]
  show (u32 (e.source % (r.axis k).inner), e.output) = _
  rw [u32_of_lt (by omega), Prod.mk.injEq]
  omega

theorem gatherAxis_of_dispatch (hwf : (r.axis k).Wf k) (hdim : a.dim = r.1) (hzarr : a.zarr = r.2)
    (hsd : SampleAxis caps indices a sd) :
    GatherAxis indices (r.axis k) (sd, gatherDim r.1 r.2 k sd.indexOffset) := by
  have hcount : sd.indexCount = r.1.count := by
    rw [hsd.eq, ← hdim]
    rfl
  by_cases hix : r.1.indices = []
  · exact gatherAxis_of_interval hwf hix hcount
  · exact gatherAxis_of_indices hwf hix hcount hdim hzarr hsd

end GatherAxis

/-! ## The sample plan of a use -/

theorem regionAxes_eq {region : PlanRegion} {metadata : ZarrMetadata}
    (hdims : region.dims = rows.map Prod.fst) (hds : metadata.dims = rows.map Prod.snd)
    (hshape : output.sampleShape = (rows.map fun r => r.1.extent).map Nat.cast)
    (hpos : ∀ n ∈ output.shape, 0 < n) :
    regionAxes output region metadata =
      List.zipWith (fun r (stride : ℕ) => ⟨r.1, r.2, r.1.extent, stride⟩) rows
        (strides output.shape) := by
  have hpos' : ∀ x ∈ output.sampleShape, 0 < x := by
    intro x hx
    have := hpos _ (mem_map_of_mem hx)
    omega
  have hstrides : (dispatchStrides output.sampleShape).tail =
      (strides output.shape).map Nat.cast := by
    rw [dispatchStrides_eq hpos']
    rfl
  rw [regionAxes, hstrides, hdims, hds, hshape]
  apply ext_getElem
  · simp
  · intro d _ _
    simp

theorem forall₂_regionAxes {region : PlanRegion} {metadata : ZarrMetadata}
    (hdims : region.dims = rows.map Prod.fst) (hds : metadata.dims = rows.map Prod.snd)
    (hshape : output.sampleShape = (rows.map fun r => r.1.extent).map Nat.cast)
    (hpos : ∀ n ∈ output.shape, 0 < n) :
    List.Forall₂ (fun a r => a.dim = r.1 ∧ a.zarr = r.2 ∧ a.extent = r.1.extent)
      (regionAxes output region metadata) rows ∧
    (regionAxes output region metadata).map RegionAxis.stride =
      (strides output.shape).map Nat.cast := by
  have hlen : (strides output.shape).length = rows.length := by
    rw [length_strides, BatchSpec.shape, hshape]
    simp
  rw [regionAxes_eq hdims hds hshape hpos]
  constructor
  · rw [List.forall₂_iff_get]
    refine ⟨by simp [hlen], fun d h1 h2 => ?_⟩
    simp
  · apply ext_getElem
    · simp [hlen]
    · intro d _ _
      simp

variable {caps : DispatchCaps} {slot : ℕ} {out : DispatchOutput} {use : PlanUse} {chunk : PlanChunk}
  {cp : ChunkPlan} {s : SamplePlan}

/-- A use of a plan and the sample plan and chunk plan that dispatch made for it. -/
structure DispatchedUse (arrays : PrefetchHandle → CacheQuery ZarrMetadata)
    (shards : PrefetchHandle → CacheQuery (List ShardEntry)) (raws : List Sample)
    (samples : List PlannerSample) (output : BatchSpec) (limits : PlanLimits) (plan : PreparedPlan)
    (caps : DispatchCaps) (slot : ℕ) (out : DispatchOutput) (i : ℕ) (raw : Sample)
    (sample : PlannerSample) (ctx : PlanSampleCtx) (vs : List Visit) (rows : List PlanRow)
    (use : PlanUse) (chunk : PlanChunk) (cp : ChunkPlan) (s : SamplePlan) : Prop where
  use_spec : UseSpec arrays shards raws samples output limits plan i raw sample ctx vs rows use chunk
  use_plan : UsePlan plan out.samplePlans out.readOps out.gatherDims use cp chunk
    (planRegion sample i ctx.array) ⟨sample.query.uri, ctx.metadata⟩ s
  region_plan : RegionPlan caps plan slot out.samplePlans out.indices
    (planRegion sample i ctx.array) ⟨sample.query.uri, ctx.metadata⟩ s
  output_eq : plan.output = output
  index_lt : i < 2 ^ 16
  rank_le : rows.length ≤ maxRank
  rows_ne : rows ≠ []

namespace DispatchedUse

variable (hd : DispatchedUse arrays shards raws samples output limits plan caps slot out i raw sample
  ctx vs rows use chunk cp s)
include hd

theorem length_coordinate : chunk.coordinate.length = rows.length := by
  simpa using (mem_cartesian.mp hd.use_spec.coordinate).length_eq

theorem cell_mem {d : ℕ} (hd1 : d < rows.length) (hd2 : d < chunk.coordinate.length) :
    chunk.coordinate[d] ∈ (rows[d]).chunkCells := by
  have hc := mem_cartesian.mp hd.use_spec.coordinate
  simpa using hc.get hd2 (by simpa using hd1)

theorem regionAxes (h : BatchPlan arrays shards raws samples output limits plan layout) :
    List.Forall₂ (fun a r => a.dim = r.1 ∧ a.zarr = r.2 ∧ a.extent = r.1.extent)
      (Damacy.regionAxes output (planRegion sample i ctx.array) ctx.metadata) rows ∧
    (Damacy.regionAxes output (planRegion sample i ctx.array) ctx.metadata).map RegionAxis.stride =
      (strides output.shape).map Nat.cast := by
  have hspec := hd.use_spec.spec
  obtain ⟨hshape, -⟩ := hspec.sampleShape_eq
  rw [hspec.walk.dims] at hshape
  exact forall₂_regionAxes hspec.walk.dims hspec.walk.metadata
    (hshape.trans (congrArg (List.map Nat.cast) map_map))
    (h.useWf hspec hd.use_spec.coordinate).shape_pos

theorem axes (h : BatchPlan arrays shards raws samples output limits plan layout) :
    List.Forall₂ (fun r sd => ∃ a, (a.dim = r.1 ∧ a.zarr = r.2 ∧ a.extent = r.1.extent) ∧
      SampleAxis caps out.indices a sd) rows s.dims := by
  have haxes := (hd.regionAxes h).1
  have hdims := hd.region_plan.axes
  rw [hd.output_eq] at hdims
  rw [List.forall₂_iff_get] at haxes hdims ⊢
  refine ⟨haxes.1.symm.trans hdims.1, fun d h1 h2 => ?_⟩
  exact ⟨_, haxes.2 d (haxes.1 ▸ h1) h1, hdims.2 d (hdims.1 ▸ h2) h2⟩

theorem kernelStrides (h : BatchPlan arrays shards raws samples output limits plan layout) :
    KernelStrides output.shape (List.zipWith PlanRow.axis rows chunk.coordinate) s.dims := by
  obtain ⟨haxes, hstrides⟩ := hd.regionAxes h
  have hdims := hd.region_plan.axes
  have hsrc := hd.region_plan.strides
  rw [hd.output_eq] at hdims hsrc
  constructor
  · rw [← hstrides]
    exact (map_eq_of_forall₂ hdims fun a sd hsd => by rw [hsd.eq]; rfl).symm
  · rw [hsrc, map_zipWith_axis hd.length_coordinate (·.inner) (fun r => r.2.innerChunkShape)
      (fun _ _ => rfl), map_eq_of_forall₂ haxes fun a r har => by rw [har.2.1]]

theorem sampleDstOffElems (h : BatchPlan arrays shards raws samples output limits plan layout) :
    s.sampleDstOffElems = (i * output.shape.prod : ℕ) := by
  have hpos : ∀ x ∈ output.sampleShape, 0 < x := by
    intro x hx
    have := (h.useWf hd.use_spec.spec hd.use_spec.coordinate).shape_pos _ (mem_map_of_mem hx)
    omega
  rw [hd.region_plan.eq, hd.output_eq, samplePlan, dispatchStrides_eq hpos, Nat.cast_mul]
  rfl

theorem interval_of_copy (hix : s.indexed = false) {r : PlanRow} (hr : r ∈ rows) :
    r.1.indices = [] := by
  rw [hd.region_plan.eq] at hix
  simp only [samplePlan, planRegion, decide_eq_false_iff_not, ite_eq_left_iff, reduceCtorEq,
    imp_false, not_not, any_eq_true, bne_iff_ne, ne_eq, not_exists, not_and,
    hd.use_spec.spec.walk.dims] at hix
  have := hix r.1 (mem_map_of_mem hr)
  simpa [QueryDim.count] using this

theorem copyAxes (h : BatchPlan arrays shards raws samples output limits plan layout)
    (hinner : ∀ r ∈ rows, r.2.innerChunkShape ≤ 2 ^ 32 - kBlockSize) (hix : s.indexed = false) :
    cp.chunkD.length = s.dims.length ∧
      List.Forall₂ CopyAxis (List.zipWith PlanRow.axis rows chunk.coordinate)
        (s.dims.zip cp.chunkD) := by
  have haxes := hd.axes h
  have hspec := hd.use_spec.spec
  have hlen := hd.length_coordinate
  have hchunkD := hd.use_plan.chunkD hix
  have hdims : (planRegion sample i ctx.array).dims = rows.map Prod.fst := hspec.walk.dims
  rw [hdims, hspec.walk.metadata] at hchunkD
  have hlenD : cp.chunkD.length = s.dims.length := by
    rw [hchunkD, ← haxes.length_eq]
    simp [hlen]
  refine ⟨hlenD, List.forall₂_iff_get.mpr ⟨?_, fun d h1 h2 => ?_⟩⟩
  · simp [hlen, hlenD, haxes.length_eq]
  have hd1 : d < rows.length := by
    simp only [length_zipWith] at h1
    omega
  have hd2 : d < chunk.coordinate.length := by omega
  have hmem : rows[d] ∈ rows := getElem_mem hd1
  obtain ⟨a, ⟨hdim, hzarr, hext⟩, hsd⟩ := haxes.get hd1 (haxes.length_eq ▸ hd1)
  have hcopy := copyAxis_of_dispatch (hspec.walk.rows_wf _ hmem) (hd.interval_of_copy hix hmem)
    (hd.cell_mem hd1 hd2) (hspec.chunkCells_lt hd.use_spec.coordinate hmem) (hinner _ hmem) hdim hzarr
    hext hsd
  simpa [hchunkD] using hcopy

theorem gatherSlice_eq (h : BatchPlan arrays shards raws samples output limits plan layout)
    (hix : s.indexed = true) :
    gatherSlice out.gatherDims s cp.gatherOffset = List.zipWith
      (fun (d : QueryDim × ZarrDim) (c : ℕ × SampleDim) => gatherDim d.1 d.2 c.1 c.2.indexOffset)
      ((rows.map Prod.fst).zip (rows.map Prod.snd)) (chunk.coordinate.zip s.dims) ∧
    (gatherSlice out.gatherDims s cp.gatherOffset).length = s.dims.length := by
  have haxes := hd.axes h
  have hspec := hd.use_spec.spec
  have hlen := hd.length_coordinate
  have hprefix := hd.use_plan.gather hix
  have hdims : (planRegion sample i ctx.array).dims = rows.map Prod.fst := hspec.walk.dims
  rw [chunkGatherDims, hdims, hspec.walk.metadata] at hprefix
  set gather := List.zipWith
    (fun (d : QueryDim × ZarrDim) (c : ℕ × SampleDim) => gatherDim d.1 d.2 c.1 c.2.indexOffset)
    ((rows.map Prod.fst).zip (rows.map Prod.snd)) (chunk.coordinate.zip s.dims) with hgather
  have hlenG : gather.length = s.dims.length := by
    rw [hgather]
    simp [hlen, haxes.length_eq]
  have hslice : gatherSlice out.gatherDims s cp.gatherOffset = gather := by
    rw [gatherSlice, ← hlenG]
    exact (prefix_iff_eq_take.mp hprefix).symm
  exact ⟨hslice, hslice ▸ hlenG⟩

theorem gatherAxes (h : BatchPlan arrays shards raws samples output limits plan layout)
    (hix : s.indexed = true) :
    (gatherSlice out.gatherDims s cp.gatherOffset).length = s.dims.length ∧
      List.Forall₂ (GatherAxis out.indices) (List.zipWith PlanRow.axis rows chunk.coordinate)
        (s.dims.zip (gatherSlice out.gatherDims s cp.gatherOffset)) := by
  have haxes := hd.axes h
  have hlen := hd.length_coordinate
  have hwf := (h.useWf hd.use_spec.spec hd.use_spec.coordinate).axes_wf
  obtain ⟨hslice, hlenG⟩ := hd.gatherSlice_eq h hix
  refine ⟨hlenG, List.forall₂_iff_get.mpr ⟨?_, fun d h1 h2 => ?_⟩⟩
  · simp [hlen, hlenG, haxes.length_eq]
  have hd1 : d < rows.length := by
    simp only [length_zipWith] at h1
    omega
  have hd2 : d < chunk.coordinate.length := by omega
  obtain ⟨a, ⟨hdim, hzarr, -⟩, hsd⟩ := haxes.get hd1 (haxes.length_eq ▸ hd1)
  have hw := hwf.get h1 hd2
  simp only [get_eq_getElem, getElem_zipWith] at hw
  simpa [hslice] using gatherAxis_of_dispatch hw hdim hzarr hsd

theorem samplePlan_eq : out.samplePlans[cp.sampleIdxInBatch]? = some s := by
  rw [hd.use_plan.sampleIdx]
  show out.samplePlans[i % 2 ^ 16]? = _
  rw [Nat.mod_eq_of_lt hd.index_lt]
  exact hd.use_plan.sample

theorem loadChunkValue_eq (source : ℤ) :
    loadChunkValue s (setAssembleChunkBase out cp false) source =
      rowSource ctx.metadata chunk source := by
  have hfill : (setAssembleChunkBase out cp false).isFill = chunk.missing := by
    rw [setAssembleChunkBase, Bool.or_false, hd.use_plan.isFill]
  have hdtype : s.srcDtype = ctx.metadata.dtype := by rw [hd.region_plan.eq]; rfl
  have hvalue : s.fillValue = ctx.metadata.fillValue := by rw [hd.region_plan.eq]; rfl
  rw [loadChunkValue, rowSource, hfill, hdtype, hvalue]
  cases hmissing : chunk.missing with
  | true => rfl
  | false =>
    obtain ⟨read, hread, hloc⟩ := hd.use_plan.read
    obtain ⟨hpath, hoffset⟩ := hloc hmissing
    have hdata : chunkData out cp = chunk.data ctx.metadata := by
      simp only [chunkData, List.getD, hread, Option.getD_some, hpath, hoffset, PlanChunk.data,
        hd.use_plan.compressed, hd.use_plan.decompressed, hd.use_plan.codec, hmissing,
        Bool.false_eq_true, if_false]
    simp only [Bool.false_eq_true, if_false, setAssembleChunkBase, hdata]

/-- **The threads of a chunk's row of blocks make the writes of its use**, in a grid that is wide
enough for it. -/
theorem kernel_perm (h : BatchPlan arrays shards raws samples output limits plan layout)
    (hinner : ∀ r ∈ rows, r.2.innerChunkShape ≤ 2 ^ 32 - kBlockSize) {gridX : ℕ} (hpos : 0 < gridX)
    (hgrid : chunkBlocks out cp ≤ gridX) :
    ((List.range gridX).flatMap fun x => (List.range kBlockSize).flatMap fun tid =>
      assembleKernel out (setAssembleChunkBase out cp false) gridX x tid).Perm
      (useWrites plan layout.strides use) := by
  have hwf := h.useWf hd.use_spec.spec hd.use_spec.coordinate
  have hst := hd.kernelStrides h
  have hoff := hd.sampleDstOffElems h
  have hs : out.samplePlans[(setAssembleChunkBase out cp false).sampleIdxInBatch]? = some s :=
    hd.samplePlan_eq
  rw [chunkBlocks, hd.samplePlan_eq] at hgrid
  dsimp only at hgrid
  have hload : (fun w : ℤ × ℤ => (⟨w.1, loadChunkValue s (setAssembleChunkBase out cp false) w.2⟩ :
      ElementWrite)) = fun w => ⟨w.1, rowSource ctx.metadata chunk w.2⟩ := by
    funext w
    rw [hd.loadChunkValue_eq]
  simp only [assembleKernel, hs, hload, h.useWrites_eq hd.use_spec, ← map_flatMap]
  apply List.Perm.map
  cases hix : s.indexed with
  | true =>
    obtain ⟨hlen, hrel⟩ := hd.gatherAxes h hix
    simp only [if_true]
    exact gatherBody_perm hwf hst hoff hlen hrel hpos
  | false =>
    obtain ⟨hlen, hrel⟩ := hd.copyAxes h hinner hix
    have hdims := (hd.axes h).length_eq
    simp only [hix, Bool.false_eq_true, if_false] at hgrid ⊢
    refine assembleBody_perm hwf hst hoff hlen ?_ ?_ hrel hgrid
    · intro hnil
      rw [hnil, length_nil] at hdims
      exact hd.rows_ne (length_eq_zero_iff.mp hdims)
    · rw [← hdims]
      exact hd.rank_le

end DispatchedUse

/-! ## Launching the waves of a batch -/

theorem BatchPlan.dispatchedUse
    (h : BatchPlan arrays shards raws samples output limits plan layout)
    (hregion : ∀ region ∈ plan.regions, ∃ array s, plan.arrays[region.array]? = some array ∧
      RegionPlan caps plan slot out.samplePlans out.indices region array s)
    (huse : use ∈ plan.uses)
    (hplan : HasUsePlan plan out.samplePlans out.readOps out.gatherDims use cp) :
    ∃ i raw sample ctx vs rows chunk s, DispatchedUse arrays shards raws samples output limits plan
      caps slot out i raw sample ctx vs rows use chunk cp s := by
  obtain ⟨i, raw, sample, ctx, vs, rows, chunk, hu⟩ := h.use_spec huse
  obtain ⟨chunk', region, array, s, hp⟩ := hplan
  obtain ⟨walks, hspec⟩ := h.exists_spec
  have hrecords := hp.records.symm.trans hu.records
  simp only [Option.some.injEq, Prod.mk.injEq] at hrecords
  obtain ⟨rfl, rfl, rfl⟩ := hrecords
  obtain ⟨array', s', harray, hr⟩ := hregion _ (mem_of_getElem? hu.spec.region)
  obtain rfl : s' = s := Option.some.inj (hr.stored.symm.trans hp.sample)
  obtain rfl : array' = _ := Option.some.inj (harray.symm.trans hu.spec.array)
  have hlen : output.sampleShape.length = rows.length := by
    rw [hu.spec.sampleShape_eq.1, hu.spec.walk.dims]
    simp
  have hlayout := h.layout_eq
  simp only [batchSpecLayout, ExceptFold.bind_eq_ok, ExceptFold.failIf_eq_ok, exists_const] at hlayout
  have hi := (List.getElem?_eq_some_iff.mp hu.spec.sample_eq).1
  have hcount := h.count_le
  refine ⟨i, raw, sample, ctx, vs, rows, chunk', s', hu, hp, hr, hspec.output_eq, ?_, ?_, ?_⟩
  · omega
  · omega
  · rintro rfl
    exact hu.spec.ne_nil hu.spec.walk.dims

structure ThreadId where
  wave : ℕ
  y : ℕ
  x : ℕ
  tid : ℕ
deriving DecidableEq, Repr

/-- The threads of the launches of all waves: a row of blocks for every chunk plan of a wave, as wide
as the widest needs. -/
def launchThreads (out : DispatchOutput) (waves : List (List ChunkPlan)) : List ThreadId :=
  waves.zipIdx.flatMap fun wave => (List.range wave.1.length).flatMap fun y =>
    (List.range (maxBlocksPerChunk out wave.1)).flatMap fun x =>
      (List.range kBlockSize).map fun tid => ⟨wave.2, y, x, tid⟩

def ThreadId.writes (out : DispatchOutput) (waves : List (List ChunkPlan)) (t : ThreadId) :
    List ElementWrite :=
  threadWrites out (waves.getD t.wave []) t.y t.x t.tid

def rowWrites (out : DispatchOutput) (gridX : ℕ) (cp : ChunkPlan) : List ElementWrite :=
  (List.range gridX).flatMap fun x => (List.range kBlockSize).flatMap fun tid =>
    assembleKernel out (setAssembleChunkBase out cp false) gridX x tid

theorem threadWrites_row (out : DispatchOutput) {wave : List ChunkPlan} {y : ℕ} {cp : ChunkPlan}
    (hy : wave[y]? = some cp) :
    ((List.range (maxBlocksPerChunk out wave)).flatMap fun x =>
      (List.range kBlockSize).flatMap fun tid => threadWrites out wave y x tid) =
      rowWrites out (maxBlocksPerChunk out wave) cp := by
  simp only [threadWrites, hy, rowWrites]

theorem launchThreads_writes (out : DispatchOutput) (waves : List (List ChunkPlan)) :
    (launchThreads out waves).flatMap (ThreadId.writes out waves) =
      waves.flatMap fun wave => wave.flatMap (rowWrites out (maxBlocksPerChunk out wave)) := by
  have hrow : ∀ wave : List ChunkPlan, ((List.range wave.length).flatMap fun y =>
      (List.range (maxBlocksPerChunk out wave)).flatMap fun x =>
        (List.range kBlockSize).flatMap fun tid => threadWrites out wave y x tid) =
      wave.flatMap (rowWrites out (maxBlocksPerChunk out wave)) := by
    intro wave
    rw [flatMap_def, flatMap_def]
    congr 1
    apply ext_getElem
    · simp
    · intro y h1 h2
      rw [length_map] at h2
      rw [getElem_map, getElem_map, getElem_range]
      exact threadWrites_row out (getElem?_eq_getElem h2)
  have hwave : ∀ p ∈ waves.zipIdx, ((List.range p.1.length).flatMap fun y =>
      (List.range (maxBlocksPerChunk out p.1)).flatMap fun x =>
        (List.range kBlockSize).map fun tid => (⟨p.2, y, x, tid⟩ : ThreadId)).flatMap
          (ThreadId.writes out waves) =
      p.1.flatMap (rowWrites out (maxBlocksPerChunk out p.1)) := by
    intro p hp
    have hget : waves.getD p.2 [] = p.1 := by
      rw [List.getD, mk_mem_zipIdx_iff_getElem?.mp hp, Option.getD_some]
    rw [← hrow]
    simp only [flatMap_assoc, flatMap_map, ThreadId.writes, hget]
  rw [launchThreads, flatMap_assoc, flatMap_congr hwave]
  conv_rhs => rw [← zipIdx_map_fst 0 waves, flatMap_map]

theorem le_maxBlocksPerChunk (out : DispatchOutput) (wave : List ChunkPlan) :
    0 < maxBlocksPerChunk out wave ∧ ∀ cp ∈ wave, chunkBlocks out cp ≤ maxBlocksPerChunk out wave := by
  have hfold : ∀ (l : List ChunkPlan) (m : ℕ),
      m ≤ l.foldl (fun m cp => max m (chunkBlocks out cp)) m ∧
      ∀ cp ∈ l, chunkBlocks out cp ≤ l.foldl (fun m cp => max m (chunkBlocks out cp)) m := by
    intro l
    induction l with
    | nil => simp
    | cons a l ih =>
      intro m
      obtain ⟨h1, h2⟩ := ih (max m (chunkBlocks out a))
      rw [foldl_cons, forall_mem_cons]
      exact ⟨by omega, by omega, h2⟩
  have h := (hfold wave 0).2
  unfold maxBlocksPerChunk
  dsimp only
  split
  · rename_i h0
    exact ⟨Nat.one_pos, fun cp hcp => (h cp hcp).trans (by omega)⟩
  · exact ⟨by omega, h⟩

theorem rowWrites_perm {strides : List ℕ} {uses : List PlanUse} {cps : List ChunkPlan}
    (huses : List.Forall₂ (fun use cp => ∀ gridX, 0 < gridX → chunkBlocks out cp ≤ gridX →
      (rowWrites out gridX cp).Perm (useWrites plan strides use)) uses cps)
    {waves : List (List ChunkPlan)} (hwaves : waves.flatten.Perm cps) :
    (waves.flatMap fun wave => wave.flatMap (rowWrites out (maxBlocksPerChunk out wave))).Perm
      (uses.flatMap (useWrites plan strides)) := by
  -- every row may be taken at the width of its own chunk plan
  have hsame : ∀ cp ∈ cps, ∀ gridX, 0 < gridX → chunkBlocks out cp ≤ gridX →
      (rowWrites out gridX cp).Perm (rowWrites out (chunkBlocks out cp + 1) cp) := by
    intro cp hcp gridX hpos hgrid
    obtain ⟨n, hn, rfl⟩ := getElem_of_mem hcp
    have huse := huses.get (huses.length_eq ▸ hn) hn
    exact (huse gridX hpos hgrid).trans (huse _ (Nat.succ_pos _) (Nat.le_succ _)).symm
  have hrows : (waves.flatMap fun wave =>
      wave.flatMap (rowWrites out (maxBlocksPerChunk out wave))).Perm
      (waves.flatMap fun wave => wave.flatMap fun cp =>
        rowWrites out (chunkBlocks out cp + 1) cp) := by
    refine List.Perm.flatMap_left _ fun wave hwave => List.Perm.flatMap_left _ fun cp hcp => ?_
    obtain ⟨hpos, hle⟩ := le_maxBlocksPerChunk out wave
    exact hsame cp (hwaves.mem_iff.mp (mem_flatten.mpr ⟨wave, hwave, hcp⟩)) _ hpos (hle cp hcp)
  have hflat : (waves.flatMap fun wave => wave.flatMap fun cp =>
      rowWrites out (chunkBlocks out cp + 1) cp) =
      waves.flatten.flatMap fun cp => rowWrites out (chunkBlocks out cp + 1) cp := by
    rw [flatten_eq_flatMap, flatMap_assoc]
    rfl
  rw [hflat] at hrows
  refine (hrows.trans (hwaves.flatMap_right _)).trans ?_
  clear hwaves hrows hsame hflat
  induction huses with
  | nil => exact List.Perm.refl _
  | cons huse _ ih =>
    rw [flatMap_cons, flatMap_cons]
    exact (huse _ (Nat.succ_pos _) (Nat.le_succ _)).append ih

end Batch

/-- **Both executors write the same.** Let a prepared plan be accepted by the CPU executor (its
batch has a layout) and by the CUDA executor (dispatch builds its arrays), with no inner chunk
extent above `2 ^ 32 - 256`, and let the chunk plans be launched in waves that partition them in any
way. Then the writes of all threads of all blocks, as output element and source, are those of the
CPU executor; they are the elements of the samples, each once; and each element is written by
exactly one thread. -/
theorem cuda_writes_eq_cpu_writes (mem : PlanMemory)
    (arrays : PrefetchHandle → CacheQuery ZarrMetadata)
    (shards : PrefetchHandle → CacheQuery (List ShardEntry)) (raws : List Sample)
    (samples : List PlannerSample) (output : BatchSpec) (limits : PlanLimits) (plan : PreparedPlan)
    (layout : BatchLayout) (dispatchMem : DispatchMemory) (args : DispatchArgs) (caps : DispatchCaps)
    (out : DispatchOutput) (waves : List (List ChunkPlan))
    (hbuilt : preparedPlanBuild mem arrays shards samples output limits = .ok plan)
    (hstored : List.Forall₂ (fun raw s => ∃ mallocOk, queryCopy mallocOk raw = .ok s.query) raws
      samples)
    (hlayout : batchSpecLayout output = .ok layout)
    (hcount : samples.length ≤ output.samplesPerBatch)
    (hcached : ∀ s ∈ samples, ∀ s' ∈ samples, s.query.uri = s'.query.uri → ∀ m m',
      arrayMetadata arrays s.hMeta = .ok m → arrayMetadata arrays s'.hMeta = .ok m' → m = m')
    (hdispatch : dispatchPlanBuild dispatchMem plan args caps = .ok out)
    (hinner : ∀ array ∈ plan.arrays, ∀ d ∈ array.metadata.dims, d.innerChunkShape ≤ 2 ^ 32 - 256)
    (hwaves : waves.flatten.Perm out.chunkPlans) :
    ((launchThreads out waves).flatMap (ThreadId.writes out waves)).Perm
        (cpuWrites plan layout.strides) ∧
      (((launchThreads out waves).flatMap (ThreadId.writes out waves)).map ElementWrite.output).Perm
        ((List.range (samples.length * layout.strides.headD 0)).map Nat.cast) ∧
      ∀ off < samples.length * layout.strides.headD 0, ∃! t, t ∈ launchThreads out waves ∧
        ∃ w ∈ t.writes out waves, w.output = off := by
  have h : BatchPlan arrays shards raws samples output limits plan layout :=
    ⟨⟨mem, hbuilt⟩, hstored, hlayout, hcount, hcached⟩
  obtain ⟨hregion, cps, hcps, hplans⟩ := dispatchPlanBuild_spec h.region_sample h.chunk_bound hdispatch
  have huses : List.Forall₂ (fun use cp => ∀ gridX, 0 < gridX → chunkBlocks out cp ≤ gridX →
      (rowWrites out gridX cp).Perm (useWrites plan layout.strides use)) plan.uses cps := by
    rw [List.forall₂_iff_get] at hplans ⊢
    refine ⟨hplans.1, fun n h1 h2 gridX hpos hgrid => ?_⟩
    obtain ⟨i, raw, sample, ctx, vs, rows, chunk, s, hd⟩ :=
      h.dispatchedUse hregion (get_mem _ _) (hplans.2 n h1 h2)
    refine hd.kernel_perm h (fun r hr => ?_) hpos hgrid
    refine hinner _ (mem_of_getElem? hd.use_spec.spec.array) _ ?_
    rw [hd.use_spec.spec.walk.metadata]
    exact mem_map_of_mem hr
  have hperm := rowWrites_perm huses (hwaves.trans hcps)
  rw [← launchThreads_writes] at hperm
  have hstride : layout.strides.headD 0 = output.shape.prod := by
    obtain ⟨walks, hspec⟩ := h.exists_spec
    obtain ⟨raw, sample, ctx, vs, rows, hs, -⟩ := h.exists_use (length_pos_of_ne_nil hspec.ne_nil)
    rw [(h.layout_spec hs).2.1]
    rfl
  have houtputs := (hperm.map ElementWrite.output).trans h.outputs_perm
  rw [hstride]
  refine ⟨hperm.trans h.cpuWrites_perm.symm, houtputs, fun off hoff => ?_⟩
  have hnodup := houtputs.nodup_iff.mpr (nodup_range.map Nat.cast_injective)
  have hmem : (off : ℤ) ∈ ((launchThreads out waves).flatMap (ThreadId.writes out waves)).map
      ElementWrite.output :=
    houtputs.mem_iff.mpr (mem_map_of_mem (mem_range.mpr hoff))
  rw [map_flatMap] at hnodup hmem
  obtain ⟨t, ht, hw⟩ := mem_flatMap.mp hmem
  refine ⟨t, ⟨ht, mem_map.mp hw⟩, fun t' ht' => ?_⟩
  by_contra hne
  have hsymm : Std.Symm (Function.onFun List.Disjoint fun t : ThreadId =>
      (t.writes out waves).map ElementWrite.output) := ⟨fun _ _ hdisj => hdisj.symm⟩
  have hdisj := (nodup_flatMap.mp hnodup).2.forall ht ht'.1 (Ne.symm hne)
  exact hdisj hw (mem_map.mpr ht'.2)

/-- What dispatch makes of the example plan: a stored chunk with one index and a missing one with
two. -/
def exampleDispatch : DispatchOutput :=
  { readOps := [⟨some [0x61, 0x2f, 0x63, 0x2f, 0x30], 0, 2⟩, ReadOp.blank]
    chunkPlans :=
      [{ readOpIdx := 0, offsetInRead := 0, compressedNbytes := 2, decompressedNbytes := 2,
         gatherOffset := 0, batchPoolSlot := 0, sampleIdxInBatch := 0, codecId := .none,
         isFill := false, chunkD := [0] },
       { readOpIdx := 1, offsetInRead := 0, compressedNbytes := 0, decompressedNbytes := 2,
         gatherOffset := 1, batchPoolSlot := 0, sampleIdxInBatch := 0, codecId := .fill,
         isFill := true, chunkD := [0] }]
    samplePlans := [⟨0, 0, .u8, true, [⟨2, 0, 0, 3, 1, 3, 1, 1⟩], 0, 0⟩]
    readOpGroups := [⟨0, 0, 1, 2⟩, ⟨1, 1, 1, 2⟩]
    indices := [⟨1, 1⟩, ⟨1, 0⟩, ⟨1, 2⟩]
    gatherDims := [⟨0, 1, 0⟩, ⟨1, 2, 0⟩]
    nChunksToLoad := 1
    nLoadsIssued := 1 }

/-- The example plan, launched in two waves: element 2 has its one thread. -/
theorem cuda_writes_eq_cpu_writes_example :
    ∃! t, t ∈ launchThreads exampleDispatch (exampleDispatch.chunkPlans.map fun cp => [cp]) ∧
      ∃ w ∈ t.writes exampleDispatch (exampleDispatch.chunkPlans.map fun cp => [cp]),
        w.output = (2 : ℕ) := by
  refine (cuda_writes_eq_cpu_writes ⟨true, true, fun _ _ => true⟩ (fun _ => .ready exampleMetadata)
    exampleShards [exampleSample] [examplePlannerSample] exampleOutput exampleLimits examplePlan
    ⟨[1, 3], [3, 1], 3⟩ ⟨fun _ => true, true⟩
    { slot := 0, alignment := 1, maxReadBytes := 1000, maxChunksPerWave := 10 }
    { chunkPlans := 4, readOps := 4, samplePlans := 1, readOpGroups := 4, groupsPresent := true,
      indices := 4, indicesPresent := true, gatherDims := 8 }
    exampleDispatch (exampleDispatch.chunkPlans.map fun cp => [cp]) (by decide +kernel)
    (.cons ⟨true, by decide⟩ .nil) (by decide) (by decide) ?_ (by decide +kernel) (by decide)
    (by decide)).2.2 2 (by decide)
  intro s _ s' _ _ m m' hm hm'
  exact Except.ok.inj (hm.symm.trans hm')

end Damacy

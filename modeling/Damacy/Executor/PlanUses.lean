import Damacy.Executor.RegionWrites
import Damacy.Planner.PlanInvariant

/-!
# The uses of a plan

For a plan that the builder made from stored samples, every use that `assemble_chunk` follows from
a chunk belongs to a visit of that chunk by a sample (`BatchPlan.use_spec`), every visit has exactly
one use (`BatchPlan.exists_use`), and the axes of a use satisfy what the copy loops rely on.
-/

open List Odometer ExceptFold RowMajor

namespace Damacy

/-! ## Layout of a batch -/

def BatchSpec.shape (spec : BatchSpec) : List ℕ := spec.sampleShape.map Int.toNat

theorem layoutElements_ok {elements n : ℕ} {shape : List ℤ} (hlt : ∀ x ∈ shape, x < 2 ^ 63)
    (h : layoutElements elements shape = .ok n) :
    (∀ x ∈ shape, 0 < x) ∧ n = elements * (shape.map Int.toNat).prod ∧
      (shape ≠ [] → n ≤ int64Max) := by
  induction shape generalizing elements with
  | nil =>
    obtain rfl : elements = n := by simpa [layoutElements] using h
    simp
  | cons x shape ih =>
    rw [forall_mem_cons] at hlt
    simp only [layoutElements, bind_eq_ok, failIf_eq_ok, exists_const] at h
    obtain ⟨hx, hrest⟩ := h
    have hpos : 0 < x := by omega
    rw [u64OfInt_of_nonneg hpos.le hlt.1] at hx hrest
    obtain ⟨h1, h2, h3⟩ := ih hlt.2 hrest
    refine ⟨forall_mem_cons.mpr ⟨hpos, h1⟩, ?_, fun _ => ?_⟩
    · rw [h2, map_cons, prod_cons, Nat.mul_assoc]
    · cases shape with
      | cons y shape => exact h3 (cons_ne_nil _ _)
      | nil =>
        simp only [map_nil, prod_nil, Nat.mul_one] at h2
        rw [h2]
        exact (Nat.le_div_iff_mul_le (by omega)).mp (by omega)

theorem layoutStrides_eq {shape : List ℤ} (hlt : ∀ x ∈ shape, x < 2 ^ 63)
    (hpos : ∀ x ∈ shape, 0 < x) : layoutStrides shape = batchStrides (shape.map Int.toNat) := by
  induction shape with
  | nil => rfl
  | cons x shape ih =>
    rw [forall_mem_cons] at hlt hpos
    rw [layoutStrides, ih hlt.2 hpos.2, u64OfInt_of_nonneg hpos.1.le hlt.1]
    simp only [batchStrides, headD_cons, map_cons, prod_cons, strides,
      List.cons.injEq, and_true]
    rw [Nat.mul_comm]

theorem batchSpecLayout_spec {spec : BatchSpec} {layout : BatchLayout}
    (hlt : ∀ x ∈ spec.sampleShape, x < 2 ^ 63) (h : batchSpecLayout spec = .ok layout) :
    layout.strides = batchStrides spec.shape ∧
      spec.samplesPerBatch * spec.shape.prod ≤ int64Max ∧ (∀ n ∈ spec.shape, 0 < n) := by
  simp only [batchSpecLayout, bind_eq_ok, failIf_eq_ok, exists_const, pure_eq_ok] at h
  obtain ⟨hargs, n, hn, -, hlayout⟩ := h
  obtain rfl := Except.ok.inj hlayout
  obtain ⟨hpos, rfl, hle⟩ := layoutElements_ok hlt hn
  refine ⟨layoutStrides_eq hlt hpos, hle fun hnil => ?_, ?_⟩
  · rw [hnil] at hargs
    simp at hargs
  · intro m hm
    obtain ⟨x, hx, rfl⟩ := mem_map.mp hm
    have := hpos x hx
    omega

/-! ## The walk of one sample -/

namespace ZarrMetadata

def chunkOf (metadata : ZarrMetadata) (x : List ℕ) : List ℕ :=
  List.zipWith (fun d i => i / d.innerChunkShape) metadata.dims x

def shardOf (metadata : ZarrMetadata) (c : List ℕ) : List ℕ :=
  List.zipWith (fun d k => k / d.per) metadata.dims c

end ZarrMetadata

variable {arrays : PrefetchHandle → CacheQuery ZarrMetadata}
  {shards : PrefetchHandle → CacheQuery (List ShardEntry)} {output : BatchSpec}
  {limits : PlanLimits} {planArrays : List PlanArray} {regions : List PlanRegion}
  {item : PlannerSample × ℕ} {ctx : PlanSampleCtx} {vs : List Visit}

/-- The visits of a sample in terms of the axes of its selection: they pass once through the
chunks that the selection meets, and each record is made from the index of the chunk's shard. -/
structure WalkSpec (shards : PrefetchHandle → CacheQuery (List ShardEntry)) (limits : PlanLimits)
    (sample : PlannerSample) (ctx : PlanSampleCtx) (vs : List Visit) (rows : List PlanRow) :
    Prop where
  dims : sample.query.dims = rows.map Prod.fst
  metadata : ctx.metadata.dims = rows.map Prod.snd
  rows_wf : ∀ r ∈ rows, r.Wf
  per : ctx.per = rows.map fun r => r.2.per
  perm : (vs.map (·.chunk.coordinate)).Perm (cartesian (rows.map PlanRow.chunkCells))
  region : ∀ v ∈ vs, v.region = ctx.region
  records : ∀ grid,
    selectionGridInit (shardGridDims sample.query.dims ctx.metadata.dims) limits.maxShardsPerSample =
      .ok grid →
    ∀ v ∈ vs, ∃ (j : ℕ) (handle : PrefetchHandle) (index : Option (List ShardEntry)),
      (selectionGridCoords grid)[j]? = some (ctx.metadata.shardOf v.chunk.coordinate) ∧
      sample.hShards[j]? = some handle ∧ shardIndexOf (shards handle) = .ok index ∧
      planChunk index (index.map fun _ => zarrShardPathBuild sample.query.uri
        (ctx.metadata.shardOf v.chunk.coordinate)) ctx.per v.chunk.coordinate ctx.array
        ctx.decodedBytes = .ok v.chunk

theorem ShardVisits.coords_flatten {shardCoords : List (List ℕ × ℕ)} {vss : List (List Visit)}
    (h : List.Forall₂ (ShardVisits shards limits ctx) shardCoords vss) :
    vss.flatten.map (·.chunk.coordinate) = (shardCoords.map Prod.fst).flatMap
      (shardChunkCoords ctx.sample.query.dims ctx.metadata limits ctx.per) := by
  induction h with
  | nil => rfl
  | cons hvs _ ih =>
    rw [flatten_cons, map_append, map_cons, flatMap_cons, ih, hvs.coords]

theorem SampleWalk.spec (hs : item.1.Stored)
    (h : SampleWalk arrays shards output limits planArrays regions item ctx vs) :
    ∃ rows, WalkSpec shards limits item.1 ctx vs rows := by
  obtain ⟨count, hgeo⟩ := h.geometry
  obtain ⟨total, hper⟩ := h.per
  obtain ⟨shardGrid, hshard, vss, hvss, rfl⟩ := h.visits
  have hg := sampleGeometry_ok hs.ne_nil hgeo
  obtain ⟨rows, hdims, hds, hrows, hpers, -⟩ := planRows_wf hs.wf hg hper hshard
  obtain ⟨grid, hgrid, -⟩ := hg.grid
  rw [hdims, hds] at hgrid
  have hshard' := hshard
  rw [hdims, hds] at hshard'
  have hcoords := shardGrid_coords hrows hshard'
  have hflat := ShardVisits.coords_flatten hvss
  rw [zipIdx_map_fst, hcoords, h.sample, hdims, hpers] at hflat
  refine ⟨rows, hdims, hds, hrows, hpers, ?_, ?_, ?_⟩
  · rw [hflat]
    exact shardChunkCoords_perm hrows hds hgrid
  · intro v hv
    obtain ⟨vs, hvs, hv⟩ := mem_flatten.mp hv
    obtain ⟨j, hj, rfl⟩ := getElem_of_mem hvs
    exact (hvss.get (hvss.length_eq ▸ hj) hj).region v hv
  · intro grid' hgrid' v hv
    obtain rfl : shardGrid = grid' := Except.ok.inj (hshard.symm.trans hgrid')
    obtain ⟨vs, hvs, hv⟩ := mem_flatten.mp hv
    obtain ⟨j, hj, rfl⟩ := getElem_of_mem hvs
    have hj' : j < (selectionGridCoords shardGrid).length := by
      have := hvss.length_eq
      rw [length_zipIdx] at this
      omega
    have hvisits := hvss.get (by rw [length_zipIdx]; exact hj') hj
    simp only [get_eq_getElem, getElem_zipIdx, Nat.zero_add] at hvisits
    obtain ⟨handle, index, hhandle, hindex, hrecords⟩ := hvisits.records
    -- the shard that is walked is the shard of the chunk
    have hmem : (selectionGridCoords shardGrid)[j] ∈ cartesian (rows.map PlanRow.shardCells) := by
      rw [← hcoords]
      exact getElem_mem hj'
    have hchunk : v.chunk.coordinate ∈ cartesian (List.zipWith PlanRow.clippedCells rows
        (selectionGridCoords shardGrid)[j]) := by
      obtain ⟨clipped, hclipped, hclippedCoords⟩ := clippedGrid_coords hrows hgrid hmem
      rw [← hclippedCoords]
      have hv' : v.chunk.coordinate ∈ shardChunkCoords ctx.sample.query.dims ctx.metadata limits
          ctx.per (selectionGridCoords shardGrid)[j] := by
        rw [← hvisits.coords]
        exact mem_map_of_mem hv
      rwa [shardChunkCoords, h.sample, hdims, hds, hpers, hclipped] at hv'
    have hshardOf : ctx.metadata.shardOf v.chunk.coordinate = (selectionGridCoords shardGrid)[j] := by
      rw [ZarrMetadata.shardOf, hds, zipWith_map_left]
      exact (((planRows_partitions hrows).mem_cartesian_part (mem_cartesian.mp hmem)).mp hchunk).2
    rw [h.sample] at hhandle hrecords
    rw [hshardOf]
    exact ⟨j, handle, index, getElem?_eq_getElem hj', hhandle, hindex, hrecords v hv⟩

/-! ## The axes of a use -/

def PlanRow.axis (r : PlanRow) (k : ℕ) : ChunkAxis :=
  ⟨r.1, r.2.innerChunkShape, k * r.2.innerChunkShape⟩

theorem map_zipWith_axis {γ : Type} {rows : List PlanRow} {c : List ℕ}
    (hlen : c.length = rows.length) (f : ChunkAxis → γ) (g : PlanRow → γ)
    (hfg : ∀ r k, f (PlanRow.axis r k) = g r) :
    (List.zipWith PlanRow.axis rows c).map f = rows.map g := by
  apply ext_getElem
  · simp [hlen]
  · intro d _ _
    simp [hfg]

theorem PlanRow.mul_inner_lt {r : PlanRow} (h : r.Wf) {k : ℕ} (hk : k ∈ r.chunkCells) :
    k * r.2.innerChunkShape < 2 ^ 63 := by
  obtain ⟨x, hx, rfl⟩ := (PlanRow.mem_chunkCells h).mp hk
  have hlt := (h.dim.lo_le_of_selects hx).2
  have hhi := h.dim.hi_lt
  have hle := Nat.div_mul_le_self x r.2.innerChunkShape
  omega

theorem chunkAxes_eq {rows : List PlanRow} (hrows : ∀ r ∈ rows, r.Wf) (region : PlanRegion)
    {metadata : ZarrMetadata} (hdims : region.dims = rows.map Prod.fst)
    (hds : metadata.dims = rows.map Prod.snd) {c : List ℕ}
    (hc : c ∈ cartesian (rows.map PlanRow.chunkCells)) :
    chunkAxes region metadata c = List.zipWith PlanRow.axis rows c := by
  rw [mem_cartesian, List.forall₂_map_right_iff] at hc
  rw [chunkAxes, hdims, hds]
  clear hdims hds
  induction hc with
  | nil => rfl
  | @cons k r c rows hk _ ih =>
    rw [forall_mem_cons] at hrows
    have hlt := PlanRow.mul_inner_lt hrows.1 hk
    simp only [map_cons, zip_cons_cons, zipWith_cons_cons,
      u64_of_lt (show k * r.2.innerChunkShape < 2 ^ 64 by omega), ih hrows.2]
    rfl

theorem Stores.extentInt {a : AxisSelection} {dim : QueryDim} (h : Stores a dim) :
    dim.extentInt = dim.extent := by
  have hnonneg := h.wf.nonneg
  have hlt := h.wf.lt
  by_cases hix : dim.indices = []
  · simp only [QueryDim.extentInt, QueryDim.extent, QueryDim.count, hix, length_nil, ne_eq,
      not_true, if_false, if_true, QueryDim.hi, QueryDim.lo]
    omega
  · simp [QueryDim.extentInt, QueryDim.extent, QueryDim.count, hix]

/-! ## Plans of batches -/

/-- A plan that was built from a batch of the caller's samples, and the layout of its batch. The
metadata cache gives samples of one uri the same metadata. -/
structure BatchPlan (arrays : PrefetchHandle → CacheQuery ZarrMetadata)
    (shards : PrefetchHandle → CacheQuery (List ShardEntry)) (raws : List Sample)
    (samples : List PlannerSample) (output : BatchSpec) (limits : PlanLimits) (plan : PreparedPlan)
    (layout : BatchLayout) : Prop where
  built : ∃ mem, preparedPlanBuild mem arrays shards samples output limits = .ok plan
  stored : List.Forall₂ (fun raw s => ∃ mallocOk, queryCopy mallocOk raw = .ok s.query) raws samples
  layout_eq : batchSpecLayout output = .ok layout
  count_le : samples.length ≤ output.samplesPerBatch
  metadata_eq : ∀ s ∈ samples, ∀ s' ∈ samples, s.query.uri = s'.query.uri → ∀ m m',
    arrayMetadata arrays s.hMeta = .ok m → arrayMetadata arrays s'.hMeta = .ok m' → m = m'

structure SampleSpec (arrays : PrefetchHandle → CacheQuery ZarrMetadata)
    (shards : PrefetchHandle → CacheQuery (List ShardEntry)) (raws : List Sample)
    (samples : List PlannerSample) (output : BatchSpec) (limits : PlanLimits) (plan : PreparedPlan)
    (i : ℕ) (raw : Sample) (sample : PlannerSample) (ctx : PlanSampleCtx) (vs : List Visit)
    (rows : List PlanRow) : Prop where
  raw_eq : raws[i]? = some raw
  sample_eq : samples[i]? = some sample
  uri_eq : raw.uri = some sample.query.uri
  stores : List.Forall₂ Stores raw.axes sample.query.dims
  ne_nil : sample.query.dims ≠ []
  walk : WalkSpec shards limits sample ctx vs rows
  region_eq : ctx.region = i
  region : plan.regions[i]? = some (planRegion sample i ctx.array)
  array : plan.arrays[ctx.array]? = some ⟨sample.query.uri, ctx.metadata⟩
  metadata : arrayMetadata arrays sample.hMeta = .ok ctx.metadata
  geometry : ∃ count, Geometry sample.query.dims ctx.metadata output limits count ctx.decodedBytes
  shardGrid : ∃ grid, selectionGridInit (shardGridDims sample.query.dims ctx.metadata.dims)
    limits.maxShardsPerSample = .ok grid
  per_le : ctx.per.prod ≤ uint64Max

section BatchPlan

variable {raws : List Sample} {samples : List PlannerSample} {plan : PreparedPlan}
  {layout : BatchLayout} {walks : List (PlanSampleCtx × List Visit)}

theorem BatchPlan.exists_spec (h : BatchPlan arrays shards raws samples output limits plan layout) :
    ∃ walks, PlanSpec arrays shards samples output limits plan walks := by
  obtain ⟨mem, hbuilt⟩ := h.built
  exact preparedPlanBuild_spec hbuilt

theorem BatchPlan.sample_spec
    (h : BatchPlan arrays shards raws samples output limits plan layout)
    (hspec : PlanSpec arrays shards samples output limits plan walks) {i : ℕ}
    {walk : PlanSampleCtx × List Visit} (hi : walks[i]? = some walk) :
    ∃ raw sample rows, SampleSpec arrays shards raws samples output limits plan i raw sample walk.1
      walk.2 rows := by
  obtain ⟨hlt, rfl⟩ := List.getElem?_eq_some_iff.mp hi
  have hlen := hspec.sampleWalks.length_eq
  rw [length_zipIdx] at hlen
  have hlt' : i < samples.length := by omega
  have hlt'' : i < raws.length := by
    rw [h.stored.length_eq]
    omega
  have hwalk := hspec.sampleWalks.get (by rw [length_zipIdx]; exact hlt') hlt
  simp only [get_eq_getElem, getElem_zipIdx, Nat.zero_add] at hwalk
  obtain ⟨mallocOk, hcopy⟩ := h.stored.get hlt'' hlt'
  simp only [get_eq_getElem] at hcopy
  have hstored : samples[i].Stored := ⟨mallocOk, raws[i], hcopy⟩
  obtain ⟨rows, hrows⟩ := hwalk.spec hstored
  obtain ⟨count, hgeo⟩ := hwalk.geometry
  obtain ⟨grid, hgrid, -⟩ := hwalk.visits
  obtain ⟨total, hper⟩ := hwalk.per
  have hper_le := innerPerShardLoop_le (by decide) hper
  rw [(zarrMetadataInnerPerShard_spec hper).2.2] at hper_le
  obtain ⟨huri', hne, -, hstores⟩ := queryCopy_spec hcopy
  -- the metadata stored with the array is the sample's
  obtain ⟨metadata, harray⟩ := hwalk.planArray
  obtain ⟨s, hs, huri, hmeta⟩ := hspec.arrays _ (mem_of_getElem? harray)
  obtain rfl : walks[i].1.metadata = metadata :=
    h.metadata_eq _ (getElem_mem hlt') s hs huri _ _ hwalk.metadata hmeta
  exact ⟨raws[i], samples[i], rows,
    { raw_eq := getElem?_eq_getElem hlt''
      sample_eq := getElem?_eq_getElem hlt'
      uri_eq := huri'
      stores := hstores
      ne_nil := hne
      walk := hrows
      region_eq := hwalk.region
      region := hwalk.planRegion
      array := harray
      metadata := hwalk.metadata
      geometry := ⟨count, sampleGeometry_ok hne hgeo⟩
      shardGrid := ⟨grid, hgrid⟩
      per_le := hper_le }⟩

theorem SampleSpec.sampleShape_eq {i : ℕ} {raw : Sample} {sample : PlannerSample}
    {rows : List PlanRow}
    (hs : SampleSpec arrays shards raws samples output limits plan i raw sample ctx vs rows) :
    output.sampleShape = (sample.query.dims.map QueryDim.extent).map Nat.cast ∧
      ∀ dim ∈ sample.query.dims, dim.extent < 2 ^ 63 := by
  obtain ⟨count, hgeo⟩ := hs.geometry
  have hext : ∀ dim ∈ sample.query.dims, dim.extentInt = dim.extent ∧ dim.extent < 2 ^ 63 := by
    intro dim hdim
    obtain ⟨d, hd, rfl⟩ := getElem_of_mem hdim
    have := hs.stores.get (hs.stores.length_eq ▸ hd) hd
    exact ⟨this.extentInt, this.extent_lt⟩
  refine ⟨?_, fun dim hdim => (hext dim hdim).2⟩
  rw [← hgeo.extents, map_map]
  exact map_congr_left fun dim hdim => (hext dim hdim).1

theorem BatchPlan.layout_spec (h : BatchPlan arrays shards raws samples output limits plan layout)
    {i : ℕ} {raw : Sample} {sample : PlannerSample} {rows : List PlanRow}
    (hs : SampleSpec arrays shards raws samples output limits plan i raw sample ctx vs rows) :
    output.shape = sample.query.dims.map QueryDim.extent ∧
      layout.strides = batchStrides output.shape ∧ (i + 1) * output.shape.prod < 2 ^ 63 := by
  obtain ⟨hshape, hext⟩ := hs.sampleShape_eq
  have hlt : ∀ x ∈ output.sampleShape, x < 2 ^ 63 := by
    intro x hx
    rw [hshape, map_map] at hx
    obtain ⟨dim, hdim, rfl⟩ := mem_map.mp hx
    have := hext dim hdim
    show ((dim.extent : ℕ) : ℤ) < 2 ^ 63
    omega
  obtain ⟨hstrides, hle, -⟩ := batchSpecLayout_spec hlt h.layout_eq
  refine ⟨?_, hstrides, ?_⟩
  · rw [BatchSpec.shape, hshape, map_map]
    exact (map_congr_left fun n _ => Int.toNat_natCast n).trans (map_id _)
  · have hcount := h.count_le
    have hi := (List.getElem?_eq_some_iff.mp hs.sample_eq).1
    have := Nat.mul_le_mul_right output.shape.prod (show i + 1 ≤ output.samplesPerBatch by omega)
    simp only [int64Max] at hle
    omega

theorem SampleSpec.inner_prod_lt {i : ℕ} {raw : Sample} {sample : PlannerSample}
    {rows : List PlanRow}
    (hs : SampleSpec arrays shards raws samples output limits plan i raw sample ctx vs rows) :
    (rows.map fun r => r.2.innerChunkShape).prod < 2 ^ 32 ∧
      ∀ r ∈ rows, r.2.innerChunkShape < 2 ^ 32 := by
  obtain ⟨count, hgeo⟩ := hs.geometry
  have hbytes := hgeo.bytes_le hs.ne_nil
  have hlimit := limits.maxChunkBytes_lt
  have hbpe : 1 ≤ dtypeBpe ctx.metadata.dtype := by
    cases ctx.metadata.dtype <;> simp [dtypeBpe]
  have hprod : (rows.map fun r => r.2.innerChunkShape).prod < 2 ^ 32 := by
    have hle := Nat.le_mul_of_pos_left (rows.map fun r => r.2.innerChunkShape).prod hbpe
    rw [hgeo.bytes_eq, hs.walk.metadata, map_map] at hbytes
    exact Nat.lt_of_le_of_lt (Nat.le_trans hle hbytes) hlimit
  refine ⟨hprod, fun r hr => Nat.lt_of_le_of_lt ?_ hprod⟩
  apply single_le_prod
  · intro n hn
    obtain ⟨r', hr', rfl⟩ := mem_map.mp hn
    exact (hs.walk.rows_wf r' hr').inner_pos
  · exact mem_map_of_mem hr

/-- **The axes of a use** satisfy what the copy loops rely on. -/
theorem BatchPlan.useWf (h : BatchPlan arrays shards raws samples output limits plan layout)
    {i : ℕ} {raw : Sample} {sample : PlannerSample} {rows : List PlanRow}
    (hs : SampleSpec arrays shards raws samples output limits plan i raw sample ctx vs rows)
    {c : List ℕ} (hc : c ∈ cartesian (rows.map PlanRow.chunkCells)) :
    UseWf output.shape i (List.zipWith PlanRow.axis rows c) c := by
  obtain ⟨hshape, -, hbatch⟩ := h.layout_spec hs
  obtain ⟨hprod, hinner⟩ := hs.inner_prod_lt
  have hlen : c.length = rows.length := by
    simpa using (mem_cartesian.mp hc).length_eq
  have hstores := hs.stores
  rw [hs.walk.dims] at hstores hshape
  rw [mem_cartesian, List.forall₂_map_right_iff] at hc
  refine ⟨?_, ?_, hbatch, ?_⟩
  · have hwf := hs.walk.rows_wf
    rw [List.forall₂_map_right_iff] at hstores
    clear hlen hprod hshape hbatch hs
    generalize raw.axes = axes at hstores
    induction hc generalizing axes with
    | nil => exact .nil
    | @cons k r c rows hk _ ih =>
      obtain _ | ⟨hr, hstores⟩ := hstores
      rw [forall_mem_cons] at hwf hinner
      refine .cons ⟨hr.wf, ?_, hwf.1.inner_pos, hinner.1, rfl, ?_⟩ (ih hinner.2 hwf.2 _ hstores)
      · intro o x hp
        rw [PlanRow.axis, hr.extent]
        exact ((hr.picks o x).mp hp).1
      · exact (PlanRow.mem_chunkCells hwf.1).mp hk
  · rw [hshape, map_map, map_zipWith_axis hlen (·.dim.extent) (fun r => r.1.extent)
      (fun _ _ => rfl)]
    rfl
  · rw [map_zipWith_axis hlen (·.inner) (fun r => r.2.innerChunkShape) (fun _ _ => rfl)]
    exact hprod

/-! ## Uses and visits -/

theorem Chain.useChain_eq {uses l : List PlanUse} {first : Option ℕ} (h : Chain uses first l)
    {fuel : ℕ} (hfuel : l.length ≤ fuel) : useChain uses fuel first = l := by
  induction h generalizing fuel with
  | nil => cases fuel <;> rfl
  | cons hu _ ih =>
    obtain ⟨n, rfl⟩ := Nat.exists_eq_add_of_le' (Nat.le_trans (Nat.succ_le_succ (Nat.zero_le _)) hfuel)
    simp only [useChain, hu]
    rw [ih (by simpa using hfuel)]

theorem PlanSpec.useChain_eq (hspec : PlanSpec arrays shards samples output limits plan walks)
    {k : ℕ} {chunk : PlanChunk} (hk : plan.chunks[k]? = some chunk) :
    useChain plan.uses plan.uses.length chunk.firstUse =
      (plan.uses.filter (·.chunk == k)).reverse := by
  obtain ⟨m, table, hinv⟩ := hspec.inv
  refine (hinv.chains k chunk hk).useChain_eq ?_
  rw [length_reverse]
  exact length_filter_le _ _

theorem exists_walk_of_mem {v : Visit} (hv : v ∈ walks.flatMap Prod.snd) :
    ∃ (i : ℕ) (walk : PlanSampleCtx × List Visit), walks[i]? = some walk ∧ v ∈ walk.2 := by
  obtain ⟨walk, hwalk, hv⟩ := mem_flatMap.mp hv
  obtain ⟨i, hi⟩ := getElem?_of_mem hwalk
  exact ⟨i, walk, hi, hv⟩

/-- A use of a chunk, the sample it is for, and the visit it was made in. -/
structure UseSpec (arrays : PrefetchHandle → CacheQuery ZarrMetadata)
    (shards : PrefetchHandle → CacheQuery (List ShardEntry)) (raws : List Sample)
    (samples : List PlannerSample) (output : BatchSpec) (limits : PlanLimits) (plan : PreparedPlan)
    (i : ℕ) (raw : Sample) (sample : PlannerSample) (ctx : PlanSampleCtx) (vs : List Visit)
    (rows : List PlanRow) (use : PlanUse) (chunk : PlanChunk) : Prop where
  spec : SampleSpec arrays shards raws samples output limits plan i raw sample ctx vs rows
  chunk_eq : plan.chunks[use.chunk]? = some chunk
  use_region : use.region = i
  array_eq : chunk.array = ctx.array
  coordinate : chunk.coordinate ∈ cartesian (rows.map PlanRow.chunkCells)

theorem SampleSpec.visit_spec {i : ℕ} {raw : Sample} {sample : PlannerSample} {rows : List PlanRow}
    (hs : SampleSpec arrays shards raws samples output limits plan i raw sample ctx vs rows)
    {v : Visit} (hv : v ∈ vs) :
    v.region = i ∧ v.chunk.array = ctx.array ∧
      v.chunk.coordinate ∈ cartesian (rows.map PlanRow.chunkCells) := by
  obtain ⟨grid, hgrid⟩ := hs.shardGrid
  obtain ⟨j, handle, index, -, -, -, hchunk⟩ := hs.walk.records grid hgrid v hv
  refine ⟨(hs.walk.region v hv).trans hs.region_eq, (planChunk_ok hchunk).2.1, ?_⟩
  exact hs.walk.perm.mem_iff.mp (mem_map_of_mem hv)

theorem BatchPlan.use_spec (h : BatchPlan arrays shards raws samples output limits plan layout)
    {use : PlanUse} (huse : use ∈ plan.uses) :
    ∃ i raw sample ctx vs rows chunk,
      UseSpec arrays shards raws samples output limits plan i raw sample ctx vs rows use chunk := by
  obtain ⟨walks, hspec⟩ := h.exists_spec
  obtain ⟨m, table, hinv⟩ := hspec.inv
  obtain ⟨u, hu, rfl⟩ := getElem_of_mem huse
  have hu' : u < (walks.flatMap Prod.snd).length := by
    rw [← hinv.uses.length_eq]
    exact hu
  obtain ⟨hregion, hkey⟩ := hinv.uses.get hu hu'
  simp only [get_eq_getElem] at hregion hkey
  obtain ⟨i, walk, hi, hv⟩ := exists_walk_of_mem (getElem_mem hu')
  obtain ⟨raw, sample, rows, hs⟩ := h.sample_spec hspec hi
  obtain ⟨hvr, hva, hvc⟩ := hs.visit_spec hv
  obtain ⟨chunk, hchunk, hkey⟩ := Option.map_eq_some_iff.mp hkey
  obtain ⟨hka, hkc⟩ := Prod.mk.injEq .. ▸ hkey
  exact ⟨i, raw, sample, walk.1, walk.2, rows, chunk, hs, hchunk, hregion.trans hvr, hka.trans hva,
    hkc ▸ hvc⟩

theorem BatchPlan.exists_use (h : BatchPlan arrays shards raws samples output limits plan layout)
    {i : ℕ} (hi : i < samples.length) :
    ∃ raw sample ctx vs rows,
      SampleSpec arrays shards raws samples output limits plan i raw sample ctx vs rows ∧
      ∀ c ∈ cartesian (rows.map PlanRow.chunkCells), ∃ use ∈ plan.uses, ∃ chunk,
        UseSpec arrays shards raws samples output limits plan i raw sample ctx vs rows use chunk ∧
        chunk.coordinate = c := by
  obtain ⟨walks, hspec⟩ := h.exists_spec
  obtain ⟨m, table, hinv⟩ := hspec.inv
  have hlt : i < walks.length := by
    have := hspec.sampleWalks.length_eq
    rw [length_zipIdx] at this
    omega
  have hwalk : walks[i]? = some walks[i] := getElem?_eq_getElem hlt
  obtain ⟨raw, sample, rows, hs⟩ := h.sample_spec hspec hwalk
  refine ⟨raw, sample, _, _, rows, hs, ?_⟩
  intro c hc
  obtain ⟨v, hv, rfl⟩ := mem_map.mp (hs.walk.perm.mem_iff.mpr hc)
  obtain ⟨hvr, hva, hvc⟩ := hs.visit_spec hv
  obtain ⟨u, hu, hget⟩ := getElem_of_mem
    (mem_flatMap.mpr ⟨_, mem_of_getElem? hwalk, hv⟩ : v ∈ walks.flatMap Prod.snd)
  have hu' : u < plan.uses.length := by
    have := hinv.uses.length_eq
    dsimp only at this
    omega
  obtain ⟨hregion, hkey⟩ := hinv.uses.get hu' hu
  simp only [get_eq_getElem, hget] at hregion hkey
  obtain ⟨chunk, hchunk, hkey⟩ := Option.map_eq_some_iff.mp hkey
  obtain ⟨hka, hkc⟩ := Prod.mk.injEq .. ▸ hkey
  exact ⟨plan.uses[u], getElem_mem hu', chunk,
    ⟨hs, hchunk, hregion.trans hvr, hka.trans hva, hkc ▸ hvc⟩, hkc⟩

/-- **What the CPU executor copies for a use** of a plan. -/
theorem BatchPlan.useRows_writes
    (h : BatchPlan arrays shards raws samples output limits plan layout) {i : ℕ} {raw : Sample}
    {sample : PlannerSample} {rows : List PlanRow} {use : PlanUse} {chunk : PlanChunk}
    (hu : UseSpec arrays shards raws samples output limits plan i raw sample ctx vs rows use chunk) :
    (useRows plan layout.strides ctx.metadata chunk use).flatMap Row.writes =
      regionWrites output.shape i (List.zipWith PlanRow.axis rows chunk.coordinate) := by
  have hs := hu.spec
  have hwf := h.useWf hs hu.coordinate
  obtain ⟨-, hstrides, -⟩ := h.layout_spec hs
  have haxes := chunkAxes_eq hs.walk.rows_wf (planRegion sample i ctx.array) hs.walk.dims
    hs.walk.metadata hu.coordinate
  have hlen : chunk.coordinate.length = rows.length := by
    simpa using (mem_cartesian.mp hu.coordinate).length_eq
  have hne : List.zipWith PlanRow.axis rows chunk.coordinate ≠ [] := by
    intro hnil
    apply hs.ne_nil
    rw [hs.walk.dims, map_eq_nil_iff]
    rw [zipWith_eq_nil_iff] at hnil
    rcases hnil with hnil | hnil
    · exact hnil
    · rw [hnil] at hlen
      exact length_eq_zero_iff.mp hlen.symm
  simp only [useRows, hu.use_region, hs.region, haxes, hstrides]
  by_cases hany : sample.query.dims.any (fun dim => dim.count != 0) = true
  · simp only [planRegion, hany, if_true]
    exact gatherRows_writes hwf rfl hne
  · simp only [planRegion, hany]
    apply assembleRows_writes hwf rfl hne
    -- no axis of a copied region has indices
    intro a ha
    obtain ⟨d, hd, rfl⟩ := getElem_of_mem ha
    rw [getElem_zipWith]
    by_contra hix
    apply hany
    rw [any_eq_true]
    refine ⟨_, ?_, by simpa [PlanRow.axis, QueryDim.count] using hix⟩
    rw [hs.walk.dims]
    exact mem_map_of_mem (getElem_mem _)

end BatchPlan

end Damacy

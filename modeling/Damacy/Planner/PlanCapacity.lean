import Damacy.Planner.ShardEnumeration

/-!
# The use table never overflows

The first pass of the builder counts, from the chunk grid of every sample, how many uses the plan
will have; the second pass makes one use for every inner chunk it walks, shard by shard. Both
numbers agree, so the capacity check inside the chunk loop never fails.
-/

open List Odometer ExceptFold

namespace Damacy

variable {mem : PlanMemory} {arrays : PrefetchHandle → CacheQuery ZarrMetadata}
  {shards : PrefetchHandle → CacheQuery (List ShardEntry)} {output : BatchSpec}
  {limits : PlanLimits} {capacity buckets : ℕ}

/-! ## One inner chunk -/

@[simp] theorem planStore_uses (build : PlanBuild) (buckets : ℕ) (chunk : PlanChunk) :
    (planStore build buckets chunk).2.uses = build.uses := by
  unfold planStore
  dsimp only
  split <;> rfl

@[simp] theorem planArray_uses (build : PlanBuild) (uri : CString) (metadata : ZarrMetadata) :
    (planArray build uri metadata).2.uses = build.uses := by
  unfold planArray
  dsimp only
  split <;> rfl

theorem planVisit_uses {ctx : PlanSampleCtx} {index : Option (List ShardEntry)}
    {path : Option CString} {build build' : PlanBuild} {coordinate : List ℕ}
    (h : planVisit capacity buckets ctx index path build coordinate = .ok build') :
    build'.uses.length = build.uses.length + 1 := by
  simp only [planVisit, planUse, bind_eq_ok, failIf_eq_ok, exists_const, pure_eq_ok] at h
  obtain ⟨chunk, -, -, h⟩ := h
  obtain rfl := Except.ok.inj h
  simp

theorem planChunk_ne_usesFull {index : Option (List ShardEntry)} {path : Option CString}
    {per coordinate : List ℕ} {array decodedBytes : ℕ} :
    planChunk index path per coordinate array decodedBytes ≠ .error .usesFull := by
  unfold planChunk
  dsimp only
  split
  · simp
  · split
    · simp
    · split
      · simp
      · split <;> simp

theorem planVisit_ne_usesFull {ctx : PlanSampleCtx} {index : Option (List ShardEntry)}
    {path : Option CString} {build : PlanBuild} {coordinate : List ℕ}
    (hcap : build.uses.length + 1 ≤ capacity) :
    planVisit capacity buckets ctx index path build coordinate ≠ .error .usesFull := by
  intro h
  simp only [planVisit, planUse, bind_eq_error, failIf_eq_error, pure_eq_ok] at h
  rcases h with h | ⟨chunk, -, h⟩
  · exact planChunk_ne_usesFull h
  · rcases h with ⟨h, -⟩ | ⟨_, _, h⟩
    · simp at h
      omega
    · cases h

/-! ## One shard -/

theorem gridInit_eq_ok {dims : List GridDim} {maxCells : ℕ} {grid : SelectionGrid} :
    gridInit dims maxCells = .ok grid ↔ selectionGridInit dims maxCells = .ok grid :=
  mapError_eq_ok

theorem gridInit_ne_usesFull {dims : List GridDim} {maxCells : ℕ} :
    gridInit dims maxCells ≠ .error .usesFull := by
  unfold gridInit
  cases selectionGridInit dims maxCells <;> simp [Except.mapError]

theorem shardIndexOf_ne_usesFull (q : CacheQuery (List ShardEntry)) :
    shardIndexOf q ≠ .error .usesFull := by
  unfold shardIndexOf
  split <;> simp

/-- The number of inner chunks that the builder walks in a shard of a sample. -/
def shardWeight (limits : PlanLimits) (ctx : PlanSampleCtx) (shard : List ℕ × ℕ) : ℕ :=
  (shardChunkCoords ctx.sample.query.dims ctx.metadata limits ctx.per shard.1).length

theorem planShard_ok {ctx : PlanSampleCtx} {build build' : PlanBuild} {shard : List ℕ × ℕ}
    (h : planShard mem shards limits capacity buckets ctx build shard = .ok build') :
    ∃ handle index, ctx.sample.hShards[shard.2]? = some handle ∧
      shardIndexOf (shards handle) = .ok index ∧
      (shardChunkCoords ctx.sample.query.dims ctx.metadata limits ctx.per shard.1).foldlM
        (planVisit capacity buckets ctx index
          (index.map fun _ => zarrShardPathBuild ctx.sample.query.uri shard.1)) build =
        .ok build' := by
  unfold planShard at h
  split at h
  · cases h
  · rename_i handle hhandle
    simp only [bind_eq_ok, failIf_eq_ok, exists_const, gridInit_eq_ok] at h
    obtain ⟨index, hindex, -, grid, hgrid, hfold⟩ := h
    refine ⟨handle, index, hhandle, hindex, ?_⟩
    rw [shardChunkCoords, hgrid]
    exact hfold

theorem planShard_uses {ctx : PlanSampleCtx} {build build' : PlanBuild} {shard : List ℕ × ℕ}
    (h : planShard mem shards limits capacity buckets ctx build shard = .ok build') :
    build'.uses.length = build.uses.length + shardWeight limits ctx shard := by
  obtain ⟨handle, index, -, -, hfold⟩ := planShard_ok h
  have := foldlM_weight (m := fun b : PlanBuild => b.uses.length) (w := fun _ => 1)
    (fun c _ b b' hb => planVisit_uses hb) hfold
  simpa [shardWeight] using this

theorem planShard_ne_usesFull {ctx : PlanSampleCtx} {build : PlanBuild} {shard : List ℕ × ℕ}
    (hcap : build.uses.length + shardWeight limits ctx shard ≤ capacity) :
    planShard mem shards limits capacity buckets ctx build shard ≠ .error .usesFull := by
  intro h
  unfold planShard at h
  split at h
  · cases h
  · simp only [bind_eq_error, failIf_eq_error, gridInit_eq_ok] at h
    rcases h with h | ⟨index, hindex, ⟨-, h⟩ | ⟨-, -, h | ⟨grid, hgrid, h⟩⟩⟩
    · exact shardIndexOf_ne_usesFull _ h
    · cases h
    · exact gridInit_ne_usesFull h
    · refine foldlM_weight_ne_error (m := fun b : PlanBuild => b.uses.length) (w := fun _ => 1)
        (fun c _ b b' hb => planVisit_uses hb) (fun c _ b hb => planVisit_ne_usesFull hb) ?_ h
      rw [shardWeight, shardChunkCoords, hgrid] at hcap
      simpa using hcap

/-! ## One sample -/

def sampleWeight (arrays : PrefetchHandle → CacheQuery ZarrMetadata) (output : BatchSpec)
    (limits : PlanLimits) (sample : PlannerSample) : ℕ :=
  match arrayMetadata arrays sample.hMeta with
  | .ok metadata =>
    match sampleGeometry sample.query.dims metadata output limits with
    | .ok (count, _) => count
    | .error _ => 0
  | .error _ => 0

theorem sum_shardWeight {dims : List QueryDim} {metadata : ZarrMetadata} {count bytes total : ℕ}
    {maxShards : ℕ} {per : List ℕ} {shardGrid : SelectionGrid} (hne : dims ≠ [])
    (hwf : ∀ dim ∈ dims, dim.Wf)
    (hgeo : sampleGeometry dims metadata output limits = .ok (count, bytes))
    (hper : zarrMetadataInnerPerShard metadata = some (per, total))
    (hshard : selectionGridInit (shardGridDims dims metadata.dims) maxShards = .ok shardGrid) :
    ((selectionGridCoords shardGrid).map fun sc =>
      (shardChunkCoords dims metadata limits per sc).length).sum = count := by
  have hg := sampleGeometry_ok hne hgeo
  obtain ⟨rows, rfl, hds, hrows, rfl, -⟩ := planRows_wf hwf hg hper hshard
  obtain ⟨grid, hgrid, rfl⟩ := hg.grid
  rw [hds] at hgrid hshard
  rw [shardGrid_coords hrows hshard, (chunkGrid_coords hrows hgrid).1,
    (chunkGrid_coords hrows hgrid).2, ← (shardChunkCoords_perm hrows hds hgrid).length_eq,
    length_flatMap]

/-- A sample that the builder may be given: its query was stored by `query_copy`. -/
def PlannerSample.Stored (sample : PlannerSample) : Prop :=
  ∃ mallocOk raw, queryCopy mallocOk raw = .ok sample.query

theorem PlannerSample.Stored.ne_nil {sample : PlannerSample} (h : sample.Stored) :
    sample.query.dims ≠ [] := by
  obtain ⟨mallocOk, raw, hq⟩ := h
  exact (queryCopy_spec hq).2.1

theorem PlannerSample.Stored.wf {sample : PlannerSample} (h : sample.Stored) :
    ∀ dim ∈ sample.query.dims, dim.Wf := by
  obtain ⟨mallocOk, raw, hq⟩ := h
  obtain ⟨-, -, -, hstores⟩ := queryCopy_spec hq
  intro dim hdim
  obtain ⟨i, hi, rfl⟩ := getElem_of_mem hdim
  exact (hstores.get (hstores.length_eq ▸ hi) hi).wf

theorem planSample_ok {build build' : PlanBuild} {item : PlannerSample × ℕ}
    (h : planSample mem arrays shards output limits capacity buckets build item = .ok build') :
    ∃ metadata count bytes per total grid,
      arrayMetadata arrays item.1.hMeta = .ok metadata ∧
      sampleGeometry item.1.query.dims metadata output limits = .ok (count, bytes) ∧
      zarrMetadataInnerPerShard metadata = some (per, total) ∧
      selectionGridInit (shardGridDims item.1.query.dims metadata.dims) limits.maxShardsPerSample =
        .ok grid ∧
      (selectionGridCoords grid).length = item.1.hShards.length ∧
      (selectionGridCoords grid).zipIdx.foldlM
        (planShard mem shards limits capacity buckets
          { sample := item.1, region := item.2
            array := (planArray build item.1.query.uri metadata).1
            metadata, per, decodedBytes := bytes })
        { (planArray build item.1.query.uri metadata).2 with
          regions := (planArray build item.1.query.uri metadata).2.regions ++
            [planRegion item.1 item.2 (planArray build item.1.query.uri metadata).1] } =
        .ok build' := by
  obtain ⟨sample, i⟩ := item
  simp only [planSample, bind_eq_ok] at h
  obtain ⟨metadata, hmeta, ⟨count, bytes⟩, hgeo, h⟩ := h
  cases hper : zarrMetadataInnerPerShard metadata with
  | none => simp [hper] at h
  | some p =>
    obtain ⟨per, total⟩ := p
    simp only [hper, bind_eq_ok, failIf_eq_ok, exists_const, pure_eq_ok, gridInit_eq_ok,
      Except.ok.injEq, Classical.not_not] at h
    obtain ⟨grid, hgrid, b, hfold, hlen, rfl⟩ := h
    exact ⟨metadata, count, bytes, per, total, grid, hmeta, hgeo, hper, hgrid, hlen, hfold⟩

theorem sum_map_zipIdx {α : Type} (l : List α) (w : α → ℕ) :
    (l.zipIdx.map fun a => w a.1).sum = (l.map w).sum := by
  conv_rhs => rw [← zipIdx_map_fst 0 l, map_map]
  rfl

theorem sum_shardWeight_zipIdx (limits : PlanLimits) (ctx : PlanSampleCtx)
    (coords : List (List ℕ)) :
    (coords.zipIdx.map (shardWeight limits ctx)).sum = (coords.map fun sc =>
      (shardChunkCoords ctx.sample.query.dims ctx.metadata limits ctx.per sc).length).sum :=
  sum_map_zipIdx coords fun sc =>
    (shardChunkCoords ctx.sample.query.dims ctx.metadata limits ctx.per sc).length

theorem planSample_uses {build build' : PlanBuild} {item : PlannerSample × ℕ}
    (hs : item.1.Stored)
    (h : planSample mem arrays shards output limits capacity buckets build item = .ok build') :
    build'.uses.length = build.uses.length + sampleWeight arrays output limits item.1 := by
  obtain ⟨metadata, count, bytes, per, total, grid, hmeta, hgeo, hper, hgrid, -, hfold⟩ :=
    planSample_ok h
  have := foldlM_weight (m := fun b : PlanBuild => b.uses.length)
    (fun shard _ b b' hb => planShard_uses hb) hfold
  rw [sum_shardWeight_zipIdx, sum_shardWeight hs.ne_nil hs.wf hgeo hper hgrid] at this
  simpa [sampleWeight, hmeta, hgeo] using this

theorem arrayMetadata_ne_usesFull (h : PrefetchHandle) :
    arrayMetadata arrays h ≠ .error .usesFull := by
  unfold arrayMetadata
  split <;> simp

theorem sampleGeometryLoop_ne_usesFull {maxChunkBytes size : ℕ} {dims : List QueryDim}
    {ds : List ZarrDim} {shapes : List ℤ} :
    sampleGeometryLoop maxChunkBytes size dims ds shapes ≠ .error .usesFull := by
  fun_induction sampleGeometryLoop maxChunkBytes size dims ds shapes with
  | case1 size dim dims d ds shape shapes ih =>
    simp only [ne_eq, bind_eq_error, failIf_eq_error, failIf_eq_ok, reduceCtorEq, and_false,
      false_or, exists_const]
    rintro ⟨-, -, -, h⟩
    exact ih h
  | case2 => simp

theorem sampleGeometry_ne_usesFull {dims : List QueryDim} {metadata : ZarrMetadata} :
    sampleGeometry dims metadata output limits ≠ .error .usesFull := by
  simp only [sampleGeometry, ne_eq, bind_eq_error, failIf_eq_error, failIf_eq_ok, reduceCtorEq,
    and_false, false_or, sampleGeometryLoop_ne_usesFull, gridInit_ne_usesFull, pure_eq_ok,
    exists_const, exists_false, not_false_eq_true]

theorem planSample_ne_usesFull {build : PlanBuild} {item : PlannerSample × ℕ}
    (hs : item.1.Stored)
    (hcap : build.uses.length + sampleWeight arrays output limits item.1 ≤ capacity) :
    planSample mem arrays shards output limits capacity buckets build item ≠ .error .usesFull := by
  obtain ⟨sample, i⟩ := item
  intro h
  simp only [planSample, bind_eq_error] at h
  rcases h with h | ⟨metadata, hmeta, h | ⟨⟨count, bytes⟩, hgeo, h⟩⟩
  · exact arrayMetadata_ne_usesFull _ h
  · exact sampleGeometry_ne_usesFull h
  · cases hper : zarrMetadataInnerPerShard metadata with
    | none => simp [hper] at h
    | some p =>
      obtain ⟨per, total⟩ := p
      simp only [hper, bind_eq_error, failIf_eq_error, pure_eq_ok, gridInit_eq_ok] at h
      rcases h with h | ⟨grid, hgrid, h | ⟨b, -, h⟩⟩
      · exact gridInit_ne_usesFull h
      · refine foldlM_weight_ne_error (m := fun b : PlanBuild => b.uses.length)
          (fun shard _ b b' hb => planShard_uses hb)
          (fun shard _ b hb => planShard_ne_usesFull hb) ?_ h
        rw [sum_shardWeight_zipIdx, sum_shardWeight hs.ne_nil hs.wf hgeo hper hgrid]
        simpa [sampleWeight, hmeta, hgeo] using hcap
      · simp at h

/-! ## The whole batch -/

theorem planMeasure_capacity {totals totals' : PlanTotals} {sample : PlannerSample}
    (h : planMeasure arrays output limits totals sample = .ok totals') :
    totals'.capacity = totals.capacity + sampleWeight arrays output limits sample ∧
      totals'.capacity ≤ limits.maxChunks := by
  simp only [planMeasure, bind_eq_ok, failIf_eq_ok, exists_const, pure_eq_ok,
    Except.ok.injEq] at h
  obtain ⟨-, metadata, hmeta, ⟨count, bytes⟩, hgeo, indexBytes, -, hcap, -, -, rfl⟩ := h
  simp [sampleWeight, hmeta, hgeo] at hcap ⊢
  omega

theorem addIndexBytes_ne_usesFull {maxPlanBytes bytes : ℕ} {dims : List QueryDim} :
    addIndexBytes maxPlanBytes bytes dims ≠ .error .usesFull := by
  induction dims generalizing bytes with
  | nil => simp [addIndexBytes]
  | cons dim dims ih =>
    simp only [addIndexBytes, ne_eq, bind_eq_error, failIf_eq_error, reduceCtorEq, and_false,
      false_or, ih, exists_false, not_false_eq_true]

theorem planMeasure_ne_usesFull {totals : PlanTotals} {sample : PlannerSample} :
    planMeasure arrays output limits totals sample ≠ .error .usesFull := by
  simp only [planMeasure, ne_eq, bind_eq_error, failIf_eq_error, reduceCtorEq, and_false, false_or,
    arrayMetadata_ne_usesFull, sampleGeometry_ne_usesFull, addIndexBytes_ne_usesFull, pure_eq_ok,
    exists_false, not_false_eq_true]

theorem planStorageBytes_ne_usesFull {nSamples : ℕ} {totals : PlanTotals} :
    planStorageBytes limits nSamples totals ≠ .error .usesFull := by
  simp only [planStorageBytes, ne_eq, bind_eq_error, failIf_eq_error, reduceCtorEq, and_false,
    false_or, pure_eq_ok, exists_false, not_false_eq_true]

/-- **The capacity check of the use table never fails.** -/
theorem preparedPlanBuildExit_ne_usesFull {samples : List PlannerSample}
    (hs : ∀ s ∈ samples, s.Stored) :
    preparedPlanBuildExit mem arrays shards samples output limits ≠ .error .usesFull := by
  intro h
  simp only [preparedPlanBuildExit, bind_eq_error, failIf_eq_error, reduceCtorEq, and_false,
    false_or, planStorageBytes_ne_usesFull, pure_eq_ok, exists_false, or_false] at h
  obtain ⟨-, -, h | ⟨totals, htotals, _, _, _, _, _, _, h⟩⟩ := h
  · obtain ⟨_, _, _, _, -, -, h⟩ := foldlM_error_induction (fun _ _ _ => True) trivial
      (fun _ _ _ _ _ _ _ _ => trivial) h
    exact planMeasure_ne_usesFull h
  · have hcap := foldlM_weight (m := PlanTotals.capacity) (w := sampleWeight arrays output limits)
      (fun s _ t t' ht => (planMeasure_capacity ht).1) htotals
    have hmem : ∀ item ∈ samples.zipIdx, item.1.Stored := fun item hitem =>
      hs _ (fst_mem_of_mem_zipIdx hitem)
    refine foldlM_weight_ne_error (m := fun b : PlanBuild => b.uses.length)
      (fun item hitem b b' hb => planSample_uses (hmem item hitem) hb)
      (fun item hitem b hb => planSample_ne_usesFull (hmem item hitem) hb) ?_ h
    rw [sum_map_zipIdx, hcap]
    simp

/-! ## Enumeration -/

/-- How the second pass walks one sample: the grids it clips to the shards of `shardGrid` all
initialise, and together they pass through every coordinate of `chunkGrid` once. -/
structure ShardWalk (dims : List QueryDim) (metadata : ZarrMetadata) (limits : PlanLimits)
    (per : List ℕ) (total : ℕ) (shardGrid chunkGrid : SelectionGrid) : Prop where
  nodup : (selectionGridCoords chunkGrid).Nodup
  perm : ((selectionGridCoords shardGrid).flatMap (shardChunkCoords dims metadata limits per)).Perm
    (selectionGridCoords chunkGrid)
  clipped : ∀ sc ∈ selectionGridCoords shardGrid, ∃ grid, selectionGridInit
    (clippedGridDims dims metadata.dims (shardLo per sc) (shardHi per sc)) limits.maxChunks = .ok grid
  no_overflow : ∀ sc ∈ selectionGridCoords shardGrid,
    List.Forall₂ (fun s p => s * p < 2 ^ 64 ∧ s * p + p < 2 ^ 64) sc per
  entry_lt : ∀ sc ∈ selectionGridCoords shardGrid,
    ∀ c ∈ shardChunkCoords dims metadata limits per sc, entryIndexLoop 0 per c < total

theorem shardWalk_of_accepted {dims : List QueryDim} {metadata : ZarrMetadata}
    {count bytes total maxShards : ℕ} {per : List ℕ} {shardGrid : SelectionGrid}
    (hne : dims ≠ []) (hwf : ∀ dim ∈ dims, dim.Wf)
    (hgeo : sampleGeometry dims metadata output limits = .ok (count, bytes))
    (hper : zarrMetadataInnerPerShard metadata = some (per, total))
    (hshard : selectionGridInit (shardGridDims dims metadata.dims) maxShards = .ok shardGrid) :
    ∃ chunkGrid, selectionGridInit (chunkGridDims dims metadata.dims) limits.maxChunks =
        .ok chunkGrid ∧ count = (selectionGridCoords chunkGrid).length ∧
      ShardWalk dims metadata limits per total shardGrid chunkGrid := by
  have hg := sampleGeometry_ok hne hgeo
  have hbound : total ≤ uint64Max := innerPerShardLoop_le (by decide) hper
  obtain ⟨rows, rfl, hds, hrows, rfl, rfl⟩ := planRows_wf hwf hg hper hshard
  obtain ⟨grid, hgrid, rfl⟩ := hg.grid
  have hgrid' := hgrid
  rw [hds] at hgrid hshard
  obtain ⟨hcount, hcoords⟩ := chunkGrid_coords hrows hgrid
  have hperm := shardChunkCoords_perm hrows hds hgrid
  have hnodup : (cartesian (rows.map PlanRow.chunkCells)).Nodup := by
    refine nodup_cartesian fun l hl => ?_
    obtain ⟨r, -, rfl⟩ := mem_map.mp hl
    exact (GridDim.pairwise_cells _).imp Nat.ne_of_lt
  refine ⟨grid, hgrid', hcount, ?_⟩
  constructor
  · rwa [hcoords]
  · rw [hcoords, shardGrid_coords hrows hshard]
    exact hperm
  · intro sc hsc
    rw [shardGrid_coords hrows hshard] at hsc
    obtain ⟨clipped, hclipped, -⟩ := clippedGrid_coords hrows hgrid hsc
    exact ⟨clipped, hds ▸ hclipped⟩
  · intro sc hsc
    rw [shardGrid_coords hrows hshard, mem_cartesian, List.forall₂_map_right_iff] at hsc
    rw [List.forall₂_map_right_iff]
    clear hds hg hper hgeo hgrid hgrid' hshard hperm hnodup hcoords hbound hne hwf
    induction hsc with
    | nil => exact .nil
    | cons hs _ ih =>
      rw [forall_mem_cons] at hrows
      exact .cons (PlanRow.shardCells_mul_lt hrows.1 hs) (ih hrows.2)
  · intro sc hsc c hc
    rw [shardGrid_coords hrows hshard] at hsc
    have hmem := hperm.mem_iff.mp (mem_flatMap.mpr ⟨sc, hsc, hc⟩)
    have hlen : c.length = rows.length := by
      simpa using (mem_cartesian.mp hmem).length_eq
    refine entryIndexLoop_lt ?_ (by simpa using hlen) hbound
    intro p hp
    obtain ⟨r, hr, rfl⟩ := mem_map.mp hp
    exact (hrows r hr).per_pos

/-- **Every sample the builder accepts is walked once, and its uses fit.** For a stored sample whose
geometry and shards are accepted, the clipped grids pass through each coordinate of the chunk grid
exactly once, with 64-bit clip bounds and entry numbers inside the shard's index; so for every
batch of stored samples the capacity check of the use table is never the exit taken. -/
theorem shardWalk_and_capacity :
    (∀ (mallocOk : Bool) (raw : Sample) (q : Query) (metadata : ZarrMetadata) (output : BatchSpec)
      (limits : PlanLimits) (count bytes : ℕ) (per : List ℕ) (total maxShards : ℕ)
      (shardGrid : SelectionGrid),
      queryCopy mallocOk raw = .ok q →
      sampleGeometry q.dims metadata output limits = .ok (count, bytes) →
      zarrMetadataInnerPerShard metadata = some (per, total) →
      selectionGridInit (shardGridDims q.dims metadata.dims) maxShards = .ok shardGrid →
      ∃ chunkGrid, selectionGridInit (chunkGridDims q.dims metadata.dims) limits.maxChunks =
          .ok chunkGrid ∧ count = (selectionGridCoords chunkGrid).length ∧
        ShardWalk q.dims metadata limits per total shardGrid chunkGrid) ∧
    (∀ (mem : PlanMemory) (arrays : PrefetchHandle → CacheQuery ZarrMetadata)
      (shards : PrefetchHandle → CacheQuery (List ShardEntry)) (samples : List PlannerSample)
      (output : BatchSpec) (limits : PlanLimits), (∀ s ∈ samples, s.Stored) →
      preparedPlanBuildExit mem arrays shards samples output limits ≠ .error .usesFull) := by
  refine ⟨?_, fun mem arrays shards samples output limits hs =>
    preparedPlanBuildExit_ne_usesFull hs⟩
  intro mallocOk raw q metadata output limits count bytes per total maxShards shardGrid hq hgeo
    hper hshard
  have hstored : PlannerSample.Stored ⟨q, ⟨0, 0⟩, []⟩ := ⟨mallocOk, raw, hq⟩
  exact shardWalk_of_accepted hstored.ne_nil hstored.wf hgeo hper hshard

/-- An index selection with a repeated index, over an array of two shards of two inner chunks. -/
def exampleSample : Sample := { uri := some [0x61], axes := [.indices [5, 1, 5]] }

@[inherit_doc exampleSample]
def exampleMetadata : ZarrMetadata :=
  { dtype := .u8, dims := [{ shape := 8, innerChunkShape := 2, shardShape := 4 }]
    innerCodec := .none, fillValue := 0 }

@[inherit_doc exampleSample]
def exampleOutput : BatchSpec := { dtype := .u8, samplesPerBatch := 1, sampleShape := [3] }

@[inherit_doc exampleSample]
def exampleLimits : PlanLimits :=
  { maxChunks := 16, maxChunkBytes := 64, maxShardsPerSample := 4, maxPlanBytes := 65536 }

@[inherit_doc exampleSample]
def exampleQuery : Query := ⟨[0x61], [⟨⟨1, 6⟩, [⟨1, 1⟩, ⟨5, 0⟩, ⟨5, 2⟩]⟩]⟩

@[inherit_doc exampleSample]
def exampleShardGrid : SelectionGrid :=
  ⟨[⟨some [⟨1, 1⟩, ⟨5, 0⟩, ⟨5, 2⟩], 4, 0, 2, 0, 0, 3, 0⟩], 2, false⟩

theorem shardWalk_and_capacity_example :
    (∃ chunkGrid, 2 = (selectionGridCoords chunkGrid).length ∧ ShardWalk exampleQuery.dims
      exampleMetadata exampleLimits [2] 2 exampleShardGrid chunkGrid) ∧
    preparedPlanBuildExit ⟨true, true, fun _ _ => true⟩ (fun _ => .ready exampleMetadata)
      (fun _ => .error .notfound) [⟨exampleQuery, ⟨0, 1⟩, [⟨0, 1⟩, ⟨1, 1⟩]⟩] exampleOutput
      exampleLimits ≠ .error .usesFull := by
  constructor
  · obtain ⟨chunkGrid, -, hcount, hwalk⟩ := shardWalk_and_capacity.1 true exampleSample exampleQuery
      exampleMetadata exampleOutput exampleLimits 2 2 [2] 2 4 exampleShardGrid
      (by decide) (by decide) (by decide) (by decide)
    exact ⟨chunkGrid, hcount, hwalk⟩
  · refine shardWalk_and_capacity.2 _ _ _ _ _ _ fun s hs => ?_
    obtain rfl := mem_singleton.mp hs
    exact ⟨true, exampleSample, by decide⟩

end Damacy

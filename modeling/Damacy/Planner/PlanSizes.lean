import Damacy.Planner.PlanInvariant

/-!
# The sizes in a plan

What the executors may rely on about the numbers of a plan: the planner refuses a shard index whose
entry has no bytes or runs over the end of a 64-bit file, and counts uses and decoded bytes in 32
bits (`preparedPlanBuild_sizes`).
-/

open ExceptFold

namespace Damacy

/-- The sizes of a chunk's record as the planner checks them: a stored chunk has bytes, and they are
inside a file of 64-bit size. -/
structure PlanChunk.Sizes (chunk : PlanChunk) : Prop where
  decoded_lt : chunk.decodedBytes < 2 ^ 32
  encoded_pos : chunk.missing = false → 0 < chunk.encodedBytes
  encoded_lt : chunk.encodedBytes < 2 ^ 32
  stop_lt : chunk.missing = false → chunk.offset + chunk.encodedBytes < 2 ^ 64
  missing_encoded : chunk.missing = true → chunk.encodedBytes = 0

theorem PlanChunk.Sizes.of_missing {chunk : PlanChunk} (hdecoded : chunk.decodedBytes < 2 ^ 32)
    (hmissing : chunk.missing = true) (hencoded : chunk.encodedBytes = 0) : chunk.Sizes := by
  have hnot : chunk.missing ≠ false := by rw [hmissing]; decide
  exact ⟨hdecoded, fun h => absurd h hnot, hencoded ▸ Nat.two_pow_pos 32, fun h => absurd h hnot,
    fun _ => hencoded⟩

structure PlanSizes (plan : PreparedPlan) : Prop where
  uses_lt : plan.uses.length < 2 ^ 32
  chunk : ∀ chunk ∈ plan.chunks, chunk.Sizes

variable {mem : PlanMemory} {arrays : PrefetchHandle → CacheQuery ZarrMetadata}
  {shards : PrefetchHandle → CacheQuery (List ShardEntry)} {output : BatchSpec}
  {limits : PlanLimits} {capacity buckets : ℕ}

theorem planChunk_sizes {index : Option (List ShardEntry)} {path : Option CString}
    {per coordinate : List ℕ} {array decodedBytes : ℕ} {chunk : PlanChunk}
    (h : planChunk index path per coordinate array decodedBytes = .ok chunk)
    (hdecoded : decodedBytes < 2 ^ 32) : chunk.Sizes := by
  unfold planChunk at h
  dsimp only at h
  split at h
  · obtain rfl := Except.ok.inj h
    exact .of_missing hdecoded rfl rfl
  · split at h
    · cases h
    · rename_i entry _
      split at h
      · cases h
      · rename_i hvalid
        split at h
        · obtain rfl := Except.ok.inj h
          exact .of_missing hdecoded rfl rfl
        · obtain rfl := Except.ok.inj h
          simp only [uint64Max, uint32Max] at hvalid
          exact ⟨hdecoded, fun _ => by dsimp only; omega, by dsimp only; omega,
            fun _ => by dsimp only; omega, fun hmissing => by cases hmissing⟩

/-! ## The second pass -/

/-- The sizes of what the second pass has written. -/
structure PlanBuild.Sizes (capacity : ℕ) (build : PlanBuild) : Prop where
  uses_le : build.uses.length ≤ capacity
  chunk : ∀ chunk ∈ build.chunks, chunk.Sizes

theorem PlanBuild.Sizes.planArray {build : PlanBuild} (h : build.Sizes capacity) (uri : CString)
    (metadata : ZarrMetadata) : (planArray build uri metadata).2.Sizes capacity := by
  unfold Damacy.planArray
  dsimp only
  split
  · exact ⟨h.uses_le, h.chunk⟩
  · exact h

theorem PlanBuild.Sizes.planStore {build : PlanBuild} (h : build.Sizes capacity)
    {chunk : PlanChunk} (hchunk : chunk.Sizes) :
    (planStore build buckets chunk).2.Sizes capacity := by
  unfold Damacy.planStore
  dsimp only
  split
  · refine ⟨h.uses_le, fun c hc => ?_⟩
    rcases List.mem_append.mp hc with hc | hc
    · exact h.chunk c hc
    · exact List.mem_singleton.mp hc ▸ hchunk
  · exact h

theorem PlanBuild.Sizes.planUse {build build' : PlanBuild} (h : build.Sizes capacity)
    {chunkIndex region : ℕ} (huse : planUse build capacity chunkIndex region = .ok build') :
    build'.Sizes capacity := by
  simp only [Damacy.planUse, bind_eq_ok, failIf_eq_ok, exists_const, pure_eq_ok] at huse
  obtain ⟨hlt, huse⟩ := huse
  obtain rfl := Except.ok.inj huse
  refine ⟨by simpa using hlt, fun c hc => ?_⟩
  -- the link of the use is not a size
  obtain ⟨i, hi⟩ := List.mem_iff_getElem?.mp hc
  dsimp only at hi
  rw [List.getElem?_modify] at hi
  obtain ⟨c', hc', rfl⟩ := Option.map_eq_some_iff.mp hi
  have hsizes := h.chunk c' (List.mem_of_getElem? hc')
  split
  · exact ⟨hsizes.decoded_lt, hsizes.encoded_pos, hsizes.encoded_lt, hsizes.stop_lt,
      hsizes.missing_encoded⟩
  · exact hsizes

theorem PlanBuild.Sizes.planVisit {ctx : PlanSampleCtx} (hdecoded : ctx.decodedBytes < 2 ^ 32)
    {index : Option (List ShardEntry)} {path : Option CString} {build build' : PlanBuild}
    {coordinate : List ℕ} (h : build.Sizes capacity)
    (hvisit : planVisit capacity buckets ctx index path build coordinate = .ok build') :
    build'.Sizes capacity := by
  obtain ⟨chunk, hchunk, huse⟩ := bind_eq_ok.mp hvisit
  exact (h.planStore (planChunk_sizes hchunk hdecoded)).planUse huse

theorem PlanBuild.Sizes.planShard {ctx : PlanSampleCtx} (hdecoded : ctx.decodedBytes < 2 ^ 32)
    {build build' : PlanBuild} {shard : List ℕ × ℕ} (h : build.Sizes capacity)
    (hshard : planShard mem shards limits capacity buckets ctx build shard = .ok build') :
    build'.Sizes capacity := by
  obtain ⟨handle, index, -, -, hfold⟩ := planShard_ok hshard
  exact foldlM_ok_induction (fun _ _ b => b.Sizes capacity) h
    (fun _ _ _ _ _ _ hb hvisit => hb.planVisit hdecoded hvisit) hfold

theorem sampleGeometry_decoded_lt {dims : List QueryDim} {metadata : ZarrMetadata} {count bytes : ℕ}
    (h : sampleGeometry dims metadata output limits = .ok (count, bytes)) : bytes < 2 ^ 32 := by
  simp only [sampleGeometry, bind_eq_ok, pure_eq_ok, Except.ok.injEq, Prod.mk.injEq] at h
  obtain ⟨-, -, -, -, size, -, grid, -, -, rfl⟩ := h
  exact Nat.mod_lt _ (by decide)

theorem PlanBuild.Sizes.planSample {build build' : PlanBuild} {item : PlannerSample × ℕ}
    (h : build.Sizes capacity)
    (hsample : planSample mem arrays shards output limits capacity buckets build item =
      .ok build') : build'.Sizes capacity := by
  obtain ⟨metadata, count, bytes, per, total, grid, -, hgeo, -, -, -, hfold⟩ :=
    planSample_ok hsample
  have hstart := h.planArray item.1.query.uri metadata
  exact foldlM_ok_induction (fun _ _ b => b.Sizes capacity) ⟨hstart.uses_le, hstart.chunk⟩
    (fun _ _ _ _ _ _ hb hshard => hb.planShard (sampleGeometry_decoded_lt hgeo) hshard) hfold

theorem preparedPlanBuild_sizes {samples : List PlannerSample} {plan : PreparedPlan}
    (h : preparedPlanBuild mem arrays shards samples output limits = .ok plan) :
    PlanSizes plan := by
  simp only [preparedPlanBuild, mapError_eq_ok, preparedPlanBuildExit, bind_eq_ok, failIf_eq_ok,
    exists_const, pure_eq_ok, Except.ok.injEq] at h
  obtain ⟨-, totals, htotals, bytes, -, -, -, build, hfold, rfl⟩ := h
  have hsizes : build.Sizes totals.capacity :=
    foldlM_ok_induction (fun _ _ b => b.Sizes totals.capacity) ⟨Nat.zero_le _, nofun⟩
      (fun _ _ _ _ _ _ hb hsample => hb.planSample hsample) hfold
  exact ⟨hsizes.uses_le.trans_lt (planMeasure_capacity_lt htotals), hsizes.chunk⟩

end Damacy

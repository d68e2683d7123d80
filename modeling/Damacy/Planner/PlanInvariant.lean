import Damacy.Planner.PlanCapacity

/-!
# What a plan contains

The second pass of the builder visits the inner chunks of every sample. Each visit makes a record
of the chunk, stores it unless the hash table already refers to a chunk with the same key, and
links a use of the stored chunk to the sample's region. `PlanInv` relates what has been built to
the visits made so far; `preparedPlanBuild_spec` states what follows for a finished plan.
-/

open List Odometer ExceptFold

namespace Damacy

/-- One round of the innermost loop: the region it is for, and the record made of the chunk. -/
structure Visit where
  region : ℕ
  chunk : PlanChunk
deriving DecidableEq

def PlanChunk.key (c : PlanChunk) : ℕ × List ℕ := (c.array, c.coordinate)

/-- The record of a chunk as it was made, before uses were linked to it. -/
def PlanChunk.unlinked (c : PlanChunk) : PlanChunk := { c with firstUse := none }

/-- The uses that are reached by following `next` from a first use. -/
inductive Chain (uses : List PlanUse) : Option ℕ → List PlanUse → Prop
  | nil : Chain uses none []
  | cons {u : ℕ} {use : PlanUse} {l : List PlanUse} :
      uses[u]? = some use → Chain uses use.next l → Chain uses (some u) (use :: l)

theorem Chain.append {uses : List PlanUse} {first : Option ℕ} {l : List PlanUse}
    (h : Chain uses first l) (uses' : List PlanUse) : Chain (uses ++ uses') first l := by
  induction h with
  | nil => exact .nil
  | cons hu _ ih =>
    obtain ⟨hlt, -⟩ := List.getElem?_eq_some_iff.mp hu
    refine .cons ?_ ih
    rw [getElem?_append_left hlt]
    exact hu

/-- The invariant of the second pass, for a table of `m` buckets: records were made for the visits
`made`, and uses were linked for the visits `linked`. -/
structure PlanInv (m : ℕ) (made linked : List Visit) (build : PlanBuild) : Prop where
  uses : List.Forall₂ (fun use v => use.region = v.region ∧
    (build.chunks[use.chunk]?).map PlanChunk.key = some v.chunk.key) build.uses linked
  chunks : ∀ c ∈ build.chunks, ∃ v ∈ made, c.unlinked = v.chunk
  chunks_le : build.chunks.length ≤ made.length
  keys : (build.chunks.map PlanChunk.key).Nodup
  chains : ∀ k c, build.chunks[k]? = some c →
    Chain build.uses c.firstUse (build.uses.filter (·.chunk == k)).reverse
  table : LinearProbe.Inv m
    (build.chunks.map fun c => chunkHash c.array c.coordinate % m) build.table

theorem PlanInv.empty (m : ℕ) (arrays : List PlanArray) (regions : List PlanRegion) :
    PlanInv m [] [] ⟨arrays, regions, [], [], List.replicate m 0⟩ where
  uses := .nil
  chunks := by simp
  chunks_le := le_rfl
  keys := by simp
  chains := by simp
  table := .empty m

theorem PlanInv.with_arrays_regions {m : ℕ} {made linked : List Visit} {build : PlanBuild}
    (h : PlanInv m made linked build) (arrays : List PlanArray) (regions : List PlanRegion) :
    PlanInv m made linked { build with arrays, regions } :=
  ⟨h.uses, h.chunks, h.chunks_le, h.keys, h.chains, h.table⟩

/-! ## Storing a chunk -/

section Store

variable {m e : ℕ} {visits : List Visit} {build : PlanBuild}

theorem isChunk_iff (chunks : List PlanChunk) (chunk : PlanChunk) (i : ℕ) :
    isChunk chunks chunk.array chunk.coordinate i = true ↔
      ∃ c, chunks[i]? = some c ∧ c.key = chunk.key := by
  unfold isChunk
  cases chunks[i]? <;> simp [PlanChunk.key]

def planStoreWith (hash : ℕ → List ℕ → ℕ) (build : PlanBuild) (buckets : ℕ) (chunk : PlanChunk) :
    ℕ × PlanBuild :=
  let bucket := LinearProbe.probe (fun bucket => (bucket + 1) &&& (buckets - 1))
    (LinearProbe.stopAt build.table (isChunk build.chunks chunk.array chunk.coordinate))
    buckets (hash chunk.array chunk.coordinate &&& (buckets - 1))
  if build.table.getD bucket 0 = 0 then
    (build.chunks.length,
      { build with
        chunks := build.chunks ++ [chunk]
        table := build.table.set bucket (build.chunks.length + 1) })
  else (build.table.getD bucket 0 - 1, build)

def chunkHomes (hash : ℕ → List ℕ → ℕ) (m : ℕ) (chunks : List PlanChunk) : List ℕ :=
  chunks.map fun c => hash c.array c.coordinate % m

/-- What the search of the hash table finds, whatever the hash function: within the table's length
it comes to the stored chunk with the key, or to the place of a new one. -/
theorem planStoreWith_cases (hash : ℕ → List ℕ → ℕ) (chunk : PlanChunk) (hm : m = 2 ^ e)
    (h : LinearProbe.Inv m (chunkHomes hash m build.chunks) build.table)
    (hlt : build.chunks.length < m) :
    (∃ k < m, LinearProbe.stopAt build.table (isChunk build.chunks chunk.array chunk.coordinate)
      ((fun bucket => (bucket + 1) &&& (m - 1))^[k]
        (hash chunk.array chunk.coordinate &&& (m - 1))) = true) ∧
    ((∃ c, build.chunks[(planStoreWith hash build m chunk).1]? = some c ∧ c.key = chunk.key ∧
      (planStoreWith hash build m chunk).2 = build) ∨
    ((planStoreWith hash build m chunk).1 = build.chunks.length ∧
      chunk.key ∉ build.chunks.map PlanChunk.key ∧ ∃ table,
        (planStoreWith hash build m chunk).2 =
          { build with chunks := build.chunks ++ [chunk], table } ∧
        LinearProbe.Inv m (chunkHomes hash m (build.chunks ++ [chunk])) table)) := by
  have hpos : 0 < m := by omega
  have hmask : ∀ n, n &&& (m - 1) = n % m := by
    intro n
    rw [hm, Nat.and_two_pow_sub_one_eq_mod]
  have hlen : (chunkHomes hash m build.chunks).length = build.chunks.length := length_map _
  have hitem := isChunk_iff build.chunks chunk
  have hhome := Nat.mod_lt (hash chunk.array chunk.coordinate) hpos
  obtain ⟨k, hk, hprobe, hbefore, hfound⟩ := h.lookup (by omega) hhome
    (show ∀ b < m, (fun bucket => (bucket + 1) &&& (m - 1)) b = (b + 1) % m from fun b _ => hmask _)
    (by
      intro i g hi hmatch
      obtain ⟨c, hc, hkey⟩ := (hitem i).mp hmatch
      rw [chunkHomes, getElem?_map, hc] at hi
      obtain rfl := Option.some.inj hi
      exact congrArg (fun key => hash key.1 key.2 % m) hkey)
  have hiter : ∀ n, (fun bucket => (bucket + 1) &&& (m - 1))^[n]
      (hash chunk.array chunk.coordinate &&& (m - 1)) =
        (hash chunk.array chunk.coordinate % m + n) % m := by
    intro n
    induction n with
    | zero => rw [Function.iterate_zero_apply, hmask, Nat.add_zero, Nat.mod_mod]
    | succ n ih => rw [Function.iterate_succ_apply', ih, hmask, Nat.mod_add_mod, Nat.add_assoc]
  simp only [planStoreWith, hmask (hash _ _), hprobe] at hiter ⊢
  rcases hfound with ⟨hempty, hnone⟩ | ⟨i, hi, hcell, hmatch⟩
  · have hzero : build.table.getD ((hash chunk.array chunk.coordinate % m + k) % m) 0 = 0 := by
      rw [List.getD, hempty]
      rfl
    refine ⟨⟨k, hk, by rw [hiter, LinearProbe.stopAt, hzero]; rfl⟩, .inr ?_⟩
    simp only [hzero, if_true, true_and]
    refine ⟨?_, _, rfl, ?_⟩
    · intro hmem
      obtain ⟨c, hc, hkey⟩ := mem_map.mp hmem
      obtain ⟨i, hi, rfl⟩ := getElem_of_mem hc
      have := (hitem i).mpr ⟨_, getElem?_eq_getElem hi, hkey⟩
      rw [hnone i (by omega)] at this
      cases this
    · rw [chunkHomes, map_append, map_singleton]
      simpa [chunkHomes] using h.insert hk hbefore hempty
  · have hone : build.table.getD ((hash chunk.array chunk.coordinate % m + k) % m) 0 = i + 1 := by
      rw [List.getD, hcell]
      rfl
    obtain ⟨c, hc, hkey⟩ := (hitem i).mp hmatch
    refine ⟨⟨k, hk, ?_⟩, .inl ?_⟩
    · rw [hiter, LinearProbe.stopAt, hone, Nat.add_sub_cancel, hmatch, Bool.or_true]
    · simp only [hone, Nat.add_one_ne_zero, if_false, Nat.add_sub_cancel]
      exact ⟨c, hc, hkey, trivial⟩

theorem planStore_cases (chunk : PlanChunk) (hm : m = 2 ^ e) {made linked : List Visit}
    (h : PlanInv m made linked build) (hlt : build.chunks.length < m) :
    (∃ c, build.chunks[(planStore build m chunk).1]? = some c ∧ c.key = chunk.key ∧
      (planStore build m chunk).2 = build) ∨
    ((planStore build m chunk).1 = build.chunks.length ∧
      chunk.key ∉ build.chunks.map PlanChunk.key ∧ ∃ table,
        (planStore build m chunk).2 = { build with chunks := build.chunks ++ [chunk], table } ∧
        LinearProbe.Inv m ((build.chunks ++ [chunk]).map fun c =>
          chunkHash c.array c.coordinate % m) table) :=
  (planStoreWith_cases chunkHash chunk hm h.table hlt).2

theorem PlanInv.use_lt {made linked : List Visit} (h : PlanInv m made linked build) :
    ∀ use ∈ build.uses, use.chunk < build.chunks.length := by
  intro use huse
  obtain ⟨i, hi, rfl⟩ := getElem_of_mem huse
  have hkey := (h.uses.get hi (h.uses.length_eq ▸ hi)).2
  obtain ⟨c, hc, -⟩ := Option.map_eq_some_iff.mp hkey
  exact (List.getElem?_eq_some_iff.mp hc).1

theorem planStore_inv (hm : m = 2 ^ e) {v : Visit} (h : PlanInv m visits visits build)
    (hlt : visits.length < m) (hv : v.chunk.firstUse = none) :
    PlanInv m (visits ++ [v]) visits (planStore build m v.chunk).2 ∧
      ((planStore build m v.chunk).2.chunks[(planStore build m v.chunk).1]?).map PlanChunk.key =
        some v.chunk.key ∧
      (planStore build m v.chunk).2.arrays = build.arrays ∧
      (planStore build m v.chunk).2.regions = build.regions := by
  have hle := h.chunks_le
  have hmade : ∀ c ∈ build.chunks, ∃ w ∈ visits ++ [v], c.unlinked = w.chunk := by
    intro c hc
    obtain ⟨w, hw, heq⟩ := h.chunks c hc
    exact ⟨w, mem_append_left _ hw, heq⟩
  rcases planStore_cases v.chunk hm h (by omega) with
    ⟨c, hc, hkey, hsame⟩ | ⟨hidx, hnew, table, hstore, htable⟩
  · rw [hsame, hc]
    refine ⟨⟨h.uses, hmade, ?_, h.keys, h.chains, h.table⟩, ?_, rfl, rfl⟩
    · rw [length_append]
      omega
    · rw [Option.map_some, hkey]
  · rw [hstore, hidx]
    refine ⟨⟨?_, ?_, ?_, ?_, ?_, htable⟩, ?_, rfl, rfl⟩
    · refine h.uses.imp fun use w huse => ⟨huse.1, ?_⟩
      obtain ⟨c, hc, hkey⟩ := Option.map_eq_some_iff.mp huse.2
      obtain ⟨hlt', -⟩ := List.getElem?_eq_some_iff.mp hc
      rw [getElem?_append_left hlt', hc, Option.map_some, hkey]
    · intro c hc
      rcases mem_append.mp hc with hc | hc
      · exact hmade c hc
      · obtain rfl := mem_singleton.mp hc
        refine ⟨v, by simp, ?_⟩
        rw [PlanChunk.unlinked, ← hv]
    · simp only [length_append, length_singleton]
      omega
    · rw [map_append, map_singleton]
      simpa using h.keys.concat hnew
    · intro k c hc
      rcases Nat.lt_or_ge k build.chunks.length with hk | hk
      · exact h.chains k c (by rwa [getElem?_append_left hk] at hc)
      · -- the new chunk has no uses yet
        obtain ⟨hk', rfl⟩ := List.getElem?_eq_some_iff.mp hc
        simp only [length_append, length_singleton] at hk'
        obtain rfl : k = build.chunks.length := by omega
        have hnone : build.uses.filter (·.chunk == build.chunks.length) = [] := by
          rw [filter_eq_nil_iff]
          intro use huse
          have := h.use_lt use huse
          simp
          omega
        rw [hnone]
        simpa [hv] using Chain.nil
    · simp

end Store

/-! ## Linking a use -/

theorem map_modify_firstUse {γ : Type} (chunks : List PlanChunk) (k u : ℕ) (f : PlanChunk → γ)
    (hf : ∀ c o, f { c with firstUse := o } = f c) :
    (chunks.modify k fun c => { c with firstUse := u }).map f = chunks.map f := by
  apply ext_getElem?
  intro i
  rw [getElem?_map, getElem?_map, getElem?_modify]
  cases chunks[i]? with
  | none => rfl
  | some c =>
    split_ifs
    · exact congrArg some (hf c _)
    · rfl

theorem planUse_inv {m capacity k : ℕ} {made visits : List Visit} {v : Visit}
    {build build' : PlanBuild} (h : PlanInv m made visits build)
    (hk : (build.chunks[k]?).map PlanChunk.key = some v.chunk.key)
    (huse : planUse build capacity k v.region = .ok build') :
    PlanInv m made (visits ++ [v]) build' ∧ visits.length < capacity ∧
      build'.arrays = build.arrays ∧ build'.regions = build.regions := by
  simp only [planUse, bind_eq_ok, failIf_eq_ok, exists_const, pure_eq_ok, Except.ok.injEq,
    Nat.not_le] at huse
  obtain ⟨hcap, rfl⟩ := huse
  obtain ⟨c, hc, hkey⟩ := Option.map_eq_some_iff.mp hk
  -- marking the first use changes no key and no home bucket
  have hmod : ∀ i, (build.chunks.modify k fun c => { c with firstUse := build.uses.length })[i]? =
      (build.chunks[i]?).map fun c =>
        if k = i then { c with firstUse := build.uses.length } else c := by
    intro i
    rw [getElem?_modify]
    split_ifs <;> simp
  have hmap : ∀ {γ : Type} (f : PlanChunk → γ) (hf : ∀ c o, f { c with firstUse := o } = f c),
      (build.chunks.modify k fun c => { c with firstUse := build.uses.length }).map f =
        build.chunks.map f :=
    fun f hf => map_modify_firstUse _ _ _ f hf
  have hkeys : ∀ i : ℕ,
      ((build.chunks.modify k fun c => { c with firstUse := build.uses.length })[i]?).map
        PlanChunk.key = (build.chunks[i]?).map PlanChunk.key := by
    intro i
    rw [← getElem?_map, hmap PlanChunk.key (fun _ _ => rfl), getElem?_map]
  refine ⟨⟨?_, ?_, ?_, ?_, ?_, ?_⟩, by rw [← h.uses.length_eq]; omega, rfl, rfl⟩
  · refine rel_append ?_ (.cons ⟨rfl, ?_⟩ .nil)
    · refine h.uses.imp fun use w huse => ⟨huse.1, ?_⟩
      rw [hkeys]
      exact huse.2
    · rw [hkeys]
      exact hk
  · intro c' hc'
    obtain ⟨i, hi⟩ := getElem?_of_mem hc'
    rw [hmod, Option.map_eq_some_iff] at hi
    obtain ⟨c₀, hc₀, rfl⟩ := hi
    obtain ⟨w, hw, heq⟩ := h.chunks c₀ (mem_of_getElem? hc₀)
    refine ⟨w, hw, ?_⟩
    rw [← heq]
    split_ifs <;> rfl
  · rw [length_modify]
    exact h.chunks_le
  · rw [hmap PlanChunk.key (fun _ _ => rfl)]
    exact h.keys
  · intro i c' hc'
    rw [hmod, Option.map_eq_some_iff] at hc'
    obtain ⟨c₀, hc₀, rfl⟩ := hc'
    have hchain := (h.chains i c₀ hc₀).append [⟨k, v.region, (build.chunks[k]?).bind (·.firstUse)⟩]
    by_cases hki : k = i
    · -- the new use is the first one, and the one that was first comes after it
      subst hki
      obtain rfl : c = c₀ := Option.some.inj (hc.symm.trans hc₀)
      simp only [if_true, filter_append, reverse_append]
      rw [filter_cons_of_pos (by simp)]
      refine .cons (u := build.uses.length) (by simp) ?_
      simpa [hc] using hchain
    · simp only [hki, if_false, filter_append]
      rw [filter_cons_of_neg (by simpa using hki)]
      simpa using hchain
  · rw [hmap (fun c => chunkHash c.array c.coordinate % m) (fun _ _ => rfl)]
    exact h.table

/-! ## One inner chunk -/

theorem planChunk_ok {index : Option (List ShardEntry)} {path : Option CString}
    {per coordinate : List ℕ} {array decodedBytes : ℕ} {chunk : PlanChunk}
    (h : planChunk index path per coordinate array decodedBytes = .ok chunk) :
    chunk.coordinate = coordinate ∧ chunk.array = array ∧ chunk.path = path ∧
      chunk.decodedBytes = decodedBytes ∧ chunk.firstUse = none := by
  unfold planChunk at h
  dsimp only at h
  split at h
  · obtain rfl := Except.ok.inj h
    exact ⟨rfl, rfl, rfl, rfl, rfl⟩
  · split at h
    · cases h
    · split at h
      · cases h
      · split at h
        · obtain rfl := Except.ok.inj h
          exact ⟨rfl, rfl, rfl, rfl, rfl⟩
        · obtain rfl := Except.ok.inj h
          exact ⟨rfl, rfl, rfl, rfl, rfl⟩

/-- The state of the second pass between two visits. -/
structure PlanState (capacity m : ℕ) (visits : List Visit) (arrays : List PlanArray)
    (regions : List PlanRegion) (build : PlanBuild) : Prop where
  inv : PlanInv m visits visits build
  le : visits.length ≤ capacity
  arrays_eq : build.arrays = arrays
  regions_eq : build.regions = regions

section Passes

variable {mem : PlanMemory} {arrays : PrefetchHandle → CacheQuery ZarrMetadata}
  {shards : PrefetchHandle → CacheQuery (List ShardEntry)} {output : BatchSpec}
  {limits : PlanLimits} {capacity m e : ℕ} {visits : List Visit} {planArrays : List PlanArray}
  {regions : List PlanRegion} {build build' : PlanBuild} {ctx : PlanSampleCtx}

theorem planVisit_state (hm : m = 2 ^ e) (hcap : capacity < m) {index : Option (List ShardEntry)}
    {path : Option CString} {coordinate : List ℕ}
    (h : PlanState capacity m visits planArrays regions build)
    (hv : planVisit capacity m ctx index path build coordinate = .ok build') :
    ∃ chunk, planChunk index path ctx.per coordinate ctx.array ctx.decodedBytes = .ok chunk ∧
      PlanState capacity m (visits ++ [⟨ctx.region, chunk⟩]) planArrays regions build' := by
  simp only [planVisit, bind_eq_ok] at hv
  obtain ⟨chunk, hchunk, huse⟩ := hv
  have hle := h.le
  obtain ⟨hinv, hkey, harrays, hregions⟩ := planStore_inv hm (v := ⟨ctx.region, chunk⟩) h.inv
    (by omega) (planChunk_ok hchunk).2.2.2.2
  obtain ⟨hinv', hlt, harrays', hregions'⟩ := planUse_inv (v := ⟨ctx.region, chunk⟩) hinv hkey huse
  refine ⟨chunk, hchunk, hinv', ?_, ?_, ?_⟩
  · rw [length_append, length_singleton]
    omega
  · rw [harrays', harrays, h.arrays_eq]
  · rw [hregions', hregions, h.regions_eq]

/-! ## One shard -/

/-- The visits of one shard of a sample: one for each inner chunk of the clipped grid. -/
structure ShardVisits (shards : PrefetchHandle → CacheQuery (List ShardEntry)) (limits : PlanLimits)
    (ctx : PlanSampleCtx) (shard : List ℕ × ℕ) (vs : List Visit) : Prop where
  coords : vs.map (·.chunk.coordinate) =
    shardChunkCoords ctx.sample.query.dims ctx.metadata limits ctx.per shard.1
  region : ∀ v ∈ vs, v.region = ctx.region
  records : ∃ handle index, ctx.sample.hShards[shard.2]? = some handle ∧
    shardIndexOf (shards handle) = .ok index ∧ ∀ v ∈ vs,
      planChunk index (index.map fun _ => zarrShardPathBuild ctx.sample.query.uri shard.1) ctx.per
        v.chunk.coordinate ctx.array ctx.decodedBytes = .ok v.chunk

theorem planShard_state (hm : m = 2 ^ e) (hcap : capacity < m) {shard : List ℕ × ℕ}
    (h : PlanState capacity m visits planArrays regions build)
    (hs : planShard mem shards limits capacity m ctx build shard = .ok build') :
    ∃ vs, ShardVisits shards limits ctx shard vs ∧
      PlanState capacity m (visits ++ vs) planArrays regions build' := by
  obtain ⟨handle, index, hhandle, hindex, hfold⟩ := planShard_ok hs
  obtain ⟨vs, hcoords, hregion, hrecords, hstate⟩ := foldlM_ok_induction
    (fun done _ b => ∃ vs : List Visit, vs.map (·.chunk.coordinate) = done ∧
      (∀ v ∈ vs, v.region = ctx.region) ∧
      (∀ v ∈ vs, planChunk index
        (index.map fun _ => zarrShardPathBuild ctx.sample.query.uri shard.1) ctx.per
        v.chunk.coordinate ctx.array ctx.decodedBytes = .ok v.chunk) ∧
      PlanState capacity m (visits ++ vs) planArrays regions b)
    ⟨[], rfl, by simp, by simp, by simpa using h⟩ (by
      rintro done coordinate rest b b' - ⟨vs, rfl, hregion, hrecords, hb⟩ hv
      obtain ⟨chunk, hchunk, hb'⟩ := planVisit_state hm hcap hb hv
      have hcoord := (planChunk_ok hchunk).1
      refine ⟨vs ++ [⟨ctx.region, chunk⟩], by simp [hcoord], ?_, ?_, by simpa using hb'⟩
      · rw [forall_mem_append]
        exact ⟨hregion, by simp⟩
      · rw [forall_mem_append]
        refine ⟨hrecords, ?_⟩
        simpa [hcoord] using hchunk) hfold
  exact ⟨vs, ⟨hcoords, hregion, handle, index, hhandle, hindex, hrecords⟩, hstate⟩

/-! ## One sample -/

def SampleVisits (shards : PrefetchHandle → CacheQuery (List ShardEntry)) (limits : PlanLimits)
    (ctx : PlanSampleCtx) (coords : List (List ℕ)) (vs : List Visit) : Prop :=
  ∃ vss, List.Forall₂ (ShardVisits shards limits ctx) coords.zipIdx vss ∧ vs = vss.flatten

/-- What the plan holds for a sample that has been walked: its region, its array, and its
visits. -/
structure SampleWalk (arrays : PrefetchHandle → CacheQuery ZarrMetadata)
    (shards : PrefetchHandle → CacheQuery (List ShardEntry)) (output : BatchSpec)
    (limits : PlanLimits) (planArrays : List PlanArray) (regions : List PlanRegion)
    (item : PlannerSample × ℕ) (ctx : PlanSampleCtx) (vs : List Visit) : Prop where
  sample : ctx.sample = item.1
  region : ctx.region = item.2
  metadata : arrayMetadata arrays item.1.hMeta = .ok ctx.metadata
  geometry : ∃ count,
    sampleGeometry item.1.query.dims ctx.metadata output limits = .ok (count, ctx.decodedBytes)
  per : ∃ total, zarrMetadataInnerPerShard ctx.metadata = some (ctx.per, total)
  planRegion : regions[item.2]? = some (planRegion item.1 item.2 ctx.array)
  planArray : ∃ metadata, planArrays[ctx.array]? = some ⟨item.1.query.uri, metadata⟩
  visits : ∃ grid, selectionGridInit (shardGridDims item.1.query.dims ctx.metadata.dims)
    limits.maxShardsPerSample = .ok grid ∧
      SampleVisits shards limits ctx (selectionGridCoords grid) vs

theorem SampleWalk.append {item : PlannerSample × ℕ} {vs : List Visit}
    (h : SampleWalk arrays shards output limits planArrays regions item ctx vs)
    (planArrays' : List PlanArray) (regions' : List PlanRegion) :
    SampleWalk arrays shards output limits (planArrays ++ planArrays') (regions ++ regions') item
      ctx vs := by
  obtain ⟨metadata, hmetadata⟩ := h.planArray
  obtain ⟨hlt, -⟩ := List.getElem?_eq_some_iff.mp hmetadata
  obtain ⟨hlt', -⟩ := List.getElem?_eq_some_iff.mp h.planRegion
  refine ⟨h.sample, h.region, h.metadata, h.geometry, h.per, ?_, ⟨metadata, ?_⟩, h.visits⟩
  · rw [getElem?_append_left hlt']
    exact h.planRegion
  · rw [getElem?_append_left hlt]
    exact hmetadata

theorem planArray_spec (build : PlanBuild) (uri : CString) (metadata : ZarrMetadata) :
    ∃ added, (planArray build uri metadata).2 = { build with arrays := build.arrays ++ added } ∧
      (∀ a ∈ added, a = ⟨uri, metadata⟩) ∧
      ((build.arrays.map PlanArray.uri).Nodup →
        ((build.arrays ++ added).map PlanArray.uri).Nodup) ∧
      ∃ found, (build.arrays ++ added)[(planArray build uri metadata).1]? =
        some ⟨uri, found⟩ := by
  by_cases hnew : build.arrays.findIdx (·.uri == uri) = build.arrays.length
  · refine ⟨[⟨uri, metadata⟩], ?_, by simp, fun hnodup => ?_, metadata, ?_⟩
    · simp only [planArray, hnew, if_true]
    · rw [map_append, map_singleton, ← concat_eq_append]
      refine hnodup.concat fun hmem => ?_
      obtain ⟨a, ha, huri⟩ := mem_map.mp hmem
      have := findIdx_lt_length_of_exists (p := (·.uri == uri)) ⟨a, ha, by simpa using huri⟩
      omega
    · simp only [planArray, hnew, if_true]
      simp
  · have hlt : build.arrays.findIdx (·.uri == uri) < build.arrays.length :=
      Nat.lt_of_le_of_ne findIdx_le_length hnew
    obtain ⟨a, ha, huri⟩ : ∃ a, build.arrays[build.arrays.findIdx (·.uri == uri)]? = some a ∧
        a.uri = uri :=
      ⟨_, getElem?_eq_getElem hlt, by simpa using findIdx_getElem (w := hlt)⟩
    refine ⟨[], ?_, by simp, by simp, a.metadata, ?_⟩
    · simp only [planArray, hnew, if_false, append_nil]
    · subst huri
      simp only [planArray, hnew, if_false, append_nil, ha]

theorem planSample_state (hm : m = 2 ^ e) (hcap : capacity < m) {item : PlannerSample × ℕ}
    (h : PlanState capacity m visits planArrays regions build) (hitem : item.2 = regions.length)
    (hs : planSample mem arrays shards output limits capacity m build item = .ok build') :
    ∃ ctx vs added region,
      SampleWalk arrays shards output limits (planArrays ++ added) (regions ++ [region]) item ctx
        vs ∧
      PlanState capacity m (visits ++ vs) (planArrays ++ added) (regions ++ [region]) build' ∧
      ((planArrays.map PlanArray.uri).Nodup →
        ((planArrays ++ added).map PlanArray.uri).Nodup) ∧
      ∀ a ∈ added, a.uri = item.1.query.uri ∧
        arrayMetadata arrays item.1.hMeta = .ok a.metadata := by
  obtain ⟨metadata, count, bytes, per, total, grid, hmeta, hgeo, hper, hgrid, -, hfold⟩ :=
    planSample_ok hs
  obtain ⟨added, harray, hadded, huris, found, hfound⟩ :=
    planArray_spec build item.1.query.uri metadata
  rw [h.arrays_eq] at harray huris hfound
  rw [harray, h.regions_eq] at hfold
  obtain ⟨vss, hvss, hstate⟩ := foldlM_ok_induction
    (fun done _ b => ∃ vss : List (List Visit),
      List.Forall₂ (ShardVisits shards limits _) done vss ∧
      PlanState capacity m (visits ++ vss.flatten) (planArrays ++ added) _ b)
    ⟨[], .nil, by
      simpa using ⟨h.inv.with_arrays_regions _ _, h.le, rfl, rfl⟩⟩ (by
      rintro done shard rest b b' - ⟨vss, hvss, hb⟩ hshard
      obtain ⟨vs, hvs, hb'⟩ := planShard_state hm hcap hb hshard
      refine ⟨vss ++ [vs], rel_append hvss (.cons hvs .nil), ?_⟩
      simpa [append_assoc] using hb') hfold
  refine ⟨_, vss.flatten, added, _, ⟨rfl, rfl, hmeta, ⟨count, hgeo⟩, ⟨total, hper⟩, ?_,
    ⟨found, hfound⟩, grid, hgrid, vss, hvss, rfl⟩, hstate, huris, ?_⟩
  · rw [hitem]
    simp
  · intro a ha
    rw [hadded a ha]
    exact ⟨rfl, hmeta⟩

/-! ## The whole batch -/

theorem growBuckets_spec (capacity fuel e : ℕ) (h : 2 * capacity ≤ 2 ^ (e + fuel)) :
    ∃ e', growBuckets capacity fuel (2 ^ e) = 2 ^ e' ∧
      2 * capacity ≤ growBuckets capacity fuel (2 ^ e) := by
  induction fuel generalizing e with
  | zero => exact ⟨e, rfl, h⟩
  | succ fuel ih =>
    rw [growBuckets]
    split
    · rw [← Nat.pow_succ]
      apply ih
      rwa [Nat.succ_add, ← Nat.add_succ]
    · exact ⟨e, rfl, by omega⟩

theorem tableBuckets_spec {capacity : ℕ} (h : capacity < 2 ^ 32) :
    ∃ e, tableBuckets capacity = 2 ^ e ∧ capacity < tableBuckets capacity := by
  obtain ⟨e, he, hle⟩ := growBuckets_spec capacity 34 0 (by omega)
  refine ⟨e, he, ?_⟩
  have hpos : 0 < tableBuckets capacity := by
    rw [tableBuckets, ← Nat.pow_zero 2, he]
    exact Nat.two_pow_pos e
  rw [Nat.pow_zero] at hle
  change 2 * capacity ≤ tableBuckets capacity at hle
  omega

/-- What a plan holds for a batch of samples: for every sample its walk, and for all visits
together the stored chunks and the linked uses. -/
structure PlanSpec (arrays : PrefetchHandle → CacheQuery ZarrMetadata)
    (shards : PrefetchHandle → CacheQuery (List ShardEntry)) (samples : List PlannerSample)
    (output : BatchSpec) (limits : PlanLimits) (plan : PreparedPlan)
    (walks : List (PlanSampleCtx × List Visit)) : Prop where
  output_eq : plan.output = output
  ne_nil : samples ≠ []
  sampleWalks : List.Forall₂ (fun item walk =>
    SampleWalk arrays shards output limits plan.arrays plan.regions item walk.1 walk.2)
    samples.zipIdx walks
  inv : ∃ m table, PlanInv m (walks.flatMap Prod.snd) (walks.flatMap Prod.snd)
    ⟨plan.arrays, plan.regions, plan.chunks, plan.uses, table⟩
  arrays : ∀ a ∈ plan.arrays, ∃ s ∈ samples, a.uri = s.query.uri ∧
    arrayMetadata arrays s.hMeta = .ok a.metadata
  regions_length : plan.regions.length = samples.length
  uris : (plan.arrays.map PlanArray.uri).Nodup

theorem planMeasure_capacity_lt {samples : List PlannerSample} {totals : PlanTotals}
    (h : samples.foldlM (planMeasure arrays output limits) ⟨0, 0, 0⟩ = .ok totals) :
    totals.capacity < 2 ^ 32 := by
  have hlimit := limits.maxChunks_lt
  have hle : totals.capacity ≤ limits.maxChunks :=
    foldlM_ok_induction (fun _ _ t => t.capacity ≤ limits.maxChunks) (Nat.zero_le _)
      (fun _ _ _ _ _ _ _ hstep => (planMeasure_capacity hstep).2) h
  omega

/-- **What the builder leaves behind.** -/
theorem preparedPlanBuild_spec {samples : List PlannerSample} {plan : PreparedPlan}
    (h : preparedPlanBuild mem arrays shards samples output limits = .ok plan) :
    ∃ walks, PlanSpec arrays shards samples output limits plan walks := by
  simp only [preparedPlanBuild, mapError_eq_ok, preparedPlanBuildExit, bind_eq_ok, failIf_eq_ok,
    exists_const, pure_eq_ok, Except.ok.injEq] at h
  obtain ⟨hargs, totals, htotals, bytes, -, -, -, build, hbuild, rfl⟩ := h
  obtain ⟨e, he, hcap⟩ := tableBuckets_spec (planMeasure_capacity_lt htotals)
  obtain ⟨walks, hwalks, hstate, hregions, huris, harrays⟩ := foldlM_ok_induction
    (fun done _ b => ∃ walks : List (PlanSampleCtx × List Visit),
      List.Forall₂ (fun item walk =>
        SampleWalk arrays shards output limits b.arrays b.regions item walk.1 walk.2) done walks ∧
      PlanState totals.capacity (tableBuckets totals.capacity) (walks.flatMap Prod.snd) b.arrays
        b.regions b ∧
      b.regions.length = done.length ∧ (b.arrays.map PlanArray.uri).Nodup ∧
      ∀ a ∈ b.arrays, ∃ s ∈ samples, a.uri = s.query.uri ∧
        arrayMetadata arrays s.hMeta = .ok a.metadata)
    ⟨[], .nil, ⟨PlanInv.empty _ _ _, Nat.zero_le _, rfl, rfl⟩, rfl, by simp, by simp⟩ (by
      rintro done item rest b b' hsplit ⟨walks, hwalks, hb, hlen, huris, harrays⟩ hsample
      -- the index of a sample is the number of samples before it
      have hitem : item.2 = b.regions.length := by
        have hget : samples.zipIdx[done.length]? = some item := by
          rw [hsplit]
          simp
        rw [getElem?_zipIdx, Option.map_eq_some_iff] at hget
        obtain ⟨s, -, rfl⟩ := hget
        simp [hlen]
      obtain ⟨ctx, vs, added, region, hwalk, hb', huris', hadded⟩ :=
        planSample_state he hcap hb hitem hsample
      refine ⟨walks ++ [(ctx, vs)], ?_, ?_, ?_, ?_, ?_⟩
      · rw [hb'.arrays_eq, hb'.regions_eq]
        exact rel_append (hwalks.imp fun _ _ hw => hw.append _ _) (.cons hwalk .nil)
      · rw [flatMap_append, flatMap_singleton, hb'.arrays_eq, hb'.regions_eq]
        exact hb'
      · rw [hb'.regions_eq, length_append, length_append, hlen]
        rfl
      · rw [hb'.arrays_eq]
        exact huris' huris
      · rw [hb'.arrays_eq, forall_mem_append]
        refine ⟨harrays, fun a ha => ⟨item.1, ?_, hadded a ha⟩⟩
        exact fst_mem_of_mem_zipIdx (by rw [hsplit]; simp)) hbuild
  rw [length_zipIdx] at hregions
  exact ⟨walks, rfl, fun hnil => hargs (.inl hnil), hwalks, ⟨_, build.table, hstate.inv⟩, harrays,
    hregions, huris⟩

theorem preparedPlanBuild_region_sample {samples : List PlannerSample} {plan : PreparedPlan}
    (h : preparedPlanBuild mem arrays shards samples output limits = .ok plan) (i : ℕ)
    (region : PlanRegion) (hi : plan.regions[i]? = some region) : region.sample = i := by
  obtain ⟨walks, hspec⟩ := preparedPlanBuild_spec h
  have hlt : i < samples.length := hspec.regions_length ▸ (List.getElem?_eq_some_iff.mp hi).1
  have hlen := hspec.sampleWalks.length_eq
  rw [length_zipIdx] at hlen
  have hwalk := hspec.sampleWalks.get (i := i) (by simpa using hlt) (by omega)
  have hregion := hwalk.planRegion
  simp only [get_eq_getElem, getElem_zipIdx, Nat.zero_add] at hregion
  rw [hregion] at hi
  obtain rfl := Option.some.inj hi
  rfl

end Passes

end Damacy

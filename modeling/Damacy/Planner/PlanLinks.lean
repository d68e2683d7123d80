import Damacy.Executor.PlanUses

/-!
# Chunks, regions and the uses between them

A plan that was built keeps one record for every chunk and one use for every pair of a region and a
chunk that the region's selection touches. Both executors rely on this: they decode a chunk once and
then follow the list of its uses. The hash table behind the deduplication is searched without a
bound on the number of rounds; `planLinks_probe` shows that the search ends whatever the hash
function is.
-/

open List Odometer ExceptFold

namespace Damacy

/-! ## Chunks that a selection touches -/

/-- A selection touches the chunk at a coordinate: it selects an element of it. -/
def Touches (dims : List QueryDim) (metadata : ZarrMetadata) (coordinate : List ℕ) : Prop :=
  ∃ x, List.Forall₂ QueryDim.Selects dims x ∧ metadata.chunkOf x = coordinate

theorem mem_cartesian_chunkCells {rows : List PlanRow} (hrows : ∀ r ∈ rows, r.Wf) {c : List ℕ} :
    c ∈ cartesian (rows.map PlanRow.chunkCells) ↔
      ∃ x, List.Forall₂ QueryDim.Selects (rows.map Prod.fst) x ∧
        List.zipWith (fun d i => i / d.innerChunkShape) (rows.map Prod.snd) x = c := by
  rw [mem_cartesian, List.forall₂_map_right_iff]
  induction rows generalizing c with
  | nil =>
    constructor
    · intro h
      cases h
      exact ⟨[], .nil, rfl⟩
    · rintro ⟨x, -, rfl⟩
      exact .nil
  | cons r rows ih =>
    rw [forall_mem_cons] at hrows
    constructor
    · intro h
      cases h with
      | cons hk htail =>
        obtain ⟨i, hi, rfl⟩ := (PlanRow.mem_chunkCells hrows.1).mp hk
        obtain ⟨x, hx, rfl⟩ := (ih hrows.2).mp htail
        exact ⟨i :: x, .cons hi hx, rfl⟩
    · rintro ⟨x, hx, rfl⟩
      cases hx with
      | cons hi htail =>
        exact .cons ((PlanRow.mem_chunkCells hrows.1).mpr ⟨_, hi, rfl⟩)
          ((ih hrows.2).mpr ⟨_, htail, rfl⟩)

section Links

variable {mem : PlanMemory} {arrays : PrefetchHandle → CacheQuery ZarrMetadata}
  {shards : PrefetchHandle → CacheQuery (List ShardEntry)} {samples : List PlannerSample}
  {output : BatchSpec} {limits : PlanLimits} {plan : PreparedPlan}
  {walks : List (PlanSampleCtx × List Visit)}

theorem WalkSpec.coords {sample : PlannerSample} {ctx : PlanSampleCtx} {vs : List Visit}
    {rows : List PlanRow} (h : WalkSpec shards limits sample ctx vs rows) :
    (vs.map (·.chunk.coordinate)).Nodup ∧ ∀ coordinate,
      coordinate ∈ vs.map (·.chunk.coordinate) ↔
        Touches sample.query.dims ctx.metadata coordinate := by
  constructor
  · refine h.perm.nodup_iff.mpr (nodup_cartesian ?_)
    rw [forall_mem_map]
    exact fun r _ => r.chunkDim.pairwise_cells.imp Nat.ne_of_lt
  · intro coordinate
    rw [h.perm.mem_iff, mem_cartesian_chunkCells h.rows_wf, Touches, h.dims]
    simp only [ZarrMetadata.chunkOf, h.metadata]

/-! ## Visits -/

def Visit.link (v : Visit) : ℕ × List ℕ := (v.region, v.chunk.coordinate)

theorem PlanSpec.walk (h : PlanSpec arrays shards samples output limits plan walks) {r : ℕ}
    {walk : PlanSampleCtx × List Visit} (hr : walks[r]? = some walk) :
    ∃ sample, samples[r]? = some sample ∧
      SampleWalk arrays shards output limits plan.arrays plan.regions (sample, r) walk.1 walk.2 := by
  obtain ⟨hlt, rfl⟩ := List.getElem?_eq_some_iff.mp hr
  have hlen := h.sampleWalks.length_eq
  rw [length_zipIdx] at hlen
  have hlt' : r < samples.length := by omega
  refine ⟨samples[r], getElem?_eq_getElem hlt', ?_⟩
  have := h.sampleWalks.get (i := r) (by simpa using hlt') hlt
  simpa using this

theorem PlanSpec.walks_length (h : PlanSpec arrays shards samples output limits plan walks) :
    walks.length = plan.regions.length := by
  have hlen := h.sampleWalks.length_eq
  rw [length_zipIdx] at hlen
  rw [← hlen, h.regions_length]

theorem PlanSpec.mem_walk_links (h : PlanSpec arrays shards samples output limits plan walks)
    (hstored : ∀ s ∈ samples, s.Stored) {r : ℕ} {walk : PlanSampleCtx × List Visit}
    (hr : walks[r]? = some walk) {sample : PlannerSample} (hsample : samples[r]? = some sample) :
    (walk.2.map Visit.link).Nodup ∧ ∀ link, link ∈ walk.2.map Visit.link ↔
      link.1 = r ∧ Touches sample.query.dims walk.1.metadata link.2 := by
  obtain ⟨sample', hsample', hwalk⟩ := h.walk hr
  obtain rfl : sample' = sample := Option.some.inj (hsample'.symm.trans hsample)
  obtain ⟨rows, hspec⟩ := hwalk.spec (hstored _ (mem_of_getElem? hsample))
  obtain ⟨hnodup, hmem⟩ := hspec.coords
  have hlink : walk.2.map Visit.link =
      (walk.2.map (·.chunk.coordinate)).map fun coordinate => (r, coordinate) := by
    rw [map_map]
    refine map_congr_left fun v hv => ?_
    rw [Visit.link, hspec.region v hv, hwalk.region]
    rfl
  rw [hlink]
  refine ⟨hnodup.map fun _ _ heq => (Prod.mk.inj heq).2, fun link => ?_⟩
  rw [mem_map, ← hmem]
  constructor
  · rintro ⟨coordinate, hc, rfl⟩
    exact ⟨rfl, hc⟩
  · rintro ⟨rfl, hc⟩
    exact ⟨link.2, hc, rfl⟩

theorem PlanSpec.nodup_links (h : PlanSpec arrays shards samples output limits plan walks)
    (hstored : ∀ s ∈ samples, s.Stored) :
    ((walks.flatMap Prod.snd).map Visit.link).Nodup := by
  rw [map_flatMap, nodup_flatMap]
  constructor
  · intro walk hwalk
    obtain ⟨r, hr⟩ := getElem?_of_mem hwalk
    obtain ⟨sample, hsample, -⟩ := h.walk hr
    exact (h.mem_walk_links hstored hr hsample).1
  · rw [pairwise_iff_getElem]
    intro i j hi hj hij link hlink hlink'
    obtain ⟨s, hs, -⟩ := h.walk (getElem?_eq_getElem hi)
    obtain ⟨s', hs', -⟩ := h.walk (getElem?_eq_getElem hj)
    have h1 := (((h.mem_walk_links hstored (getElem?_eq_getElem hi) hs).2 link).mp hlink).1
    have h2 := (((h.mem_walk_links hstored (getElem?_eq_getElem hj) hs').2 link).mp hlink').1
    omega

theorem PlanSpec.mem_links (h : PlanSpec arrays shards samples output limits plan walks)
    (hstored : ∀ s ∈ samples, s.Stored) {r : ℕ} {walk : PlanSampleCtx × List Visit}
    (hr : walks[r]? = some walk) {sample : PlannerSample} (hsample : samples[r]? = some sample)
    (coordinate : List ℕ) :
    (r, coordinate) ∈ (walks.flatMap Prod.snd).map Visit.link ↔
      Touches sample.query.dims walk.1.metadata coordinate := by
  rw [map_flatMap, mem_flatMap]
  constructor
  · rintro ⟨walk', hwalk', hlink⟩
    obtain ⟨r', hr'⟩ := getElem?_of_mem hwalk'
    obtain ⟨sample', hsample', -⟩ := h.walk hr'
    obtain ⟨rfl, htouch⟩ := ((h.mem_walk_links hstored hr' hsample').2 _).mp hlink
    obtain rfl : walk = walk' := Option.some.inj (hr.symm.trans hr')
    obtain rfl : sample = sample' := Option.some.inj (hsample.symm.trans hsample')
    exact htouch
  · intro htouch
    exact ⟨walk, mem_of_getElem? hr,
      ((h.mem_walk_links hstored hr hsample).2 _).mpr ⟨rfl, htouch⟩⟩

/-! ## Uses -/

/-- Use `u` of a plan links region `r` to the chunk at a coordinate of the region's array. -/
def PreparedPlan.Links (plan : PreparedPlan) (u r : ℕ) (coordinate : List ℕ) : Prop :=
  ∃ use region chunk, plan.uses[u]? = some use ∧ use.region = r ∧ plan.regions[r]? = some region ∧
    plan.chunks[use.chunk]? = some chunk ∧ chunk.array = region.array ∧
    chunk.coordinate = coordinate

theorem PlanSpec.visit_array (h : PlanSpec arrays shards samples output limits plan walks)
    {v : Visit} (hv : v ∈ walks.flatMap Prod.snd) :
    ∃ region, plan.regions[v.region]? = some region ∧ v.chunk.array = region.array ∧
      v.chunk.array < plan.arrays.length := by
  obtain ⟨walk, hwalk, hv⟩ := mem_flatMap.mp hv
  obtain ⟨r, hr⟩ := getElem?_of_mem hwalk
  obtain ⟨sample, -, hw⟩ := h.walk hr
  obtain ⟨grid, -, vss, hvss, hflat⟩ := hw.visits
  rw [hflat] at hv
  obtain ⟨vs, hvs, hv⟩ := mem_flatten.mp hv
  obtain ⟨j, hj, rfl⟩ := getElem_of_mem hvs
  have hshard := hvss.get (hvss.length_eq ▸ hj) hj
  obtain ⟨handle, index, -, -, hrecords⟩ := hshard.records
  have hregion : v.region = r := (hshard.region v hv).trans hw.region
  have harray : v.chunk.array = walk.1.array := (planChunk_ok (hrecords v hv)).2.1
  obtain ⟨metadata, hmeta⟩ := hw.planArray
  rw [hregion, harray]
  exact ⟨_, hw.planRegion, rfl, (List.getElem?_eq_some_iff.mp hmeta).1⟩

theorem PlanSpec.links_iff (h : PlanSpec arrays shards samples output limits plan walks) (u r : ℕ)
    (coordinate : List ℕ) :
    plan.Links u r coordinate ↔
      ((walks.flatMap Prod.snd).map Visit.link)[u]? = some (r, coordinate) := by
  obtain ⟨m, table, hinv⟩ := h.inv
  have huses := hinv.uses
  rw [getElem?_map]
  constructor
  · rintro ⟨use, region, chunk, huse, rfl, -, hchunk, -, rfl⟩
    obtain ⟨hlt, rfl⟩ := List.getElem?_eq_some_iff.mp huse
    have hlt' : u < (walks.flatMap Prod.snd).length := huses.length_eq ▸ hlt
    obtain ⟨hregion, hkey⟩ := huses.get hlt hlt'
    simp only [get_eq_getElem] at hregion hkey
    rw [getElem?_eq_getElem hlt', Option.map_some, Visit.link, hregion]
    rw [hchunk, Option.map_some, Option.some.injEq] at hkey
    exact congrArg (fun key => some (_, Prod.snd key)) hkey.symm
  · intro hlink
    obtain ⟨v, hv, heq⟩ := Option.map_eq_some_iff.mp hlink
    obtain ⟨rfl, rfl⟩ := Prod.mk.inj heq
    obtain ⟨hlt', rfl⟩ := List.getElem?_eq_some_iff.mp hv
    have hlt : u < plan.uses.length := huses.length_eq ▸ hlt'
    obtain ⟨hregion, hkey⟩ := huses.get hlt hlt'
    simp only [get_eq_getElem] at hregion hkey
    obtain ⟨chunk, hchunk, hkey⟩ := Option.map_eq_some_iff.mp hkey
    obtain ⟨region, hr, harray, -⟩ := h.visit_array (getElem_mem hlt')
    exact ⟨plan.uses[u], region, chunk, getElem?_eq_getElem hlt, hregion, hr, hchunk,
      (congrArg Prod.fst hkey).trans harray, congrArg Prod.snd hkey⟩

theorem PlanSpec.use_links (h : PlanSpec arrays shards samples output limits plan walks) {u : ℕ}
    {use : PlanUse} (hu : plan.uses[u]? = some use) :
    ∃ coordinate, plan.Links u use.region coordinate := by
  obtain ⟨m, table, hinv⟩ := h.inv
  obtain ⟨hlt, rfl⟩ := List.getElem?_eq_some_iff.mp hu
  have hlt' : u < (walks.flatMap Prod.snd).length := hinv.uses.length_eq ▸ hlt
  obtain ⟨hregion, -⟩ := hinv.uses.get hlt hlt'
  simp only [get_eq_getElem] at hregion
  refine ⟨(walks.flatMap Prod.snd)[u].chunk.coordinate, (h.links_iff _ _ _).mpr ?_⟩
  rw [getElem?_map, getElem?_eq_getElem hlt', hregion]
  rfl

theorem PlanSpec.chunk_unique (h : PlanSpec arrays shards samples output limits plan walks)
    {i j : ℕ} {c c' : PlanChunk} (hi : plan.chunks[i]? = some c) (hj : plan.chunks[j]? = some c')
    (huri : (plan.arrays[c.array]?).map PlanArray.uri = (plan.arrays[c'.array]?).map PlanArray.uri)
    (hcoord : c.coordinate = c'.coordinate) : i = j := by
  obtain ⟨m, table, hinv⟩ := h.inv
  have hci : c.array < (plan.arrays.map PlanArray.uri).length := by
    obtain ⟨v, hv, heq⟩ := hinv.chunks c (mem_of_getElem? hi)
    obtain ⟨region, -, -, hlt⟩ := h.visit_array hv
    rw [length_map]
    have harray : c.array = v.chunk.array := by rw [← heq, PlanChunk.unlinked]
    omega
  rw [← getElem?_map, ← getElem?_map] at huri
  have harray : c.array = c'.array := (getElem?_inj hci h.uris).mp huri
  have hkey : c.key = c'.key := Prod.ext harray hcoord
  have hlt : i < (plan.chunks.map PlanChunk.key).length := by
    rw [length_map]
    exact (List.getElem?_eq_some_iff.mp hi).1
  refine (getElem?_inj hlt hinv.keys).mp ?_
  rw [getElem?_map, getElem?_map, hi, hj, Option.map_some, Option.map_some, hkey]

/-! ## The search for a chunk -/

def planLinkWith (hash : ℕ → List ℕ → ℕ) (capacity buckets : ℕ) (build : PlanBuild) (v : Visit) :
    Except PlanExit PlanBuild :=
  let (chunkIndex, build) := planStoreWith hash build buckets v.chunk
  planUse build capacity chunkIndex v.region

/-- What the rounds keep for the search: the table refers to the chunks, each chunk has a use, and
there are at most `capacity` uses. -/
structure LinkInv (hash : ℕ → List ℕ → ℕ) (capacity m : ℕ) (build : PlanBuild) : Prop where
  table : LinearProbe.Inv m (chunkHomes hash m build.chunks) build.table
  chunks_le : build.chunks.length ≤ build.uses.length
  uses_le : build.uses.length ≤ capacity

theorem planLinkWith_inv {hash : ℕ → List ℕ → ℕ} {capacity m e : ℕ} {build build' : PlanBuild}
    {v : Visit} (hm : m = 2 ^ e) (hcap : capacity < m) (h : LinkInv hash capacity m build)
    (hv : planLinkWith hash capacity m build v = .ok build') : LinkInv hash capacity m build' := by
  have hle := h.chunks_le
  have hle' := h.uses_le
  simp only [planLinkWith, planUse, bind_eq_ok, failIf_eq_ok, exists_const, pure_eq_ok,
    Except.ok.injEq, Nat.not_le] at hv
  obtain ⟨hlt, rfl⟩ := hv
  rcases (planStoreWith_cases hash v.chunk hm h.table (by omega)).2 with
    ⟨c, -, -, hsame⟩ | ⟨-, -, table, hstore, htable⟩
  · rw [hsame] at hlt ⊢
    refine ⟨?_, ?_, ?_⟩
    · rw [chunkHomes, map_modify_firstUse _ _ _ _ (fun _ _ => rfl)]
      exact h.table
    · simp only [length_modify, length_append, length_singleton]
      omega
    · simp only [length_append, length_singleton]
      omega
  · rw [hstore] at hlt ⊢
    refine ⟨?_, ?_, ?_⟩
    · rw [chunkHomes, map_modify_firstUse _ _ _ _ (fun _ _ => rfl)]
      exact htable
    · simp only [length_modify, length_append, length_singleton]
      omega
    · simp only [length_append, length_singleton]
      exact hlt

/-- Whatever the hash function and whatever has been stored and linked, the search for the next
chunk stops within as many rounds as the table has buckets. -/
theorem planLinks_probe (hash : ℕ → List ℕ → ℕ) {capacity : ℕ} (hcap : capacity < 2 ^ 32)
    (planArrays : List PlanArray) (regions : List PlanRegion) {visits : List Visit}
    {build : PlanBuild}
    (h : visits.foldlM (planLinkWith hash capacity (tableBuckets capacity))
      ⟨planArrays, regions, [], [], List.replicate (tableBuckets capacity) 0⟩ = .ok build)
    (next : PlanChunk) :
    ∃ k < tableBuckets capacity,
      LinearProbe.stopAt build.table (isChunk build.chunks next.array next.coordinate)
        ((fun bucket => (bucket + 1) &&& (tableBuckets capacity - 1))^[k]
          (hash next.array next.coordinate &&& (tableBuckets capacity - 1))) = true := by
  obtain ⟨e, he, hlt⟩ := tableBuckets_spec hcap
  have hinv : LinkInv hash capacity (tableBuckets capacity) build :=
    foldlM_ok_induction (fun _ _ b => LinkInv hash capacity (tableBuckets capacity) b)
      ⟨.empty _, le_rfl, Nat.zero_le _⟩
      (fun _ _ _ _ _ _ hb hv => planLinkWith_inv he hlt hb hv) h
  have hle := hinv.chunks_le
  have hle' := hinv.uses_le
  exact (planStoreWith_cases hash next he hinv.table (by omega)).1

/-- **The links of a plan.** Of every plan that `prepared_plan_build` returns: no two chunks have
the same array uri and coordinate; following `next` from the first use of a chunk passes through
exactly the uses that name the chunk, the newest first, and ends; every region is linked to every
chunk that its selection touches by exactly one use, and every use is such a link. The search of the
hash table ends for every hash function and every sequence of chunks. -/
theorem preparedPlanBuild_links (hstored : ∀ s ∈ samples, s.Stored)
    (h : preparedPlanBuild mem arrays shards samples output limits = .ok plan) :
    (∀ (i j : ℕ) (c c' : PlanChunk), plan.chunks[i]? = some c → plan.chunks[j]? = some c' →
      (plan.arrays[c.array]?).map PlanArray.uri = (plan.arrays[c'.array]?).map PlanArray.uri →
      c.coordinate = c'.coordinate → i = j) ∧
    (∀ (k : ℕ) (c : PlanChunk), plan.chunks[k]? = some c →
      Chain plan.uses c.firstUse (plan.uses.filter (·.chunk == k)).reverse) ∧
    (∀ (r : ℕ) (region : PlanRegion), plan.regions[r]? = some region →
      ∃ sample metadata, samples[r]? = some sample ∧ region.dims = sample.query.dims ∧
        (plan.arrays[region.array]?).map PlanArray.uri = some sample.query.uri ∧
        arrayMetadata arrays sample.hMeta = .ok metadata ∧
        (∀ coordinate, Touches region.dims metadata coordinate → ∃! u, plan.Links u r coordinate) ∧
        ∀ u coordinate, plan.Links u r coordinate → Touches region.dims metadata coordinate) ∧
    (∀ (u : ℕ) (use : PlanUse), plan.uses[u]? = some use →
      ∃ coordinate, plan.Links u use.region coordinate) ∧
    ∀ (hash : ℕ → List ℕ → ℕ) (capacity : ℕ), capacity < 2 ^ 32 →
      ∀ (visits : List Visit) (build : PlanBuild),
        visits.foldlM (planLinkWith hash capacity (tableBuckets capacity))
          ⟨[], [], [], [], List.replicate (tableBuckets capacity) 0⟩ = .ok build →
        ∀ next : PlanChunk, ∃ k < tableBuckets capacity,
          LinearProbe.stopAt build.table (isChunk build.chunks next.array next.coordinate)
            ((fun bucket => (bucket + 1) &&& (tableBuckets capacity - 1))^[k]
              (hash next.array next.coordinate &&& (tableBuckets capacity - 1))) = true := by
  obtain ⟨walks, hspec⟩ := preparedPlanBuild_spec h
  refine ⟨fun i j c c' hi hj => hspec.chunk_unique hi hj, ?_, fun r region hr => ?_,
    fun u use hu => hspec.use_links hu,
    fun hash capacity hcap visits build hrun => planLinks_probe hash hcap [] [] hrun⟩
  · obtain ⟨m, table, hinv⟩ := hspec.inv
    exact hinv.chains
  · have hlt : r < walks.length := by
      rw [hspec.walks_length]
      exact (List.getElem?_eq_some_iff.mp hr).1
    have hwalk := getElem?_eq_getElem hlt
    obtain ⟨sample, hsample, hw⟩ := hspec.walk hwalk
    obtain rfl := Option.some.inj (hr.symm.trans hw.planRegion)
    obtain ⟨found, hfound⟩ := hw.planArray
    have hlinks := hspec.mem_links hstored hwalk hsample
    refine ⟨sample, _, hsample, rfl, congrArg (Option.map PlanArray.uri) hfound, hw.metadata,
      fun coordinate htouch => ?_, fun u coordinate hlink => ?_⟩
    · obtain ⟨u, hu⟩ := getElem?_of_mem ((hlinks coordinate).mpr htouch)
      refine ⟨u, (hspec.links_iff _ _ _).mpr hu, fun u' hu' => ?_⟩
      have hu'' := (hspec.links_iff _ _ _).mp hu'
      exact (getElem?_inj (List.getElem?_eq_some_iff.mp hu'').1
        (hspec.nodup_links hstored)).mp (hu''.trans hu.symm)
    · exact (hlinks coordinate).mp (mem_of_getElem? ((hspec.links_iff _ _ _).mp hlink))

end Links

/-- The plan of two samples that select the same two chunks of an array without shards. -/
def sharedPlan : PreparedPlan where
  output := exampleOutput
  arrays := [⟨[0x61], exampleMetadata⟩]
  chunks := [⟨none, 0, [0], 0, 0, 2, some 2, true⟩, ⟨none, 0, [2], 0, 0, 2, some 3, true⟩]
  regions := [⟨.gather, 0, 0, exampleQuery.dims⟩, ⟨.gather, 0, 1, exampleQuery.dims⟩]
  uses := [⟨0, 0, none⟩, ⟨1, 0, none⟩, ⟨0, 1, some 0⟩, ⟨1, 1, some 1⟩]
  allocatedBytes := 5396

/-- The plan stores the chunks once, and region `1` has one use of the chunk at `[2]`. -/
theorem preparedPlanBuild_links_shared :
    let samples : List PlannerSample :=
      [⟨exampleQuery, ⟨0, 1⟩, [⟨0, 1⟩, ⟨1, 1⟩]⟩, ⟨exampleQuery, ⟨0, 1⟩, [⟨0, 1⟩, ⟨1, 1⟩]⟩]
    preparedPlanBuild ⟨true, true, fun _ _ => true⟩ (fun _ => .ready exampleMetadata)
      (fun _ => .error .notfound) samples exampleOutput exampleLimits = .ok sharedPlan ∧
      ∃! u, sharedPlan.Links u 1 [2] := by
  intro samples
  have hbuild : preparedPlanBuild ⟨true, true, fun _ _ => true⟩ (fun _ => .ready exampleMetadata)
      (fun _ => .error .notfound) samples exampleOutput exampleLimits = .ok sharedPlan := by
    decide +kernel
  have hstored : ∀ s ∈ samples, s.Stored := by
    intro s hs
    obtain rfl : s = ⟨exampleQuery, ⟨0, 1⟩, [⟨0, 1⟩, ⟨1, 1⟩]⟩ := by simpa [samples] using hs
    exact ⟨true, exampleSample, by decide⟩
  obtain ⟨-, -, hregions, -⟩ := preparedPlanBuild_links hstored hbuild
  obtain ⟨sample, metadata, -, -, -, hmeta, htouch, -⟩ :=
    hregions 1 ⟨.gather, 0, 1, exampleQuery.dims⟩ rfl
  refine ⟨hbuild, htouch [2] ⟨[5], .cons ⟨⟨5, 0⟩, by decide, rfl⟩ .nil, ?_⟩⟩
  obtain rfl : exampleMetadata = metadata := Except.ok.inj hmeta
  rfl

end Damacy

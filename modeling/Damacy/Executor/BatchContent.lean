import Mathlib.Order.Lattice.Nat
import Damacy.Executor.PlanUses
import Damacy.Lib.WriteLog

/-!
# The content of an assembled batch

`ArrayStore` is the ground truth: what the arrays hold, how their shards are indexed, and what
decoding a chunk yields. If the caches agree with it and every chunk of a plan is assembled once
from its decoded elements, then every element of the batch is the converted source element that the
caller's selection asks for, or the converted fill value where the array has no chunk.
-/

open List Odometer ExceptFold RowMajor

namespace Damacy

/-! ## Ground truth -/

namespace ZarrMetadata

def entryOf (metadata : ZarrMetadata) (c : List ℕ) : ℕ :=
  ravel (metadata.dims.map ZarrDim.per) (List.zipWith (fun d k => k % d.per) metadata.dims c)

def offsetOf (metadata : ZarrMetadata) (x : List ℕ) : ℕ :=
  ravel (metadata.dims.map (·.innerChunkShape))
    (List.zipWith (fun d i => i % d.innerChunkShape) metadata.dims x)

def Contains (metadata : ZarrMetadata) (x : List ℕ) : Prop :=
  List.Forall₂ (fun i d => i < d.shape) x metadata.dims

end ZarrMetadata

def emptyEntry : ShardEntry := ⟨zarrShardEmpty, zarrShardEmpty⟩

/-- The arrays as they are in the store: their metadata, the index of every shard (`none` for a
shard that does not exist), and the elements. `decode` is what reading and decoding the bytes at a
place of a shard yields; for a stored chunk these are the elements of the array. -/
structure ArrayStore where
  metadata : CString → ZarrMetadata
  index : CString → List ℕ → Option (List ShardEntry)
  value : CString → List ℕ → ℕ
  decode : (path : CString) → (offset nbytes : ℕ) → ℕ → ℕ
  value_lt : ∀ uri x, value uri x < 2 ^ (8 * dtypeBpe (metadata uri).dtype)
  decode_eq : ∀ uri x entries entry, (metadata uri).Contains x →
    index uri ((metadata uri).shardOf ((metadata uri).chunkOf x)) = some entries →
    entries[(metadata uri).entryOf ((metadata uri).chunkOf x)]? = some entry →
    entry ≠ emptyEntry →
    decode (zarrShardPathBuild uri ((metadata uri).shardOf ((metadata uri).chunkOf x)))
      entry.offset entry.nbytes ((metadata uri).offsetOf x) = value uri x

/-- The element of an array at a source coordinate: the fill value if its shard or its chunk is
absent. -/
def ArrayStore.element (store : ArrayStore) (uri : CString) (x : List ℕ) : ℕ :=
  let metadata := store.metadata uri
  let c := metadata.chunkOf x
  match store.index uri (metadata.shardOf c) with
  | none => metadata.fillValue
  | some entries =>
    if entries[metadata.entryOf c]? = some emptyEntry then metadata.fillValue else store.value uri x

/-- The metadata caches answer the handles of the samples with the arrays' own metadata and shard
indexes; the handles of a sample's shards are in the order of its shard grid. -/
structure ArrayStore.Cached (store : ArrayStore)
    (arrays : PrefetchHandle → CacheQuery ZarrMetadata)
    (shards : PrefetchHandle → CacheQuery (List ShardEntry)) (limits : PlanLimits)
    (samples : List PlannerSample) : Prop where
  metadata : ∀ s ∈ samples, ∀ m, arrays s.hMeta = .ready (some m) → m = store.metadata s.query.uri
  index : ∀ s ∈ samples, ∀ grid,
    selectionGridInit (shardGridDims s.query.dims (store.metadata s.query.uri).dims)
      limits.maxShardsPerSample = .ok grid →
    ∀ (j : ℕ) (sc : List ℕ) (handle : PrefetchHandle), (selectionGridCoords grid)[j]? = some sc →
      s.hShards[j]? = some handle →
      (∀ entries, shards handle = .ready (some entries) →
        store.index s.query.uri sc = some entries) ∧
      (shards handle = .error .notfound → store.index s.query.uri sc = none)

/-! ## The records of a plan -/

def IndexRecord (index : Option (List ShardEntry)) (n : ℕ) (path : CString) (chunk : PlanChunk) :
    Prop :=
  match index with
  | none => chunk.missing = true
  | some entries => ∃ entry, entries[n]? = some entry ∧
    ((entry = emptyEntry ∧ chunk.missing = true) ∨
      (entry ≠ emptyEntry ∧ chunk.missing = false ∧ chunk.path = some path ∧
        chunk.offset = entry.offset ∧ chunk.encodedBytes = entry.nbytes))

theorem planChunk_record {index : Option (List ShardEntry)} {path : CString}
    {per coordinate : List ℕ} {array decodedBytes : ℕ} {chunk : PlanChunk}
    (h : planChunk index (index.map fun _ => path) per coordinate array decodedBytes = .ok chunk) :
    IndexRecord index (entryIndexLoop 0 per coordinate) path chunk := by
  unfold planChunk at h
  dsimp only at h
  split at h
  · obtain rfl := Except.ok.inj h
    rfl
  · split at h
    · cases h
    · rename_i entries entry hentry
      refine ⟨entry, hentry, ?_⟩
      split at h
      · cases h
      · rename_i hvalid
        split at h
        · rename_i hsize
          obtain rfl := Except.ok.inj h
          left
          refine ⟨?_, rfl⟩
          have hoffset : entry.offset = zarrShardEmpty := by tauto
          cases entry
          simp_all [emptyEntry]
        · rename_i hsize
          obtain rfl := Except.ok.inj h
          right
          refine ⟨fun heq => hsize ?_, rfl, rfl, rfl, rfl⟩
          rw [heq]
          rfl

theorem arrayMetadata_eq_ok {arrays : PrefetchHandle → CacheQuery ZarrMetadata}
    {h : PrefetchHandle} {m : ZarrMetadata} (hm : arrayMetadata arrays h = .ok m) :
    arrays h = .ready (some m) := by
  unfold arrayMetadata at hm
  split at hm
  · cases hm
  · cases hm
  · cases hm
  · rename_i heq
    rw [heq, Except.ok.inj hm]

theorem shardIndexOf_eq_ok {q : CacheQuery (List ShardEntry)} {index : Option (List ShardEntry)}
    (h : shardIndexOf q = .ok index) :
    (∃ entries, q = .ready (some entries) ∧ index = some entries) ∨
      (q = .error .notfound ∧ index = none) := by
  unfold shardIndexOf at h
  split at h
  · rename_i entries
    exact .inl ⟨entries, rfl, (Except.ok.inj h).symm⟩
  · cases h
  · cases h
  · exact .inr ⟨rfl, (Except.ok.inj h).symm⟩
  · cases h

section Records

variable {arrays : PrefetchHandle → CacheQuery ZarrMetadata}
  {shards : PrefetchHandle → CacheQuery (List ShardEntry)} {raws : List Sample}
  {samples : List PlannerSample} {output : BatchSpec} {limits : PlanLimits} {plan : PreparedPlan}
  {layout : BatchLayout} {i : ℕ} {raw : Sample} {sample : PlannerSample} {ctx : PlanSampleCtx}
  {vs : List Visit} {rows : List PlanRow} {store : ArrayStore}

theorem SampleSpec.mem_samples
    (hs : SampleSpec arrays shards raws samples output limits plan i raw sample ctx vs rows) :
    sample ∈ samples :=
  mem_of_getElem? hs.sample_eq

theorem SampleSpec.metadata_eq
    (hs : SampleSpec arrays shards raws samples output limits plan i raw sample ctx vs rows)
    (hstore : store.Cached arrays shards limits samples) :
    ctx.metadata = store.metadata sample.query.uri :=
  hstore.metadata sample hs.mem_samples _ (arrayMetadata_eq_ok hs.metadata)

theorem SampleSpec.entryIndex_eq
    (hs : SampleSpec arrays shards raws samples output limits plan i raw sample ctx vs rows)
    {c : List ℕ} (hlen : c.length = rows.length) :
    entryIndexLoop 0 ctx.per c = ctx.metadata.entryOf c := by
  have hpos : ∀ p ∈ ctx.per, 0 < p := by
    intro p hp
    rw [hs.walk.per] at hp
    obtain ⟨r, hr, rfl⟩ := mem_map.mp hp
    exact (hs.walk.rows_wf r hr).per_pos
  have hbound := hs.per_le
  simp only [uint64Max] at hbound
  rw [entryIndexLoop_eq hpos (by simpa [hs.walk.per] using hlen) (by omega),
    ZarrMetadata.entryOf, hs.walk.per, hs.walk.metadata, map_map, zipWith_map_left,
    zipWith_map_right, zipWith_comm]
  rfl

theorem SampleSpec.visit_record
    (hs : SampleSpec arrays shards raws samples output limits plan i raw sample ctx vs rows)
    (hstore : store.Cached arrays shards limits samples) {v : Visit} (hv : v ∈ vs) :
    IndexRecord (store.index sample.query.uri (ctx.metadata.shardOf v.chunk.coordinate))
      (ctx.metadata.entryOf v.chunk.coordinate)
      (zarrShardPathBuild sample.query.uri (ctx.metadata.shardOf v.chunk.coordinate)) v.chunk := by
  obtain ⟨grid, hgrid⟩ := hs.shardGrid
  obtain ⟨j, handle, index, hcoord, hhandle, hindex, hchunk⟩ := hs.walk.records grid hgrid v hv
  have hlen : v.chunk.coordinate.length = rows.length := by
    simpa using (mem_cartesian.mp (hs.visit_spec hv).2.2).length_eq
  have hrecord := planChunk_record hchunk
  rw [hs.entryIndex_eq hlen] at hrecord
  rw [hs.metadata_eq hstore] at hgrid
  obtain ⟨hready, hnotfound⟩ := hstore.index sample hs.mem_samples grid hgrid j _ handle hcoord hhandle
  rcases shardIndexOf_eq_ok hindex with ⟨entries, hq, rfl⟩ | ⟨hq, rfl⟩
  · rw [hready entries hq]
    exact hrecord
  · rw [hnotfound hq]
    exact hrecord

theorem BatchPlan.chunk_record
    (h : BatchPlan arrays shards raws samples output limits plan layout)
    (hstore : store.Cached arrays shards limits samples) {use : PlanUse} {chunk : PlanChunk}
    (hu : UseSpec arrays shards raws samples output limits plan i raw sample ctx vs rows use chunk) :
    IndexRecord (store.index sample.query.uri (ctx.metadata.shardOf chunk.coordinate))
      (ctx.metadata.entryOf chunk.coordinate)
      (zarrShardPathBuild sample.query.uri (ctx.metadata.shardOf chunk.coordinate)) chunk := by
  obtain ⟨walks, hspec⟩ := h.exists_spec
  obtain ⟨m, table, hinv⟩ := hspec.inv
  obtain ⟨v, hv, hunlinked⟩ := hinv.chunks chunk (mem_of_getElem? hu.chunk_eq)
  obtain ⟨i', walk, hi', hv⟩ := exists_walk_of_mem hv
  obtain ⟨raw', sample', rows', hs'⟩ := h.sample_spec hspec hi'
  have hrecord := hs'.visit_record hstore hv
  have harray : walk.1.array = ctx.array := by
    rw [← (hs'.visit_spec hv).2.1, ← hunlinked, ← hu.array_eq]
    rfl
  -- one array, so one uri and one metadata
  have hsame := hs'.array
  rw [harray, hu.spec.array, Option.some.injEq, PlanArray.mk.injEq] at hsame
  rw [← hsame.1, ← hsame.2, ← hunlinked] at hrecord
  exact hrecord

end Records

/-! ## Picks and source coordinates -/

theorem PlanRow.mem_axis_picks {r : PlanRow} (h : r.Wf) {k : ℕ} {p : ℕ × ℕ} :
    p ∈ (r.axis k).picks ↔ r.1.Picks p.1 p.2 ∧ p.2 / r.2.innerChunkShape = k :=
  mem_spanPicks h.dim h.inner_pos

theorem QueryDim.Picks.selects {dim : QueryDim} {o x : ℕ} (h : dim.Picks o x) : dim.Selects x := by
  unfold QueryDim.Picks at h
  unfold QueryDim.Selects
  split at h
  · rename_i hix
    rw [if_pos hix]
    omega
  · rename_i hix
    rw [if_neg hix]
    exact ⟨_, h, rfl⟩

/-- What a combination of picks inside a chunk says of its source coordinate. -/
structure PickSpec (axes : List AxisSelection) (ds : List ZarrDim) (chunkAxes : List ChunkAxis)
    (c : List ℕ) (ps : List (ℕ × ℕ)) : Prop where
  chunk : List.zipWith (fun d i => i / d.innerChunkShape) ds (ps.map Prod.snd) = c
  offset : List.zipWith (fun a p => p.2 - a.origin) chunkAxes ps =
    List.zipWith (fun d i => i % d.innerChunkShape) ds (ps.map Prod.snd)
  inside : List.Forall₂ (fun i d => i < d.shape) (ps.map Prod.snd) ds
  index : ps.map Prod.snd = List.zipWith AxisSelection.index axes (ps.map Prod.fst)
  output_lt : List.Forall₂ (· < ·) (ps.map Prod.fst) (axes.map AxisSelection.extent)

theorem pickSpec_of_mem {axes : List AxisSelection} {rows : List PlanRow} {c : List ℕ}
    {ps : List (ℕ × ℕ)} (hwf : ∀ r ∈ rows, r.Wf)
    (hstores : List.Forall₂ (fun a r => Stores a r.1 ∧ r.1.hi ≤ r.2.shape) axes rows)
    (hc : c.length = rows.length)
    (hps : ps ∈ cartesian ((List.zipWith PlanRow.axis rows c).map ChunkAxis.picks)) :
    PickSpec axes (rows.map Prod.snd) (List.zipWith PlanRow.axis rows c) c ps := by
  rw [mem_cartesian, List.forall₂_map_right_iff] at hps
  induction hstores generalizing c ps with
  | nil =>
    obtain rfl := length_eq_zero_iff.mp hc
    cases hps
    exact ⟨rfl, rfl, .nil, rfl, .nil⟩
  | @cons a r axes rows har _ ih =>
    obtain ⟨k, c, rfl⟩ := exists_cons_of_length_eq_add_one hc
    rw [forall_mem_cons] at hwf
    obtain _ | ⟨hp, hps⟩ := hps
    rename_i p ps
    obtain ⟨h1, h2, h3, h4, h5⟩ := ih hwf.2 (by simpa using hc) hps
    obtain ⟨hpick, rfl⟩ := (PlanRow.mem_axis_picks hwf.1).mp hp
    obtain ⟨hlt, hindex⟩ := (har.1.picks p.1 p.2).mp hpick
    have hhi := (har.1.wf.lo_le_of_selects hpick.selects).2
    refine ⟨?_, ?_, .cons (Nat.lt_of_lt_of_le hhi har.2) h3, ?_, .cons hlt h5⟩
    · rw [map_cons, map_cons, zipWith_cons_cons, h1]
    · rw [zipWith_cons_cons, zipWith_cons_cons, h2, map_cons, map_cons,
        zipWith_cons_cons]
      congr 1
      simp only [PlanRow.axis]
      have := Nat.div_add_mod' p.2 r.2.innerChunkShape
      omega
    · rw [map_cons, map_cons, zipWith_cons_cons, ← h4, hindex]

theorem exists_picks {axes : List AxisSelection} {rows : List PlanRow} (hwf : ∀ r ∈ rows, r.Wf)
    (hstores : List.Forall₂ (fun a r => Stores a r.1 ∧ r.1.hi ≤ r.2.shape) axes rows) {o : List ℕ}
    (ho : List.Forall₂ (· < ·) o (axes.map AxisSelection.extent)) :
    ∃ c ∈ cartesian (rows.map PlanRow.chunkCells),
      ∃ ps ∈ cartesian ((List.zipWith PlanRow.axis rows c).map ChunkAxis.picks),
        ps.map Prod.fst = o := by
  simp only [mem_cartesian]
  induction hstores generalizing o with
  | nil =>
    cases ho
    exact ⟨[], .nil, [], .nil, rfl⟩
  | @cons a r axes rows har _ ih =>
    rw [forall_mem_cons] at hwf
    obtain _ | ⟨hlt, ho⟩ := ho
    rename_i n o
    obtain ⟨c, hc, ps, hps, rfl⟩ := ih hwf.2 ho
    have hpick : r.1.Picks n (a.index n) := (har.1.picks n _).mpr ⟨hlt, rfl⟩
    refine ⟨a.index n / r.2.innerChunkShape :: c, .cons ?_ hc, (n, a.index n) :: ps, .cons ?_ hps,
      rfl⟩
    · exact (PlanRow.mem_chunkCells hwf.1).mpr ⟨_, hpick.selects, rfl⟩
    · exact (PlanRow.mem_axis_picks hwf.1).mpr ⟨hpick, rfl⟩

/-! ## Writes of a chunk -/

theorem copyRow_eq_apply (element : ℕ → ℕ) (buf : OutBuffer) (row : Row) :
    copyRow element buf row = WriteLog.apply buf (row.writes.map fun w => (w.1, element w.2)) := by
  funext off
  unfold copyRow
  split
  · rename_i hoff
    refine (WriteLog.apply_eq_some ?_ ?_).symm
    · intro w hw hw1
      simp only [Row.writes, map_map, mem_map] at hw
      obtain ⟨j, -, rfl⟩ := hw
      simp only [Function.comp_apply] at hw1 ⊢
      congr 1
      omega
    · refine ⟨(off, element (row.source + (off - row.destination))), ?_, rfl⟩
      simp only [Row.writes, map_map, mem_map, mem_range]
      refine ⟨off - row.destination, by omega, ?_⟩
      simp only [Function.comp_apply, Prod.mk.injEq, and_true]
      omega
  · rename_i hoff
    refine (WriteLog.apply_of_forall_ne ?_).symm
    intro w hw hw1
    simp only [Row.writes, map_map, mem_map, mem_range] at hw
    obtain ⟨j, hj, rfl⟩ := hw
    simp only [Function.comp_apply] at hw1
    omega

/-- The element writes of `assemble_chunk` on chunk `k`. -/
def chunkWrites (ops : FloatOps) (plan : PreparedPlan) (strides : List ℕ) (decoded : ℕ → ℕ)
    (k : ℕ) : List (ℕ × ℕ) :=
  match plan.chunks[k]? with
  | none => []
  | some chunk =>
    match plan.arrays[chunk.array]? with
    | none => []
    | some array =>
      ((useChain plan.uses plan.uses.length chunk.firstUse).flatMap fun use =>
        (useRows plan strides array.metadata chunk use).flatMap Row.writes).map fun w =>
          (w.1, rowElement ops plan.output.dtype array.metadata chunk.missing decoded w.2)

theorem assembleChunk_eq_apply (ops : FloatOps) (plan : PreparedPlan) (strides : List ℕ)
    (decoded : ℕ → ℕ) (buf : OutBuffer) (k : ℕ) :
    assembleChunk ops plan strides decoded buf k =
      WriteLog.apply buf (chunkWrites ops plan strides decoded k) := by
  unfold assembleChunk chunkWrites
  cases plan.chunks[k]? with
  | none => rfl
  | some chunk =>
    dsimp only
    cases plan.arrays[chunk.array]? with
    | none => rfl
    | some array =>
      have hrow : copyRow (rowElement ops plan.output.dtype array.metadata chunk.missing decoded) =
          fun buf row => WriteLog.apply buf (row.writes.map fun w =>
            (w.1, rowElement ops plan.output.dtype array.metadata chunk.missing decoded w.2)) := by
        funext buf row
        exact copyRow_eq_apply _ buf row
      dsimp only
      rw [hrow, WriteLog.foldl_apply, flatMap_assoc, map_flatMap]
      congr 1
      apply flatMap_congr
      intro use _
      rw [map_flatMap]

/-! ## The assembled batch -/

def BatchLayout.offset (layout : BatchLayout) (s : ℕ) (o : List ℕ) : ℕ :=
  s * layout.strides.headD 0 + dot o layout.strides.tail

def DecodedChunks (store : ArrayStore) (plan : PreparedPlan) (decoded : ℕ → ℕ → ℕ) : Prop :=
  ∀ (k : ℕ) (chunk : PlanChunk) (array : PlanArray) (path : CString),
    plan.chunks[k]? = some chunk → plan.arrays[chunk.array]? = some array →
    chunk.missing = false → chunk.path = some path →
    ∀ n < (array.metadata.dims.map (·.innerChunkShape)).prod,
      decoded k n = store.decode path chunk.offset chunk.encodedBytes n

section Assembled

variable {arrays : PrefetchHandle → CacheQuery ZarrMetadata}
  {shards : PrefetchHandle → CacheQuery (List ShardEntry)} {raws : List Sample}
  {samples : List PlannerSample} {output : BatchSpec} {limits : PlanLimits} {plan : PreparedPlan}
  {layout : BatchLayout} {i : ℕ} {raw : Sample} {sample : PlannerSample} {ctx : PlanSampleCtx}
  {vs : List Visit} {rows : List PlanRow} {store : ArrayStore} {ops : FloatOps}
  {decoded : ℕ → ℕ → ℕ}

theorem SampleSpec.stores_rows
    (hs : SampleSpec arrays shards raws samples output limits plan i raw sample ctx vs rows) :
    List.Forall₂ (fun a r => Stores a r.1 ∧ r.1.hi ≤ r.2.shape) raw.axes rows := by
  obtain ⟨count, hgeo⟩ := hs.geometry
  have hstores := hs.stores
  have hfits := hgeo.fits
  rw [hs.walk.dims, List.forall₂_map_right_iff] at hstores
  rw [hs.walk.dims, hs.walk.metadata, List.forall₂_map_left_iff, List.forall₂_map_right_iff,
    List.forall₂_same] at hfits
  generalize raw.axes = axes at hstores
  clear hs hgeo
  induction hstores with
  | nil => exact .nil
  | cons h _ ih =>
    rw [forall_mem_cons] at hfits
    refine .cons ⟨h, ?_⟩ (ih hfits.2)
    rw [← h.wf.u64OfInt_stop]
    exact hfits.1.inside

theorem BatchPlan.offset_eq
    (h : BatchPlan arrays shards raws samples output limits plan layout)
    (hs : SampleSpec arrays shards raws samples output limits plan i raw sample ctx vs rows)
    {o : List ℕ} (ho : o.length = output.shape.length) :
    layout.offset i o = ravelFrom i output.shape o := by
  obtain ⟨-, hstrides, -⟩ := h.layout_spec hs
  simp only [BatchLayout.offset, hstrides, batchStrides, headD_cons, tail_cons]
  rw [dot_strides ho, ravelFrom_eq i ho]

theorem BatchPlan.rowElement_eq
    (h : BatchPlan arrays shards raws samples output limits plan layout)
    (hstore : store.Cached arrays shards limits samples) (hdec : DecodedChunks store plan decoded)
    {use : PlanUse} {chunk : PlanChunk}
    (hu : UseSpec arrays shards raws samples output limits plan i raw sample ctx vs rows use chunk)
    {ps : List (ℕ × ℕ)} (hps : ps ∈ cartesian
      ((List.zipWith PlanRow.axis rows chunk.coordinate).map ChunkAxis.picks)) :
    rowElement ops output.dtype ctx.metadata chunk.missing (decoded use.chunk)
        (chunkOffset (List.zipWith PlanRow.axis rows chunk.coordinate) ps) =
      dtypeConvert ops output.dtype (store.metadata sample.query.uri).dtype
        (store.element sample.query.uri
          (List.zipWith AxisSelection.index raw.axes (ps.map Prod.fst))) := by
  have hs := hu.spec
  have hlen : chunk.coordinate.length = rows.length := by
    simpa using (mem_cartesian.mp hu.coordinate).length_eq
  have hpick := pickSpec_of_mem hs.walk.rows_wf hs.stores_rows hlen hps
  have hmeta := hs.metadata_eq hstore
  have hrecord := h.chunk_record hstore hu
  -- the chunk and the offset of the source coordinate
  have hchunk : ctx.metadata.chunkOf (ps.map Prod.snd) = chunk.coordinate := by
    rw [ZarrMetadata.chunkOf, hs.walk.metadata]
    exact hpick.chunk
  have hoffset : chunkOffset (List.zipWith PlanRow.axis rows chunk.coordinate) ps =
      ctx.metadata.offsetOf (ps.map Prod.snd) := by
    rw [chunkOffset, hpick.offset, ZarrMetadata.offsetOf, hs.walk.metadata, ravel, map_zipWith,
      map_map]
    congr 1
    apply ext_getElem
    · simp [hlen]
    · intro d _ _
      simp [PlanRow.axis]
  have hinside : ctx.metadata.Contains (ps.map Prod.snd) := by
    rw [ZarrMetadata.Contains, hs.walk.metadata]
    exact hpick.inside
  have hlt : ctx.metadata.offsetOf (ps.map Prod.snd) <
      (ctx.metadata.dims.map (·.innerChunkShape)).prod := by
    apply ravel_lt
    rw [hs.walk.metadata, map_map]
    have hinner : ∀ r ∈ rows, 0 < r.2.innerChunkShape := fun r hr =>
      (hs.walk.rows_wf r hr).inner_pos
    have hlength := hpick.inside.length_eq
    rw [List.forall₂_iff_get]
    refine ⟨by simp at hlength ⊢; omega, ?_⟩
    intro d h1 h2
    simp only [get_eq_getElem, getElem_zipWith, getElem_map, Function.comp_apply]
    exact Nat.mod_lt _ (hinner _ (getElem_mem _))
  rw [← hpick.index, hoffset, ← hmeta, rowElement, ArrayStore.element, ← hmeta, hchunk]
  -- compare the record of the chunk with the index of its shard
  cases hindex : store.index sample.query.uri (ctx.metadata.shardOf chunk.coordinate) with
  | none =>
    rw [hindex] at hrecord
    rw [if_pos (show chunk.missing = true from hrecord)]
  | some entries =>
    rw [hindex] at hrecord
    obtain ⟨entry, hentry, ⟨rfl, hmissing⟩ | ⟨hne, hpresent, hpath, hoff, hbytes⟩⟩ := hrecord
    · rw [if_pos hmissing]
      dsimp only
      rw [if_pos hentry]
    · have hvalue : decoded use.chunk (ctx.metadata.offsetOf (ps.map Prod.snd)) =
          store.value sample.query.uri (ps.map Prod.snd) := by
        rw [hdec use.chunk chunk _ _ hu.chunk_eq (hu.array_eq ▸ hs.array) hpresent hpath _ hlt, hoff,
          hbytes]
        have hdecode := store.decode_eq sample.query.uri (ps.map Prod.snd) entries entry
        rw [← hmeta, hchunk] at hdecode
        exact hdecode hinside hindex hentry hne
      have hvalue_lt := store.value_lt sample.query.uri (ps.map Prod.snd)
      rw [← hmeta] at hvalue_lt
      simp only [hpresent, Bool.false_eq_true, if_false, hentry, Option.some.injEq, hne, hvalue]
      split
      · rename_i hmatch
        exact (dtypeConvert_of_matches hmatch hvalue_lt).symm
      · rfl

theorem BatchPlan.mem_chunkWrites
    (h : BatchPlan arrays shards raws samples output limits plan layout)
    (hstore : store.Cached arrays shards limits samples) (hdec : DecodedChunks store plan decoded)
    {k : ℕ} {w : ℕ × ℕ} (hw : w ∈ chunkWrites ops plan layout.strides (decoded k) k) :
    ∃ i raw uri o, raws[i]? = some raw ∧ raw.uri = some uri ∧
      List.Forall₂ (· < ·) o output.shape ∧ w.1 = ravelFrom i output.shape o ∧
      w.2 = dtypeConvert ops output.dtype (store.metadata uri).dtype
        (store.element uri (List.zipWith AxisSelection.index raw.axes o)) := by
  obtain ⟨walks, hspec⟩ := h.exists_spec
  unfold chunkWrites at hw
  cases hk : plan.chunks[k]? with
  | none => simp [hk] at hw
  | some chunk =>
    cases ha : plan.arrays[chunk.array]? with
    | none => simp [hk, ha] at hw
    | some array =>
      simp only [hk, ha, hspec.useChain_eq hk] at hw
      obtain ⟨p, hp, rfl⟩ := mem_map.mp hw
      obtain ⟨use, huse, hrow⟩ := mem_flatMap.mp hp
      rw [mem_reverse, mem_filter, beq_iff_eq] at huse
      obtain ⟨huse, rfl⟩ := huse
      obtain ⟨i, raw, sample, ctx, vs, rows, chunk', hu⟩ := h.use_spec huse
      obtain rfl : chunk = chunk' := Option.some.inj (hk.symm.trans hu.chunk_eq)
      have harray := hu.spec.array
      rw [← hu.array_eq, ha, Option.some.injEq] at harray
      subst harray
      dsimp only at hrow
      rw [h.useRows_writes hu, regionWrites] at hrow
      obtain ⟨ps, hps, rfl⟩ := mem_map.mp hrow
      have hsample := (h.useWf hu.spec hu.coordinate).in_sample hps
      refine ⟨i, raw, sample.query.uri, ps.map Prod.fst, hu.spec.raw_eq, hu.spec.uri_eq, hsample,
        rfl, ?_⟩
      dsimp only
      rw [hspec.output_eq]
      exact h.rowElement_eq hstore hdec hu hps

theorem BatchPlan.extents_eq
    (h : BatchPlan arrays shards raws samples output limits plan layout)
    (hs : SampleSpec arrays shards raws samples output limits plan i raw sample ctx vs rows) :
    raw.axes.map AxisSelection.extent = output.shape := by
  rw [(h.layout_spec hs).1]
  have hstores := hs.stores
  generalize raw.axes = axes at hstores
  generalize sample.query.dims = dims at hstores
  induction hstores with
  | nil => rfl
  | cons hst _ ih => rw [map_cons, map_cons, ih, hst.extent]

theorem BatchPlan.exists_write
    (h : BatchPlan arrays shards raws samples output limits plan layout) (ops : FloatOps)
    (decoded : ℕ → ℕ → ℕ) {i : ℕ} (hi : i < samples.length) {o : List ℕ}
    (ho : List.Forall₂ (· < ·) o output.shape) :
    ∃ k < plan.chunks.length, ∃ w ∈ chunkWrites ops plan layout.strides (decoded k) k,
      w.1 = ravelFrom i output.shape o := by
  obtain ⟨walks, hspec⟩ := h.exists_spec
  obtain ⟨raw, sample, ctx, vs, rows, hs, huses⟩ := h.exists_use hi
  rw [← h.extents_eq hs] at ho
  obtain ⟨c, hc, ps, hps, rfl⟩ := exists_picks hs.walk.rows_wf hs.stores_rows ho
  obtain ⟨use, huse, chunk, hu, rfl⟩ := huses c hc
  have hk := hu.chunk_eq
  have ha := hs.array
  rw [← hu.array_eq] at ha
  refine ⟨use.chunk, (List.getElem?_eq_some_iff.mp hk).1, ?_⟩
  have hmem : (ravelFrom i output.shape (ps.map Prod.fst),
      chunkOffset (List.zipWith PlanRow.axis rows chunk.coordinate) ps) ∈
      (plan.uses.filter (·.chunk == use.chunk)).reverse.flatMap fun use =>
        (useRows plan layout.strides ctx.metadata chunk use).flatMap Row.writes := by
    refine mem_flatMap.mpr ⟨use, ?_, ?_⟩
    · rw [mem_reverse, mem_filter]
      exact ⟨huse, by simp⟩
    · rw [h.useRows_writes hu, regionWrites]
      exact mem_map_of_mem hps
  simp only [chunkWrites, hk, ha, hspec.useChain_eq hk]
  exact ⟨_, mem_map_of_mem hmem, rfl⟩

/-- **The assembled batch is the selected part of the arrays.** For samples stored by `query_copy`
whose plan is built with caches that agree with the arrays, and for any order in which every chunk
of the plan is assembled once from its decoded elements: the element at output coordinate `o` of
sample `i` is the converted source element at the indices that the caller's axes take at `o`, or
the converted fill value where its chunk or shard is absent; and no element of the samples is left
unwritten. -/
theorem assembled_batch (mem : PlanMemory) (arrays : PrefetchHandle → CacheQuery ZarrMetadata)
    (shards : PrefetchHandle → CacheQuery (List ShardEntry)) (raws : List Sample)
    (samples : List PlannerSample) (output : BatchSpec) (limits : PlanLimits) (plan : PreparedPlan)
    (layout : BatchLayout) (store : ArrayStore) (ops : FloatOps) (decoded : ℕ → ℕ → ℕ)
    (order : List ℕ) (buf : OutBuffer)
    (hbuilt : preparedPlanBuild mem arrays shards samples output limits = .ok plan)
    (hstored : List.Forall₂ (fun raw s => ∃ mallocOk, queryCopy mallocOk raw = .ok s.query) raws
      samples)
    (hlayout : batchSpecLayout output = .ok layout)
    (hcount : samples.length ≤ output.samplesPerBatch)
    (hcached : store.Cached arrays shards limits samples)
    (hdecoded : DecodedChunks store plan decoded)
    (horder : order.Perm (List.range plan.chunks.length)) :
    let out := order.foldl
      (fun buf k => assembleChunk ops plan layout.strides (decoded k) buf k) buf
    (∀ (i : ℕ) (raw : Sample) (uri : CString) (o : List ℕ), raws[i]? = some raw →
      raw.uri = some uri → List.Forall₂ (fun n a => n < AxisSelection.extent a) o raw.axes →
      out (layout.offset i o) = some (dtypeConvert ops output.dtype (store.metadata uri).dtype
        (store.element uri (List.zipWith AxisSelection.index raw.axes o)))) ∧
    ∀ off < samples.length * layout.strides.headD 0, out off ≠ none := by
  intro out
  have h : BatchPlan arrays shards raws samples output limits plan layout := by
    refine ⟨⟨mem, hbuilt⟩, hstored, hlayout, hcount, ?_⟩
    intro s hs s' hs' huri m m' hm hm'
    rw [hcached.metadata s hs m (arrayMetadata_eq_ok hm),
      hcached.metadata s' hs' m' (arrayMetadata_eq_ok hm'), huri]
  have hout : out = WriteLog.apply buf
      (order.flatMap fun k => chunkWrites ops plan layout.strides (decoded k) k) := by
    simp only [out, assembleChunk_eq_apply]
    exact WriteLog.foldl_apply _ order buf
  -- one element of one sample: all writes to it agree, and there is one
  have helement : ∀ (i : ℕ) (raw : Sample) (uri : CString) (o : List ℕ), raws[i]? = some raw →
      raw.uri = some uri → List.Forall₂ (· < ·) o output.shape →
      out (ravelFrom i output.shape o) = some (dtypeConvert ops output.dtype
        (store.metadata uri).dtype
        (store.element uri (List.zipWith AxisSelection.index raw.axes o))) := by
    intro i raw uri o hraw huri ho
    have hi : i < samples.length := by
      rw [← hstored.length_eq]
      exact (List.getElem?_eq_some_iff.mp hraw).1
    rw [hout]
    apply WriteLog.apply_eq_some
    · intro w hw hoff
      obtain ⟨k, -, hw⟩ := mem_flatMap.mp hw
      obtain ⟨i', raw', uri', o', hraw', huri', ho', hoff', hvalue⟩ :=
        h.mem_chunkWrites hcached hdecoded hw
      obtain ⟨rfl, rfl⟩ := ravelFrom_inj ho' ho (hoff'.symm.trans hoff)
      obtain rfl : raw' = raw := Option.some.inj (hraw'.symm.trans hraw)
      obtain rfl : uri' = uri := Option.some.inj (huri'.symm.trans huri)
      exact hvalue
    · obtain ⟨k, hk, w, hw, hoff⟩ := h.exists_write ops decoded hi ho
      refine ⟨w, mem_flatMap.mpr ⟨k, ?_, hw⟩, hoff⟩
      exact horder.mem_iff.mpr (mem_range.mpr hk)
  refine ⟨?_, ?_⟩
  · intro i raw uri o hraw huri ho
    have hi : i < samples.length := by
      rw [← hstored.length_eq]
      exact (List.getElem?_eq_some_iff.mp hraw).1
    obtain ⟨raw', sample, ctx, vs, rows, hs, -⟩ := h.exists_use hi
    obtain rfl : raw' = raw := Option.some.inj (hs.raw_eq.symm.trans hraw)
    have ho' : List.Forall₂ (· < ·) o output.shape := by
      rw [← h.extents_eq hs, List.forall₂_map_right_iff]
      exact ho
    rw [h.offset_eq hs ho'.length_eq]
    exact helement i _ uri o hraw huri ho'
  · intro off hoff
    have hpos : 0 < samples.length := Nat.pos_of_mul_pos_right (Nat.zero_lt_of_lt hoff)
    obtain ⟨raw₀, sample₀, ctx₀, vs₀, rows₀, hs₀, -⟩ := h.exists_use hpos
    rw [(h.layout_spec hs₀).2.1, batchStrides, headD_cons, ← prod_cons] at hoff
    obtain ⟨coord, hcoord, rfl⟩ := exists_ravel_eq hoff
    obtain _ | ⟨hi, ho⟩ := hcoord
    rename_i i o
    obtain ⟨raw, sample, ctx, vs, rows, hs, -⟩ := h.exists_use hi
    have := helement i raw sample.query.uri o hs.raw_eq hs.uri_eq ho
    simp only [ravel, ravelFrom, Nat.zero_mul, Nat.zero_add]
    rw [this]
    exact Option.some_ne_none _

end Assembled

/-- The arrays of the example: the first shard holds one of its two inner chunks, the second shard
does not exist. -/
def exampleStore : ArrayStore where
  metadata _ := exampleMetadata
  index _ sc := if sc = [0] then some [⟨0, 2⟩, emptyEntry] else none
  value _ x := x.headD 0 % 2 + 10
  decode _ _ _ n := n + 10
  value_lt := by
    intro uri x
    have := Nat.mod_lt (x.headD 0) (show 0 < 2 by decide)
    simp only [exampleMetadata, dtypeBpe]
    omega
  decode_eq := by
    intro uri x entries entry hx _ _ _
    obtain _ | ⟨hn, h⟩ := hx
    cases h
    simp [ZarrMetadata.offsetOf, exampleMetadata, ravel, ravelFrom]

@[inherit_doc exampleStore]
def exampleShards (h : PrefetchHandle) : CacheQuery (List ShardEntry) :=
  if h.slot = 0 then .ready (some [⟨0, 2⟩, emptyEntry]) else .error .notfound

def examplePlannerSample : PlannerSample := ⟨exampleQuery, ⟨0, 1⟩, [⟨0, 1⟩, ⟨1, 1⟩]⟩

def examplePlan : PreparedPlan where
  output := exampleOutput
  arrays := [⟨[0x61], exampleMetadata⟩]
  chunks := [⟨some [0x61, 0x2F, 0x63, 0x2F, 0x30], 0, [0], 0, 2, 2, some 0, false⟩,
    ⟨none, 0, [2], 0, 0, 2, some 1, true⟩]
  regions := [⟨.gather, 0, 0, exampleQuery.dims⟩]
  uses := [⟨0, 0, none⟩, ⟨1, 0, none⟩]
  allocatedBytes := 2862

def exampleFloatOps : FloatOps :=
  ⟨fun _ => 0, fun _ => 0, fun _ => false, fun _ => false, fun _ _ => false, fun _ => 0, fun _ => 0⟩

/-- The example batch holds a fill value at its last element and a stored element before it. -/
theorem assembled_batch_example :
    ([1, 0].foldl (fun buf k => assembleChunk exampleFloatOps examplePlan [3, 1] (fun n => n + 10)
      buf k) (fun _ => none)) 1 = some 11 ∧
    ([1, 0].foldl (fun buf k => assembleChunk exampleFloatOps examplePlan [3, 1] (fun n => n + 10)
      buf k) (fun _ => none)) 2 = some 0 := by
  have hbatch := assembled_batch ⟨true, true, fun _ _ => true⟩ (fun _ => .ready exampleMetadata)
    exampleShards [exampleSample] [examplePlannerSample] exampleOutput exampleLimits examplePlan
    ⟨[1, 3], [3, 1], 3⟩ exampleStore exampleFloatOps (fun _ n => n + 10) [1, 0] (fun _ => none)
    (by decide +kernel) (.cons ⟨true, by decide⟩ .nil) (by decide) (by decide) ⟨?_, ?_⟩ ?_
    (by decide)
  · exact ⟨hbatch.1 0 exampleSample [0x61] [1] rfl rfl (.cons (by decide) .nil),
      hbatch.1 0 exampleSample [0x61] [2] rfl rfl (.cons (by decide) .nil)⟩
  · intro s _ m hm
    cases hm
    rfl
  · intro s hs grid hgrid j sc handle hsc hhandle
    obtain rfl := mem_singleton.mp hs
    have hinit : selectionGridInit (shardGridDims exampleQuery.dims exampleMetadata.dims) 4 =
        .ok exampleShardGrid := by decide
    obtain rfl : exampleShardGrid = grid := Except.ok.inj (hinit.symm.trans hgrid)
    rw [show selectionGridCoords exampleShardGrid = [[0], [1]] by decide] at hsc
    rcases j with _ | _ | j
    · cases hsc
      cases hhandle
      exact ⟨fun entries he => (by cases he; rfl), fun he => (by cases he)⟩
    · cases hsc
      cases hhandle
      exact ⟨fun entries he => (by cases he), fun _ => rfl⟩
    · cases hsc
  · intro k chunk array path _ _ _ _ n _
    rfl

end Damacy

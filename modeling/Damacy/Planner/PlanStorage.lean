import Mathlib.Algebra.Group.Action.Defs
import Mathlib.Data.Nat.Digits.Defs
import Damacy.Planner.PlanInvariant

/-!
# The storage block of a plan (`planner/plan_builder.c`)

The first pass of the builder sizes one block for the arrays, the regions, the chunks, the copied
indices, the uses, the hash table and the copied strings of a plan; the second pass writes them.
The two passes count differently: the first one per sample, the second one per stored array, per
shard that exists and per inner chunk that is met first. `preparedPlanBuild_storage` says that every
write of the second pass, also of one that fails half-way, stays inside what is set aside for it,
and that no size that is computed on the way needs more than 64 bits.
-/

open List ExceptFold Odometer

namespace Damacy

variable {mem : PlanMemory} {arrays : PrefetchHandle → CacheQuery ZarrMetadata}
  {shards : PrefetchHandle → CacheQuery (List ShardEntry)} {output : BatchSpec}
  {limits : PlanLimits} {n capacity buckets : ℕ}

/-! ## Writes -/

/-- A write of the second pass to the storage block. Records and table cells are written at their
index; indices and strings are appended at a cursor of their own. -/
inductive StorageWrite
  | array (k : ℕ)
  | region (k : ℕ)
  | chunk (k : ℕ)
  | use (k : ℕ)
  | cell (bucket : ℕ)
  | indices (count : ℕ)
  | path (text : CString)
deriving DecidableEq, Repr

def StorageWrite.indexBytes : StorageWrite → ℕ
  | .indices count => count * sizeofQueryIndex
  | _ => 0

/-- What a write takes of the copied strings: `copy_path` copies the terminator too. -/
def StorageWrite.pathBytes : StorageWrite → ℕ
  | .path text => text.length + 1
  | _ => 0

/-- The index of a record or table cell is below the number that is set aside. -/
def StorageWrite.InBounds (n capacity buckets : ℕ) : StorageWrite → Prop
  | .array k => k < n
  | .region k => k < n
  | .chunk k => k < capacity
  | .use k => k < capacity
  | .cell bucket => bucket < buckets
  | .indices _ => True
  | .path _ => True

/-- The writes for one inner chunk: its record and its table cell if it is new, and then its use,
with the link from the chunk. The record is written before the use table is checked. -/
def visitWrites (capacity buckets : ℕ) (ctx : PlanSampleCtx) (index : Option (List ShardEntry))
    (path : Option CString) (build : PlanBuild) (coordinate : List ℕ) : List StorageWrite :=
  match planChunk index path ctx.per coordinate ctx.array ctx.decodedBytes with
  | .error _ => []
  | .ok chunk =>
    let bucket := planProbe build buckets chunk.array chunk.coordinate
    (if build.table.getD bucket 0 = 0 then [.chunk build.chunks.length, .cell bucket] else []) ++
      if capacity ≤ build.uses.length then []
      else [.use build.uses.length, .chunk (planStore build buckets chunk).1]

/-- The writes for one shard: its path if the shard exists, and then those for its inner chunks. -/
def shardWrites (mem : PlanMemory) (shards : PrefetchHandle → CacheQuery (List ShardEntry))
    (limits : PlanLimits) (capacity buckets : ℕ) (ctx : PlanSampleCtx) (build : PlanBuild)
    (shard : List ℕ × ℕ) : List StorageWrite :=
  match ctx.sample.hShards[shard.2]? with
  | none => []
  | some handle =>
    match shardIndexOf (shards handle) with
    | .error _ => []
    | .ok index =>
      if index.isSome ∧ mem.pathOk ctx.sample.query.uri shard.1 = false then []
      else
        let path := index.map fun _ => zarrShardPathBuild ctx.sample.query.uri shard.1
        path.toList.map .path ++
          match gridInit (clippedGridDims ctx.sample.query.dims ctx.metadata.dims
            (shardLo ctx.per shard.1) (shardHi ctx.per shard.1)) limits.maxChunks with
          | .error _ => []
          | .ok grid =>
            (entered (planVisit capacity buckets ctx index path) build
              (selectionGridCoords grid)).flatMap fun e =>
                visitWrites capacity buckets ctx index path e.1 e.2

/-- The writes for one sample: its array and uri if they are new, its region, the indices of every
axis that has some, and then those for its shards. -/
def sampleWrites (mem : PlanMemory) (arrays : PrefetchHandle → CacheQuery ZarrMetadata)
    (shards : PrefetchHandle → CacheQuery (List ShardEntry)) (output : BatchSpec)
    (limits : PlanLimits) (capacity buckets : ℕ) (build : PlanBuild)
    (item : PlannerSample × ℕ) : List StorageWrite :=
  match arrayMetadata arrays item.1.hMeta with
  | .error _ => []
  | .ok metadata =>
    let stored := planArray build item.1.query.uri metadata
    (if build.arrays.findIdx (·.uri == item.1.query.uri) = build.arrays.length then
        [.path item.1.query.uri, .array build.arrays.length] else []) ++
      .region item.2 ::
      (item.1.query.dims.filter fun dim => dim.count != 0).map (.indices ·.count) ++
      match sampleGeometry item.1.query.dims metadata output limits,
        zarrMetadataInnerPerShard metadata,
        gridInit (shardGridDims item.1.query.dims metadata.dims) limits.maxShardsPerSample with
      | .ok (_, decodedBytes), some (per, _), .ok grid =>
        let ctx : PlanSampleCtx :=
          { sample := item.1, region := item.2, array := stored.1, metadata, per, decodedBytes }
        (entered (planShard mem shards limits capacity buckets ctx)
          { stored.2 with
            regions := stored.2.regions ++ [planRegion item.1 item.2 stored.1] }
          (selectionGridCoords grid).zipIdx).flatMap fun e =>
            shardWrites mem shards limits capacity buckets ctx e.1 e.2
      | _, _, _ => []

def planWrites (mem : PlanMemory) (arrays : PrefetchHandle → CacheQuery ZarrMetadata)
    (shards : PrefetchHandle → CacheQuery (List ShardEntry)) (samples : List PlannerSample)
    (output : BatchSpec) (limits : PlanLimits) (capacity buckets : ℕ) : List StorageWrite :=
  (entered (planSample mem arrays shards output limits capacity buckets)
    { arrays := [], regions := [], chunks := [], uses := [], table := List.replicate buckets 0 }
    samples.zipIdx).flatMap fun e =>
      sampleWrites mem arrays shards output limits capacity buckets e.1 e.2

/-! ## Fitting -/

/-- The writes are in bounds, and the two cursors do not leave `indexBytes` and `pathBytes`. -/
structure StorageFits (n capacity buckets indexBytes pathBytes : ℕ) (writes : List StorageWrite) :
    Prop where
  slot : ∀ w ∈ writes, w.InBounds n capacity buckets
  indices : (writes.map StorageWrite.indexBytes).sum ≤ indexBytes
  paths : (writes.map StorageWrite.pathBytes).sum ≤ pathBytes

namespace StorageFits

variable {i i' p p' : ℕ} {ws ws' : List StorageWrite}

theorem nil : StorageFits n capacity buckets i p [] := ⟨nofun, Nat.zero_le _, Nat.zero_le _⟩

theorem mono (h : StorageFits n capacity buckets i p ws) (hi : i ≤ i') (hp : p ≤ p') :
    StorageFits n capacity buckets i' p' ws :=
  ⟨h.slot, h.indices.trans hi, h.paths.trans hp⟩

theorem append (h : StorageFits n capacity buckets i p ws)
    (h' : StorageFits n capacity buckets i' p' ws') :
    StorageFits n capacity buckets (i + i') (p + p') (ws ++ ws') := by
  refine ⟨fun w hw => ?_, ?_, ?_⟩
  · rcases mem_append.mp hw with hw | hw
    · exact h.slot w hw
    · exact h'.slot w hw
  · rw [map_append, sum_append]
    exact Nat.add_le_add h.indices h'.indices
  · rw [map_append, sum_append]
    exact Nat.add_le_add h.paths h'.paths

theorem flatMap {α : Type} {l : List α} {g : α → List StorageWrite} {ci cp : α → ℕ}
    (h : ∀ a ∈ l, StorageFits n capacity buckets (ci a) (cp a) (g a)) :
    StorageFits n capacity buckets (l.map ci).sum (l.map cp).sum (l.flatMap g) := by
  induction l with
  | nil => exact nil
  | cons a l ih =>
    rw [forall_mem_cons] at h
    rw [flatMap_cons, map_cons, map_cons, sum_cons, sum_cons]
    exact h.1.append (ih h.2)

theorem of_slots (h : ∀ w ∈ ws, w.InBounds n capacity buckets)
    (hi : ∀ w ∈ ws, w.indexBytes = 0) (hp : ∀ w ∈ ws, w.pathBytes = 0) :
    StorageFits n capacity buckets 0 0 ws := by
  refine ⟨h, (sum_eq_zero ?_).le, (sum_eq_zero ?_).le⟩
  · simpa using hi
  · simpa using hp

end StorageFits

/-! ## What the second pass keeps -/

/-- The chunks and the table while the second pass runs: there are no more chunks than uses, and the
cells of the table refer to chunks. -/
structure PlanBuild.Within (buckets : ℕ) (build : PlanBuild) : Prop where
  chunks_le : build.chunks.length ≤ build.uses.length
  table_length : build.table.length = buckets
  cells : ∀ cell ∈ build.table, cell ≤ build.chunks.length

section Steps

variable {build build' : PlanBuild}

theorem planProbe_lt (build : PlanBuild) (hpos : 0 < buckets) (array : ℕ) (coordinate : List ℕ) :
    planProbe build buckets array coordinate < buckets := by
  have hand : ∀ b, b &&& (buckets - 1) < buckets := fun b =>
    Nat.lt_of_le_of_lt Nat.and_le_right (by omega)
  exact LinearProbe.probe_lt (fun b => hand (b + 1)) (hand _)

theorem planStore_lt (h : build.Within buckets) (chunk : PlanChunk) :
    (planStore build buckets chunk).1 < (planStore build buckets chunk).2.chunks.length := by
  unfold planStore
  dsimp only
  split
  · simp
  · rename_i hcell
    set bucket := planProbe build buckets chunk.array chunk.coordinate
    have hlt : bucket < build.table.length := by
      by_contra hge
      exact hcell (by rw [List.getD, getElem?_eq_none (not_lt.mp hge)]; rfl)
    have hmem : build.table.getD bucket 0 ∈ build.table := by
      rw [List.getD, getElem?_eq_getElem hlt]
      exact getElem_mem hlt
    have := h.cells _ hmem
    dsimp only
    omega

theorem planStore_chunks_le (build : PlanBuild) (buckets : ℕ) (chunk : PlanChunk) :
    build.chunks.length ≤ (planStore build buckets chunk).2.chunks.length ∧
      (planStore build buckets chunk).2.chunks.length ≤ build.chunks.length + 1 := by
  unfold planStore
  dsimp only
  split <;> simp

theorem planStore_table (h : build.Within buckets) (chunk : PlanChunk) :
    (planStore build buckets chunk).2.table.length = buckets ∧
      ∀ cell ∈ (planStore build buckets chunk).2.table,
        cell ≤ (planStore build buckets chunk).2.chunks.length := by
  unfold planStore
  dsimp only
  split
  · refine ⟨by simpa using h.table_length, fun cell hcell => ?_⟩
    rw [length_append, length_singleton]
    rcases mem_or_eq_of_mem_set hcell with hcell | rfl
    · exact (h.cells cell hcell).trans (Nat.le_succ _)
    · exact le_rfl
  · exact ⟨h.table_length, h.cells⟩

theorem planVisit_within {ctx : PlanSampleCtx} {index : Option (List ShardEntry)}
    {path : Option CString} {coordinate : List ℕ} (h : build.Within buckets)
    (hvisit : planVisit capacity buckets ctx index path build coordinate = .ok build') :
    build'.Within buckets := by
  simp only [planVisit, planUse, bind_eq_ok, failIf_eq_ok, exists_const, pure_eq_ok,
    Except.ok.injEq] at hvisit
  obtain ⟨chunk, -, -, rfl⟩ := hvisit
  have hle := (planStore_chunks_le build buckets chunk).2
  have hchunks := h.chunks_le
  obtain ⟨htable, hcells⟩ := planStore_table h chunk
  refine ⟨?_, htable, ?_⟩
  · simp only [length_modify, length_append, length_singleton, planStore_uses]
    omega
  · simpa only [length_modify] using hcells

theorem planShard_within {ctx : PlanSampleCtx} {shard : List ℕ × ℕ} (h : build.Within buckets)
    (hshard : planShard mem shards limits capacity buckets ctx build shard = .ok build') :
    build'.Within buckets := by
  obtain ⟨handle, index, -, -, hfold⟩ := planShard_ok hshard
  exact foldlM_ok_induction (fun _ _ b => b.Within buckets) h
    (fun _ _ _ _ _ _ hb hvisit => planVisit_within hb hvisit) hfold

theorem planArray_within (h : build.Within buckets) (uri : CString) (metadata : ZarrMetadata)
    (regions : List PlanRegion) :
    ({ (planArray build uri metadata).2 with regions } : PlanBuild).Within buckets := by
  unfold planArray
  dsimp only
  split <;> exact ⟨h.chunks_le, h.table_length, h.cells⟩

theorem planSample_within {item : PlannerSample × ℕ} (h : build.Within buckets)
    (hsample : planSample mem arrays shards output limits capacity buckets build item =
      .ok build') : build'.Within buckets := by
  obtain ⟨metadata, count, bytes, per, total, grid, -, -, -, -, -, hfold⟩ := planSample_ok hsample
  exact foldlM_ok_induction (fun _ _ b => b.Within buckets) (planArray_within h _ metadata _)
    (fun _ _ _ _ _ _ hb hshard => planShard_within hb hshard) hfold

theorem planShard_arrays {ctx : PlanSampleCtx} {shard : List ℕ × ℕ}
    (hshard : planShard mem shards limits capacity buckets ctx build shard = .ok build') :
    build'.arrays = build.arrays := by
  obtain ⟨handle, index, -, -, hfold⟩ := planShard_ok hshard
  refine foldlM_ok_induction (fun _ _ b => b.arrays = build.arrays) rfl ?_ hfold
  intro done c rest b b' _ hb hvisit
  simp only [planVisit, planUse, bind_eq_ok, failIf_eq_ok, exists_const, pure_eq_ok,
    Except.ok.injEq] at hvisit
  obtain ⟨chunk, -, -, rfl⟩ := hvisit
  rw [← hb]
  unfold planStore
  dsimp only
  split <;> rfl

theorem planSample_arrays {item : PlannerSample × ℕ}
    (hsample : planSample mem arrays shards output limits capacity buckets build item =
      .ok build') : build'.arrays.length ≤ build.arrays.length + 1 := by
  obtain ⟨metadata, count, bytes, per, total, grid, -, -, -, -, -, hfold⟩ := planSample_ok hsample
  have hkeep := foldlM_ok_induction (fun _ _ b => b.arrays =
    (planArray build item.1.query.uri metadata).2.arrays) rfl
    (fun _ _ _ _ _ _ hb hshard => (planShard_arrays hshard).trans hb) hfold
  rw [hkeep]
  unfold planArray
  dsimp only
  split
  · exact length_append.le
  · exact Nat.le_succ _

end Steps

/-! ## Paths -/

/-- `per_path`: what is set aside for a shard's path of a sample. -/
def perPathBytes (sample : PlannerSample) : ℕ :=
  sample.query.uri.length + 1 + 3 + sample.query.dims.length * 21

def sampleIndexBytes (sample : PlannerSample) : ℕ :=
  (sample.query.dims.map fun dim => dim.count * sizeofQueryIndex).sum

/-- What is set aside for the strings of a sample: its uri, and a path for every shard. -/
def samplePathBytes (sample : PlannerSample) : ℕ :=
  sample.query.uri.length + 1 + perPathBytes sample * sample.hShards.length

theorem length_decimal_le {c : ℕ} (h : c < 2 ^ 64) : (decimal c).length ≤ 20 := by
  rw [decimal, length_map]
  exact Nat.toDigits_length 10 c 20 (by decide) (h.trans (by decide))

theorem length_joinPathC_le (uri : CString) : (joinPathC uri).length ≤ uri.length + 2 := by
  unfold joinPathC strbufJoinPath
  split
  · simp
  · split <;> simp

/-- **A path fits what is set aside for it**: a separator and 20 digits for every coordinate, and
the uri with `/c` and the terminator. -/
theorem length_zarrShardPathBuild_lt (uri : CString) {coords : List ℕ}
    (h : ∀ c ∈ coords, c < 2 ^ 64) :
    (zarrShardPathBuild uri coords).length + 1 < uri.length + 1 + 3 + coords.length * 21 := by
  have hcoords : (coords.flatMap fun c => slash :: decimal c).length ≤ coords.length * 21 := by
    induction coords with
    | nil => simp
    | cons c coords ih =>
      rw [forall_mem_cons] at h
      have hc := length_decimal_le h.1
      have hrest := ih h.2
      rw [flatMap_cons, length_append, length_cons, length_cons]
      omega
  have huri := length_joinPathC_le uri
  rw [zarrShardPathBuild, length_append]
  omega

theorem shardCoord_lt {dims : List QueryDim} {metadata : ZarrMetadata} {count bytes total : ℕ}
    {per : List ℕ} {grid : SelectionGrid} {maxShards : ℕ} (hne : dims ≠ [])
    (hwf : ∀ dim ∈ dims, dim.Wf)
    (hgeo : sampleGeometry dims metadata output limits = .ok (count, bytes))
    (hper : zarrMetadataInnerPerShard metadata = some (per, total))
    (hgrid : selectionGridInit (shardGridDims dims metadata.dims) maxShards = .ok grid)
    {coords : List ℕ} (hcoords : coords ∈ selectionGridCoords grid) :
    coords.length = dims.length ∧ ∀ c ∈ coords, c < 2 ^ 64 := by
  obtain ⟨rows, rfl, hds, hrows, -, -⟩ := planRows_wf hwf (sampleGeometry_ok hne hgeo) hper hgrid
  rw [hds] at hgrid
  rw [shardGrid_coords hrows hgrid, mem_cartesian, List.forall₂_map_right_iff] at hcoords
  refine ⟨by simpa using hcoords.length_eq, ?_⟩
  clear hds hgeo hper hgrid hne hwf
  induction hcoords with
  | nil => exact nofun
  | @cons c r coords rows hc _ ih =>
    rw [forall_mem_cons] at hrows ⊢
    refine ⟨?_, ih hrows.2⟩
    obtain ⟨x, hx, rfl⟩ := (PlanRow.mem_shardCells hrows.1).mp hc
    have hlt := (hrows.1.dim.lo_le_of_selects hx).2
    have hhi := hrows.1.dim.hi_lt
    exact (Nat.div_le_self _ _).trans_lt (by omega)

/-! ## One pass over the samples -/

section Fit

variable {ctx : PlanSampleCtx} {index : Option (List ShardEntry)} {path : Option CString}
  {build : PlanBuild}

theorem visitWrites_fits (coordinate : List ℕ) (hpos : 0 < buckets) (h : build.Within buckets)
    (hroom : build.uses.length + 1 ≤ capacity) :
    StorageFits n capacity buckets 0 0
      (visitWrites capacity buckets ctx index path build coordinate) := by
  unfold visitWrites
  split
  · exact .nil
  · rename_i chunk _
    have hchunks := h.chunks_le
    have hstore := planStore_lt h chunk
    have hle := (planStore_chunks_le build buckets chunk).2
    have hprobe := planProbe_lt build hpos chunk.array chunk.coordinate
    refine .of_slots ?_ ?_ ?_
    · intro w hw
      rcases mem_append.mp hw with hw | hw <;> split at hw <;>
        simp only [mem_cons, not_mem_nil, or_false] at hw
      · rcases hw with rfl | rfl
        · show build.chunks.length < capacity
          omega
        · exact hprobe
      · rcases hw with rfl | rfl
        · show build.uses.length < capacity
          omega
        · show (planStore build buckets chunk).1 < capacity
          omega
    all_goals
      intro w hw
      rcases mem_append.mp hw with hw | hw <;> split at hw <;>
        simp only [mem_cons, not_mem_nil, or_false] at hw <;> rcases hw with rfl | rfl <;>
        rfl

theorem entered_planVisit_fits (hpos : 0 < buckets) (h : build.Within buckets)
    {coords : List (List ℕ)} (hroom : build.uses.length + coords.length ≤ capacity) :
    StorageFits n capacity buckets 0 0
      ((entered (planVisit capacity buckets ctx index path) build coords).flatMap fun e =>
        visitWrites capacity buckets ctx index path e.1 e.2) := by
  have hwithin : ∀ e ∈ entered (planVisit capacity buckets ctx index path) build coords,
      e.1.Within buckets :=
    entered_invariant h fun c _ b b' hb hvisit => planVisit_within hb hvisit
  have huses : ∀ e ∈ entered (planVisit capacity buckets ctx index path) build coords,
      e.1.uses.length + 1 ≤ capacity :=
    entered_weight (m := fun b : PlanBuild => b.uses.length) (w := fun _ => 1)
      (fun c _ b b' hvisit => (planVisit_uses hvisit).le) (by simpa using hroom)
  refine (StorageFits.flatMap (n := n) fun e he =>
    visitWrites_fits e.2 hpos (hwithin e he) (huses e he)).mono ?_ ?_ <;> simp

theorem shardWrites_fits (shard : List ℕ × ℕ) (hpos : 0 < buckets) (h : build.Within buckets)
    (hroom : build.uses.length + shardWeight limits ctx shard ≤ capacity)
    (hpath : (zarrShardPathBuild ctx.sample.query.uri shard.1).length + 1 ≤
      perPathBytes ctx.sample) :
    StorageFits n capacity buckets 0
      (if shard.2 < ctx.sample.hShards.length then perPathBytes ctx.sample else 0)
      (shardWrites mem shards limits capacity buckets ctx build shard) := by
  cases hhandle : ctx.sample.hShards[shard.2]? with
  | none =>
    simp only [shardWrites, hhandle]
    exact .nil
  | some handle =>
    rw [if_pos (List.getElem?_eq_some_iff.mp hhandle).1]
    simp only [shardWrites, hhandle]
    split
    · exact .nil
    · rename_i index _
      split
      · exact .nil
      · rw [← Nat.zero_add 0, ← Nat.add_zero (perPathBytes ctx.sample)]
        refine .append ?_ ?_
        · cases index with
          | none => exact .nil
          | some entries =>
            refine ⟨fun w hw => ?_, ?_, ?_⟩
            · obtain rfl := mem_singleton.mp hw
              trivial
            · exact le_rfl
            · exact hpath
        · split
          · exact .nil
          · rename_i grid hgrid
            rw [gridInit_eq_ok] at hgrid
            refine entered_planVisit_fits hpos h ?_
            rw [shardWeight, shardChunkCoords, hgrid] at hroom
            exact hroom

theorem sum_zipIdx_ite_le {α : Type} (l : List α) (k p : ℕ) :
    (l.zipIdx.map fun a => if a.2 < k then p else 0).sum ≤ p * k := by
  have hmap : (l.zipIdx.map fun a => if a.2 < k then p else 0) =
      (List.range l.length).map fun i => if i < k then p else 0 := by
    apply ext_getElem
    · simp
    · intro i _ _
      simp
  rw [hmap]
  induction l.length with
  | zero => exact Nat.zero_le _
  | succ m ih =>
    rw [range_succ, map_append, sum_append, map_singleton, sum_singleton]
    split
    · rename_i hlt
      have hall : ((List.range m).map fun i => if i < k then p else 0) =
          (List.range m).map fun _ => p :=
        map_congr_left fun i hi => if_pos (by rw [mem_range] at hi; omega)
      rw [hall, map_const', length_range, sum_replicate, smul_eq_mul, ← Nat.succ_mul,
        Nat.mul_comm p k]
      exact Nat.mul_le_mul_right p hlt
    · exact ih

theorem indexWrites_fits {sample : PlannerSample} {i : ℕ} (hi : i < n) :
    StorageFits n capacity buckets (sampleIndexBytes sample) 0 (.region i ::
      (sample.query.dims.filter fun dim => dim.count != 0).map (.indices ·.count)) := by
  refine ⟨?_, ?_, ?_⟩
  · rw [forall_mem_cons]
    refine ⟨hi, fun w hw => ?_⟩
    obtain ⟨dim, -, rfl⟩ := mem_map.mp hw
    trivial
  · rw [map_cons, sum_cons, map_map]
    have hsub := (filter_sublist (p := fun dim : QueryDim => dim.count != 0)
      (l := sample.query.dims)).map fun dim => dim.count * sizeofQueryIndex
    exact (Nat.zero_add (List.sum _)).trans_le (hsub.sum_le_sum fun _ _ => Nat.zero_le _)
  · refine Nat.le_of_eq (sum_eq_zero fun x hx => ?_)
    obtain ⟨w, hw, rfl⟩ := mem_map.mp hx
    rcases mem_cons.mp hw with rfl | hw
    · rfl
    · obtain ⟨dim, -, rfl⟩ := mem_map.mp hw
      rfl

theorem entered_planShard_fits {metadata : ZarrMetadata} {count bytes total region array : ℕ}
    {per : List ℕ} {grid : SelectionGrid} {sample : PlannerSample} (hs : sample.Stored)
    (hgeo : sampleGeometry sample.query.dims metadata output limits = .ok (count, bytes))
    (hper : zarrMetadataInnerPerShard metadata = some (per, total))
    (hgrid : selectionGridInit (shardGridDims sample.query.dims metadata.dims)
      limits.maxShardsPerSample = .ok grid)
    (hpos : 0 < buckets) (h : build.Within buckets)
    (hroom : build.uses.length + count ≤ capacity) :
    StorageFits n capacity buckets 0 (perPathBytes sample * sample.hShards.length)
      ((entered (planShard mem shards limits capacity buckets
        { sample, region, array, metadata, per, decodedBytes := bytes }) build
        (selectionGridCoords grid).zipIdx).flatMap fun e =>
          shardWrites mem shards limits capacity buckets
            { sample, region, array, metadata, per, decodedBytes := bytes } e.1 e.2) := by
  set ctx : PlanSampleCtx := { sample, region, array, metadata, per, decodedBytes := bytes }
    with hctx
  have hwithin : ∀ e ∈ entered (planShard mem shards limits capacity buckets ctx) build
      (selectionGridCoords grid).zipIdx, e.1.Within buckets :=
    entered_invariant h fun shard _ b b' hb hshard => planShard_within hb hshard
  have huses : ∀ e ∈ entered (planShard mem shards limits capacity buckets ctx) build
      (selectionGridCoords grid).zipIdx, e.1.uses.length + shardWeight limits ctx e.2 ≤ capacity :=
    entered_weight (m := fun b : PlanBuild => b.uses.length) (w := shardWeight limits ctx)
      (fun shard _ b b' hshard => (planShard_uses hshard).le) (by
        rw [sum_shardWeight_zipIdx, sum_shardWeight hs.ne_nil hs.wf hgeo hper hgrid]
        exact hroom)
  have hshard : ∀ e ∈ entered (planShard mem shards limits capacity buckets ctx) build
      (selectionGridCoords grid).zipIdx, StorageFits n capacity buckets 0
        (if e.2.2 < sample.hShards.length then perPathBytes sample else 0)
        (shardWrites mem shards limits capacity buckets ctx e.1 e.2) := by
    intro e he
    have hmem := fst_mem_of_mem_zipIdx (snd_mem_of_entered he)
    obtain ⟨hlen, hlt⟩ := shardCoord_lt hs.ne_nil hs.wf hgeo hper hgrid hmem
    have hpath := length_zarrShardPathBuild_lt sample.query.uri hlt
    rw [hlen] at hpath
    exact shardWrites_fits e.2 hpos (hwithin e he) (huses e he) hpath.le
  refine (StorageFits.flatMap hshard).mono (by simp) ?_
  exact (sum_entered_le _ _ _ _).trans (sum_zipIdx_ite_le _ _ _)

/-- **The writes for a sample** take what the first pass set aside for it. -/
theorem sampleWrites_fits {item : PlannerSample × ℕ} (hs : item.1.Stored) (hpos : 0 < buckets)
    (h : build.Within buckets) (harrays : build.arrays.length + 1 ≤ n) (hregion : item.2 < n)
    (hroom : build.uses.length + sampleWeight arrays output limits item.1 ≤ capacity) :
    StorageFits n capacity buckets (sampleIndexBytes item.1) (samplePathBytes item.1)
      (sampleWrites mem arrays shards output limits capacity buckets build item) := by
  cases hmeta : arrayMetadata arrays item.1.hMeta with
  | error e =>
    simp only [sampleWrites, hmeta]
    exact .nil
  | ok metadata =>
    simp only [sampleWrites, hmeta]
    rw [samplePathBytes, ← Nat.zero_add (sampleIndexBytes item.1),
      ← Nat.add_zero (0 + sampleIndexBytes item.1), ← Nat.add_zero (item.1.query.uri.length + 1)]
    refine .append (.append ?_ (indexWrites_fits hregion)) ?_
    · split
      · refine ⟨fun w hw => ?_, le_rfl, ?_⟩
        · simp only [mem_cons, not_mem_nil, or_false] at hw
          rcases hw with rfl | rfl
          · trivial
          · exact harrays
        · exact le_rfl
      · exact .nil
    · split
      · rename_i count bytes per total grid hgeo hper hgrid
        rw [gridInit_eq_ok] at hgrid
        refine entered_planShard_fits hs hgeo hper hgrid hpos (planArray_within h _ _ _) ?_
        rw [planArray_uses]
        simpa [sampleWeight, hmeta, hgeo] using hroom
      · exact .nil

/-- **The writes of the second pass** take what the first pass set aside. -/
theorem planWrites_fits {samples : List PlannerSample} (hs : ∀ s ∈ samples, s.Stored)
    (hpos : 0 < buckets)
    (hroom : (samples.map (sampleWeight arrays output limits)).sum ≤ capacity) :
    StorageFits samples.length capacity buckets (samples.map sampleIndexBytes).sum
      (samples.map samplePathBytes).sum
      (planWrites mem arrays shards samples output limits capacity buckets) := by
  set start : PlanBuild :=
    { arrays := [], regions := [], chunks := [], uses := [], table := List.replicate buckets 0 }
    with hstart
  have hempty : start.Within buckets :=
    ⟨le_rfl, length_replicate, fun cell hcell => (eq_of_mem_replicate hcell).le⟩
  have hmem : ∀ item ∈ samples.zipIdx, item.1.Stored := fun item hitem =>
    hs _ (fst_mem_of_mem_zipIdx hitem)
  have hwithin : ∀ e ∈ entered (planSample mem arrays shards output limits capacity buckets) start
      samples.zipIdx, e.1.Within buckets :=
    entered_invariant hempty fun item _ b b' hb hsample => planSample_within hb hsample
  have harrays : ∀ e ∈ entered (planSample mem arrays shards output limits capacity buckets) start
      samples.zipIdx, e.1.arrays.length + 1 ≤ samples.length :=
    entered_weight (m := fun b : PlanBuild => b.arrays.length) (w := fun _ => 1)
      (fun item _ b b' hsample => planSample_arrays hsample) (by simp [hstart])
  have huses : ∀ e ∈ entered (planSample mem arrays shards output limits capacity buckets) start
      samples.zipIdx, e.1.uses.length + sampleWeight arrays output limits e.2.1 ≤ capacity :=
    entered_weight (m := fun b : PlanBuild => b.uses.length)
      (w := fun item => sampleWeight arrays output limits item.1)
      (fun item hitem b b' hsample => (planSample_uses (hmem item hitem) hsample).le) (by
        rw [sum_map_zipIdx]
        simpa [hstart] using hroom)
  have hsample : ∀ e ∈ entered (planSample mem arrays shards output limits capacity buckets) start
      samples.zipIdx, StorageFits samples.length capacity buckets (sampleIndexBytes e.2.1)
        (samplePathBytes e.2.1)
        (sampleWrites mem arrays shards output limits capacity buckets e.1 e.2) := by
    intro e he
    have hitem := snd_mem_of_entered he
    have hlt : e.2.2 < samples.length := by simpa using snd_lt_of_mem_zipIdx hitem
    exact sampleWrites_fits (hmem _ hitem) hpos (hwithin e he) (harrays e he) hlt (huses e he)
  refine (StorageFits.flatMap hsample).mono ?_ ?_
  · exact (sum_entered_le _ _ _ fun item : PlannerSample × ℕ => sampleIndexBytes item.1).trans
      (sum_map_zipIdx _ _).le
  · exact (sum_entered_le _ _ _ fun item : PlannerSample × ℕ => samplePathBytes item.1).trans
      (sum_map_zipIdx _ _).le

end Fit

theorem shardWrites_path {ctx : PlanSampleCtx} {build : PlanBuild} {shard : List ℕ × ℕ}
    {text : CString}
    (h : .path text ∈ shardWrites mem shards limits capacity buckets ctx build shard) :
    text = zarrShardPathBuild ctx.sample.query.uri shard.1 := by
  have hvisit : ∀ index path build coordinate,
      .path text ∉ visitWrites capacity buckets ctx index path build coordinate := by
    intro index path build coordinate hmem
    unfold visitWrites at hmem
    split at hmem
    · cases hmem
    · rcases mem_append.mp hmem with hmem | hmem <;> split at hmem <;> simp at hmem
  unfold shardWrites at h
  split at h
  · cases h
  · split at h
    · cases h
    · rename_i index _
      split at h
      · cases h
      · rcases mem_append.mp h with h | h
        · obtain ⟨path, hpath, htext⟩ := mem_map.mp h
          obtain rfl := StorageWrite.path.inj htext
          obtain ⟨entries, -, rfl⟩ := Option.map_eq_some_iff.mp (Option.mem_toList.mp hpath)
          rfl
        · split at h
          · cases h
          · obtain ⟨e, -, he⟩ := mem_flatMap.mp h
            exact absurd he (hvisit _ _ _ _)

theorem sampleWrites_path {build : PlanBuild} {item : PlannerSample × ℕ} {text : CString}
    (hs : item.1.Stored)
    (h : .path text ∈ sampleWrites mem arrays shards output limits capacity buckets build item) :
    text.length + 1 ≤ perPathBytes item.1 := by
  unfold sampleWrites at h
  split at h
  · cases h
  · rename_i metadata _
    rcases mem_append.mp h with h | h
    · rcases mem_append.mp h with h | h
      · split at h
        · simp only [mem_cons, StorageWrite.path.injEq, not_mem_nil, or_false,
            reduceCtorEq] at h
          rw [h, perPathBytes]
          omega
        · cases h
      · simp at h
    · split at h
      · rename_i hgeo hper hgrid
        rw [gridInit_eq_ok] at hgrid
        obtain ⟨e, he, hmem⟩ := mem_flatMap.mp h
        obtain ⟨hlen, hlt⟩ := shardCoord_lt hs.ne_nil hs.wf hgeo hper hgrid
          (fst_mem_of_mem_zipIdx (snd_mem_of_entered he))
        have hpath := length_zarrShardPathBuild_lt item.1.query.uri hlt
        rw [hlen] at hpath
        rw [shardWrites_path hmem]
        exact hpath.le
      · cases h

/-! ## The first pass -/

section Measure

variable {totals totals' : PlanTotals} {sample : PlannerSample}

theorem addIndexBytes_spec {maxPlanBytes bytes bytes' : ℕ} {dims : List QueryDim}
    (hle : bytes ≤ maxPlanBytes) (h : addIndexBytes maxPlanBytes bytes dims = .ok bytes') :
    bytes' = bytes + (dims.map fun dim => dim.count * sizeofQueryIndex).sum ∧
      bytes' ≤ maxPlanBytes := by
  induction dims generalizing bytes with
  | nil =>
    obtain rfl := Except.ok.inj h
    exact ⟨rfl, hle⟩
  | cons dim dims ih =>
    simp only [addIndexBytes, bind_eq_ok, failIf_eq_ok, exists_const] at h
    obtain ⟨hcheck, h⟩ := h
    obtain ⟨rfl, hle'⟩ := ih (by omega) h
    refine ⟨?_, hle'⟩
    rw [map_cons, sum_cons, Nat.add_assoc]

structure PlanTotals.Within (limits : PlanLimits) (totals : PlanTotals) : Prop where
  capacity_le : totals.capacity ≤ limits.maxChunks
  pathBytes_le : totals.pathBytes ≤ limits.maxPlanBytes
  indexBytes_le : totals.indexBytes ≤ limits.maxPlanBytes

theorem planMeasure_spec (hlimit : limits.maxPlanBytes < 2 ^ 62) (hw : totals.Within limits)
    (h : planMeasure arrays output limits totals sample = .ok totals') :
    totals'.Within limits ∧ totals'.indexBytes = totals.indexBytes + sampleIndexBytes sample ∧
      totals'.pathBytes = totals.pathBytes + samplePathBytes sample := by
  simp only [planMeasure, bind_eq_ok, failIf_eq_ok, exists_const, pure_eq_ok,
    Except.ok.injEq] at h
  obtain ⟨-, metadata, -, ⟨count, bytes⟩, hgeo, indexBytes, hindex, hcap, hper, hadd, rfl⟩ := h
  obtain ⟨rfl, hle⟩ := addIndexBytes_spec hw.indexBytes_le hindex
  have hrank : metadata.dims.length = sample.query.dims.length := by
    simp only [sampleGeometry, bind_eq_ok, failIf_eq_ok, exists_const] at hgeo
    omega
  rw [hrank] at hper hadd
  set perPath := sample.query.uri.length + 1 + 3 + sample.query.dims.length * 21 with hperPath
  have hpos : 0 < perPath := by omega
  have hmul : perPath * sample.hShards.length ≤ limits.maxPlanBytes := by
    rw [Nat.mul_comm]
    exact (Nat.le_div_iff_mul_le hpos).mp (by omega)
  have hexact : u64 (sample.query.uri.length + 1 + perPath * sample.hShards.length) =
      samplePathBytes sample := u64_of_lt (by omega)
  rw [hexact] at hadd
  refine ⟨⟨by dsimp only; omega, ?_, hle⟩, rfl, ?_⟩
  · show totals.pathBytes + u64 _ ≤ _
    rw [hrank, hexact]
    omega
  · show totals.pathBytes + u64 _ = _
    rw [hrank, hexact]

theorem foldlM_planMeasure_spec (hlimit : limits.maxPlanBytes < 2 ^ 62)
    {samples : List PlannerSample}
    (h : samples.foldlM (planMeasure arrays output limits) ⟨0, 0, 0⟩ = .ok totals) :
    totals.Within limits ∧ totals.capacity = (samples.map (sampleWeight arrays output limits)).sum ∧
      totals.indexBytes = (samples.map sampleIndexBytes).sum ∧
      totals.pathBytes = (samples.map samplePathBytes).sum := by
  have hstart : PlanTotals.Within limits ⟨0, 0, 0⟩ := ⟨Nat.zero_le _, Nat.zero_le _, Nat.zero_le _⟩
  have hinv := foldlM_ok_induction (fun done _ t => t.Within limits ∧
    t.capacity = (done.map (sampleWeight arrays output limits)).sum ∧
    t.indexBytes = (done.map sampleIndexBytes).sum ∧
    t.pathBytes = (done.map samplePathBytes).sum) ⟨hstart, rfl, rfl, rfl⟩ ?_ h
  · exact hinv
  · intro done sample rest t t' _ ⟨hw, hcap, hindex, hpath⟩ hstep
    obtain ⟨hw', hindex', hpath'⟩ := planMeasure_spec hlimit hw hstep
    have hcap' := (planMeasure_capacity hstep).1
    simp only [map_append, sum_append, map_singleton, sum_singleton]
    exact ⟨hw', by rw [hcap', hcap], by rw [hindex', hindex], by rw [hpath', hpath]⟩

end Measure

/-! ## Sizes -/

/-- The sizes that `prepared_plan_build` computes for the index copies of a sample, until it
leaves. -/
def indexSizes (maxPlanBytes : ℕ) : ℕ → List QueryDim → List ℕ
  | _, [] => []
  | bytes, dim :: dims =>
    let size := dim.count * sizeofQueryIndex
    size :: if maxPlanBytes < size ∨ maxPlanBytes - size < bytes then []
      else (bytes + size) :: indexSizes maxPlanBytes (bytes + size) dims

/-- The sizes that the body of the first loop computes, until it leaves. -/
def measureSizes (arrays : PrefetchHandle → CacheQuery ZarrMetadata) (output : BatchSpec)
    (limits : PlanLimits) (totals : PlanTotals) (sample : PlannerSample) : List ℕ :=
  match arrayMetadata arrays sample.hMeta with
  | .error _ => []
  | .ok metadata =>
    match sampleGeometry sample.query.dims metadata output limits with
    | .error _ => []
    | .ok (count, _) =>
      indexSizes limits.maxPlanBytes totals.indexBytes sample.query.dims ++
        match addIndexBytes limits.maxPlanBytes totals.indexBytes sample.query.dims with
        | .error _ => []
        | .ok _ =>
          let capacity := totals.capacity + count
          let length := sample.query.uri.length + 1
          let perPath := length + 3 + metadata.dims.length * 21
          let addition := length + perPath * sample.hShards.length
          capacity :: if limits.maxChunks < capacity then []
            else [length, length + 3, metadata.dims.length * 21, perPath] ++
              if limits.maxPlanBytes < perPath ∨
                  limits.maxPlanBytes / perPath < sample.hShards.length then []
              else [perPath * sample.hShards.length, addition] ++
                if limits.maxPlanBytes < addition ∨
                    limits.maxPlanBytes - addition < totals.pathBytes then []
                else [totals.pathBytes + addition]

def storageBytes (n : ℕ) (totals : PlanTotals) : ℕ :=
  n * (sizeofPlanArray + sizeofPlanRegion) +
    totals.capacity * (sizeofPlanChunk + sizeofPlanUse) + tableBuckets totals.capacity * 4 +
    totals.pathBytes + totals.indexBytes

def storageSizes (n : ℕ) (totals : PlanTotals) : List ℕ :=
  let records := n * (sizeofPlanArray + sizeofPlanRegion)
  let visits := totals.capacity * (sizeofPlanChunk + sizeofPlanUse)
  let table := tableBuckets totals.capacity * 4
  [2 * totals.capacity, tableBuckets totals.capacity, records, visits, records + visits, table,
    records + visits + table, records + visits + table + totals.pathBytes, storageBytes n totals,
    sizeofPreparedPlan + storageBytes n totals]

section Sizes

variable {totals : PlanTotals} {sample : PlannerSample}

theorem indexSizes_lt {maxPlanBytes bytes : ℕ} {dims : List QueryDim}
    (hlimit : maxPlanBytes < 2 ^ 62) (hcount : ∀ dim ∈ dims, dim.count * sizeofQueryIndex < 2 ^ 64) :
    ∀ size ∈ indexSizes maxPlanBytes bytes dims, size < 2 ^ 64 := by
  induction dims generalizing bytes with
  | nil => exact nofun
  | cons dim dims ih =>
    rw [forall_mem_cons] at hcount
    rw [indexSizes, forall_mem_cons]
    refine ⟨hcount.1, ?_⟩
    split
    · exact nofun
    · rw [forall_mem_cons]
      exact ⟨by omega, ih hcount.2⟩

theorem PlannerSample.Stored.count_lt (h : sample.Stored) :
    ∀ dim ∈ sample.query.dims, dim.count * sizeofQueryIndex < 2 ^ 64 := by
  obtain ⟨mallocOk, raw, hq⟩ := h
  obtain ⟨-, -, -, -, hdims⟩ := queryCopy_axes hq
  have htotal : (raw.axes.map indexCount).sum * sizeofQueryIndex < 2 ^ 64 := by
    unfold queryCopy at hq
    split at hq
    · cases hq
    · simp only [bind_eq_ok, failIf_eq_ok] at hq
      obtain ⟨-, -, -, -, -, -, -, hbytes, -⟩ := hq
      have hle := (Nat.le_div_iff_mul_le (by decide)).mp (not_lt.mp hbytes)
      simp only [uint64Max] at hle
      omega
  intro dim hdim
  obtain ⟨a, ha, hcopy⟩ : ∃ a ∈ raw.axes, queryCopyAxis a = .ok dim := by
    obtain ⟨d, hd, rfl⟩ := getElem_of_mem hdim
    exact ⟨_, getElem_mem (hdims.length_eq ▸ hd), hdims.get (hdims.length_eq ▸ hd) hd⟩
  have hcount : dim.count = indexCount a := by
    cases a with
    | interval i =>
      obtain rfl := Except.ok.inj hcopy
      rfl
    | indices values =>
      unfold queryCopyAxis at hcopy
      dsimp only at hcopy
      split at hcopy
      · cases hcopy
      · obtain rfl := Except.ok.inj hcopy
        show (sortedEntries values).length = values.length
        simp [sortedEntries, length_insertionSort]
    | unknown => cases hcopy
  have hle : dim.count ≤ (raw.axes.map indexCount).sum := by
    rw [hcount]
    exact single_le_sum (fun _ _ => Nat.zero_le _) _ (mem_map_of_mem ha)
  exact (Nat.mul_le_mul_right _ hle).trans_lt htotal

theorem PlannerSample.Stored.rank_le (h : sample.Stored) : sample.query.dims.length ≤ maxRank := by
  obtain ⟨mallocOk, raw, hq⟩ := h
  exact (queryCopy_spec hq).2.2.1

theorem measureSizes_lt (hlimit : limits.maxPlanBytes < 2 ^ 62) (hs : sample.Stored)
    (huri : sample.query.uri.length < 2 ^ 63) (hw : totals.Within limits) :
    ∀ size ∈ measureSizes arrays output limits totals sample, size < 2 ^ 64 := by
  unfold measureSizes
  split
  · exact nofun
  · rename_i metadata _
    split
    · exact nofun
    · rename_i count _ hgeo
      have hrank : metadata.dims.length = sample.query.dims.length := by
        simp only [sampleGeometry, bind_eq_ok, failIf_eq_ok, exists_const] at hgeo
        omega
      have hmax := hs.rank_le
      have hcount : count < 2 ^ 32 := by
        simp only [sampleGeometry, bind_eq_ok, pure_eq_ok, Except.ok.injEq, Prod.mk.injEq] at hgeo
        obtain ⟨-, -, -, -, size, -, grid, -, rfl, -⟩ := hgeo
        exact Nat.mod_lt _ (by decide)
      have hcap := hw.capacity_le
      have hchunks := limits.maxChunks_lt
      simp only [maxRank] at hmax
      rw [forall_mem_append]
      refine ⟨indexSizes_lt hlimit hs.count_lt, ?_⟩
      split
      · exact nofun
      · rw [forall_mem_cons]
        refine ⟨by omega, ?_⟩
        split
        · exact nofun
        · rw [forall_mem_append]
          constructor
          · simp only [forall_mem_cons, not_mem_nil, false_implies, implies_true, and_true]
            omega
          · split
            · exact nofun
            · rename_i hper
              set perPath := sample.query.uri.length + 1 + 3 + metadata.dims.length * 21
              have hmul : perPath * sample.hShards.length ≤ limits.maxPlanBytes := by
                rw [Nat.mul_comm]
                exact (Nat.le_div_iff_mul_le (by omega)).mp (by omega)
              rw [forall_mem_append]
              constructor
              · simp only [forall_mem_cons, not_mem_nil, false_implies, implies_true,
                  and_true]
                omega
              · split
                · exact nofun
                · rename_i hadd
                  rw [forall_mem_singleton]
                  omega

theorem growBuckets_le (capacity fuel buckets : ℕ) :
    growBuckets capacity fuel buckets ≤ max buckets (4 * capacity) := by
  induction fuel generalizing buckets with
  | zero => exact le_max_left _ _
  | succ fuel ih =>
    rw [growBuckets]
    split
    · exact (ih _).trans (by omega)
    · exact le_max_left _ _

theorem storageSizes_lt (hlimit : limits.maxPlanBytes < 2 ^ 62) (hn : n < 2 ^ 32)
    (hw : totals.Within limits) : ∀ size ∈ storageSizes n totals, size < 2 ^ 64 := by
  have hcap := hw.capacity_le
  have hpath := hw.pathBytes_le
  have hindex := hw.indexBytes_le
  have hchunks := limits.maxChunks_lt
  have hbuckets : tableBuckets totals.capacity ≤ max 1 (4 * totals.capacity) :=
    growBuckets_le _ _ _
  simp only [storageSizes, storageBytes, sizeofPlanArray, sizeofPlanRegion, sizeofPlanChunk,
    sizeofPlanUse, sizeofPreparedPlan, forall_mem_cons, not_mem_nil, false_implies,
    implies_true, and_true]
  omega

theorem planStorageBytes_spec (hlimit : limits.maxPlanBytes < 2 ^ 62) (hn : n < 2 ^ 32)
    (hw : totals.Within limits) {bytes : ℕ} (h : planStorageBytes limits n totals = .ok bytes) :
    bytes = storageBytes n totals ∧ sizeofPreparedPlan + bytes ≤ limits.maxPlanBytes := by
  have hsizes := storageSizes_lt hlimit hn hw
  have hbase := hsizes _ (show n * (sizeofPlanArray + sizeofPlanRegion) +
    totals.capacity * (sizeofPlanChunk + sizeofPlanUse) + tableBuckets totals.capacity * 4 +
    totals.pathBytes ∈ storageSizes n totals by simp [storageSizes])
  simp only [planStorageBytes, bind_eq_ok, failIf_eq_ok, exists_const, pure_eq_ok,
    Except.ok.injEq, u64_of_lt hbase] at h
  obtain ⟨-, hcheck, rfl⟩ := h
  refine ⟨rfl, ?_⟩
  omega

end Sizes

/-! ## The contract -/

/-- What the first pass sets aside, and what the second pass does with it. -/
structure StorageContract (mem : PlanMemory) (arrays : PrefetchHandle → CacheQuery ZarrMetadata)
    (shards : PrefetchHandle → CacheQuery (List ShardEntry)) (samples : List PlannerSample)
    (output : BatchSpec) (limits : PlanLimits) (totals : PlanTotals) (bytes : ℕ) : Prop where
  /-- The block is the sum of its sections; with the plan it is within the limit. -/
  bytes_eq : bytes = storageBytes samples.length totals
  bytes_le : sizeofPreparedPlan + bytes ≤ limits.maxPlanBytes
  /-- Every write of the second pass is inside its section. -/
  fits : StorageFits samples.length totals.capacity (tableBuckets totals.capacity) totals.indexBytes
    totals.pathBytes (planWrites mem arrays shards samples output limits totals.capacity
      (tableBuckets totals.capacity))
  /-- Every string that is copied for a sample fits the space of one path. -/
  path : ∀ build, ∀ item ∈ samples.zipIdx, ∀ text, .path text ∈ sampleWrites mem arrays shards output
    limits totals.capacity (tableBuckets totals.capacity) build item →
      text.length + 1 ≤ perPathBytes item.1

/-- **The storage block of a plan suffices.** The samples were stored by `query_copy`, their number
is a `uint32_t`, a uri is no longer than an object can be, and `max_plan_bytes` is below `2 ^ 62`.
Then no size that the first pass computes overflows; if the block is allocated, every write of the
second pass is inside the section that was set aside for it; and the plan that is returned is within
the limit. -/
theorem preparedPlanBuild_storage (mem : PlanMemory)
    (arrays : PrefetchHandle → CacheQuery ZarrMetadata)
    (shards : PrefetchHandle → CacheQuery (List ShardEntry)) (samples : List PlannerSample)
    (output : BatchSpec) (limits : PlanLimits) (hstored : ∀ s ∈ samples, s.Stored)
    (hn : samples.length < 2 ^ 32) (huri : ∀ s ∈ samples, s.query.uri.length < 2 ^ 63)
    (hlimit : limits.maxPlanBytes < 2 ^ 62) :
    (∀ e ∈ entered (planMeasure arrays output limits) ⟨0, 0, 0⟩ samples,
      ∀ size ∈ measureSizes arrays output limits e.1 e.2, size < 2 ^ 64) ∧
    (∀ totals, samples.foldlM (planMeasure arrays output limits) ⟨0, 0, 0⟩ = .ok totals →
      (∀ size ∈ storageSizes samples.length totals, size < 2 ^ 64) ∧
      ∀ bytes, planStorageBytes limits samples.length totals = .ok bytes →
        StorageContract mem arrays shards samples output limits totals bytes) ∧
    ∀ plan, preparedPlanBuild mem arrays shards samples output limits = .ok plan →
      plan.allocatedBytes ≤ limits.maxPlanBytes := by
  refine ⟨fun e he => ?_, fun totals htotals => ?_, fun plan hplan => ?_⟩
  · have hmem := snd_mem_of_entered he
    have hw : ∀ e ∈ entered (planMeasure arrays output limits) ⟨0, 0, 0⟩ samples,
        e.1.Within limits :=
      entered_invariant ⟨Nat.zero_le _, Nat.zero_le _, Nat.zero_le _⟩
        fun sample _ t t' ht hstep => (planMeasure_spec hlimit ht hstep).1
    exact measureSizes_lt hlimit (hstored _ hmem) (huri _ hmem) (hw e he)
  · obtain ⟨hw, hcap, hindex, hpath⟩ := foldlM_planMeasure_spec hlimit htotals
    refine ⟨storageSizes_lt hlimit hn hw, fun bytes hbytes => ?_⟩
    obtain ⟨heq, hle⟩ := planStorageBytes_spec hlimit hn hw hbytes
    obtain ⟨e, -, hlt⟩ := tableBuckets_spec (planMeasure_capacity_lt htotals)
    refine ⟨heq, hle, ?_, fun build item hitem text htext => ?_⟩
    · rw [hindex, hpath]
      exact planWrites_fits hstored (by omega) hcap.ge
    · exact sampleWrites_path (hstored _ (fst_mem_of_mem_zipIdx hitem)) htext
  · simp only [preparedPlanBuild, mapError_eq_ok, preparedPlanBuildExit, bind_eq_ok, failIf_eq_ok,
      exists_const, pure_eq_ok, Except.ok.injEq] at hplan
    obtain ⟨-, totals, htotals, bytes, hbytes, -, -, build, -, rfl⟩ := hplan
    exact (planStorageBytes_spec hlimit hn (foldlM_planMeasure_spec hlimit htotals).1 hbytes).2

/-- Two samples of one array: the second one copies its indices, and the path of the shard that
exists, but not the uri. -/
theorem preparedPlanBuild_storage_shared :
    StorageContract ⟨true, true, fun _ _ => true⟩ (fun _ => .ready exampleMetadata)
      (fun h => if h.slot = 0 then .ready (some [⟨0, 2⟩, ⟨2, 2⟩]) else .error .notfound)
      (List.replicate 2 ⟨exampleQuery, ⟨0, 1⟩, [⟨0, 1⟩, ⟨1, 1⟩]⟩) exampleOutput exampleLimits
      ⟨4, 108, 96⟩ 5068 := by
  have hstored : ∀ s ∈ List.replicate 2 (⟨exampleQuery, ⟨0, 1⟩, [⟨0, 1⟩, ⟨1, 1⟩]⟩ : PlannerSample),
      s.Stored := by
    intro s hs
    rw [eq_of_mem_replicate hs]
    exact ⟨true, exampleSample, by decide⟩
  exact ((preparedPlanBuild_storage _ (fun _ => .ready exampleMetadata) _ _ exampleOutput
    exampleLimits hstored (by decide) (by decide) (by decide)).2.1 ⟨4, 108, 96⟩
    (by decide +kernel)).2 5068 (by decide +kernel)

end Damacy

import Mathlib.Algebra.Order.BigOperators.GroupWithZero.List
import Damacy.Lib.RowMajor
import Damacy.Planner.PlanBuilder
import Damacy.Query.SelectionSpans

/-!
# Walking a sample shard by shard

The builder does not walk the chunk grid of a sample directly: it walks the shard grid, and in every
shard the chunk grid clipped to the shard. Because a shard consists of whole inner chunks, an inner
chunk `k` lies in shard `k / per` along every axis, so the clipped grids split the chunk grid into
blocks, one for each coordinate of the shard grid.
-/

open List Odometer ExceptFold

namespace Damacy

/-- One axis of a sample together with the extents of the array along it. -/
abbrev PlanRow := QueryDim × ZarrDim

namespace PlanRow

def chunkDim (r : PlanRow) : GridDim := { dim := r.1, cell := r.2.innerChunkShape }

def shardDim (r : PlanRow) : GridDim := { dim := r.1, cell := r.2.shardShape }

def chunkCells (r : PlanRow) : List ℕ := r.chunkDim.cells

def shardCells (r : PlanRow) : List ℕ := r.shardDim.cells

def clippedDim (r : PlanRow) (s : ℕ) : GridDim :=
  { dim := r.1
    cell := r.2.innerChunkShape
    clipBeg := some (s * r.2.per)
    clipEnd := some (s * r.2.per + r.2.per) }

/-- The inner chunks of shard `s` that the selection meets along the axis. -/
def clippedCells (r : PlanRow) (s : ℕ) : List ℕ := (r.clippedDim s).cells

/-- An axis whose shards consist of whole inner chunks. -/
structure Wf (r : PlanRow) : Prop where
  dim : r.1.Wf
  inner_pos : 0 < r.2.innerChunkShape
  shard_pos : 0 < r.2.shardShape
  dvd : r.2.innerChunkShape ∣ r.2.shardShape

variable {r : PlanRow}

theorem Wf.shard_eq (h : r.Wf) : r.2.innerChunkShape * r.2.per = r.2.shardShape :=
  Nat.mul_div_cancel' h.dvd

theorem Wf.per_pos (h : r.Wf) : 0 < r.2.per :=
  Nat.div_pos (Nat.le_of_dvd h.shard_pos h.dvd) h.inner_pos

theorem Wf.div_div (h : r.Wf) (x : ℕ) :
    x / r.2.innerChunkShape / r.2.per = x / r.2.shardShape := by
  rw [Nat.div_div_eq_div_mul, h.shard_eq]

theorem mem_chunkCells (h : r.Wf) {k : ℕ} :
    k ∈ r.chunkCells ↔ ∃ x, r.1.Selects x ∧ x / r.2.innerChunkShape = k := by
  rw [chunkCells, GridDim.mem_cells (g := r.chunkDim) h.dim h.inner_pos]
  simp [GridDim.InClip, chunkDim]

theorem mem_shardCells (h : r.Wf) {s : ℕ} :
    s ∈ r.shardCells ↔ ∃ x, r.1.Selects x ∧ x / r.2.shardShape = s := by
  rw [shardCells, GridDim.mem_cells (g := r.shardDim) h.dim h.shard_pos]
  simp [GridDim.InClip, shardDim]

theorem mem_clippedCells (h : r.Wf) {s k : ℕ} :
    k ∈ r.clippedCells s ↔ k ∈ r.chunkCells ∧ k / r.2.per = s := by
  have hblock : k / r.2.per = s ↔ s * r.2.per ≤ k ∧ k < s * r.2.per + r.2.per := by
    rw [Nat.div_eq_iff h.per_pos]
    have := h.per_pos
    omega
  rw [mem_chunkCells h, hblock, clippedCells,
    GridDim.mem_cells (g := r.clippedDim s) h.dim h.inner_pos]
  simp only [GridDim.InClip, clippedDim, Option.mem_def, Option.some.injEq, forall_eq']
  exact and_comm

theorem div_mem_shardCells (h : r.Wf) {k : ℕ} (hk : k ∈ r.chunkCells) :
    k / r.2.per ∈ r.shardCells := by
  obtain ⟨x, hx, rfl⟩ := (mem_chunkCells h).mp hk
  exact (mem_shardCells h).mpr ⟨x, hx, (h.div_div x).symm⟩

theorem shardCells_mul_lt (h : r.Wf) {s : ℕ} (hs : s ∈ r.shardCells) :
    s * r.2.per < 2 ^ 64 ∧ s * r.2.per + r.2.per < 2 ^ 64 := by
  obtain ⟨x, hx, rfl⟩ := (mem_shardCells h).mp hs
  -- the first inner chunk of the shard is at most the inner chunk of a selected index
  have hle : x / r.2.shardShape * r.2.per ≤ x := by
    rw [← h.div_div]
    exact Nat.le_trans (Nat.div_mul_le_self _ _) (Nat.div_le_self _ _)
  have hx' := (h.dim.lo_le_of_selects hx).2
  have hhi := h.dim.hi_lt
  have hper : r.2.per ≤ r.2.shardShape := Nat.div_le_self _ _
  have hshard := r.2.shardShape_lt
  refine ⟨by omega, ?_⟩
  rcases Nat.eq_zero_or_pos (x / r.2.shardShape) with h0 | hpos
  · rw [h0]
    omega
  · have : r.2.per ≤ x / r.2.shardShape * r.2.per := Nat.le_mul_of_pos_left _ hpos
    omega

end PlanRow

theorem planRows_partitions {rows : List PlanRow} (h : ∀ r ∈ rows, r.Wf) :
    Partitions rows PlanRow.chunkCells PlanRow.shardCells PlanRow.clippedCells
      (fun r k => k / r.2.per) where
  nodup_blocks _ _ := (GridDim.pairwise_cells _).imp Nat.ne_of_lt
  nodup_part _ _ _ := (GridDim.pairwise_cells _).imp Nat.ne_of_lt
  nodup_cells _ _ := (GridDim.pairwise_cells _).imp Nat.ne_of_lt
  mem_part r hr _ _ _ := PlanRow.mem_clippedCells (h r hr)
  block_mem r hr _ := PlanRow.div_mem_shardCells (h r hr)

/-! ## The three grids of a sample -/

theorem chunkGridDims_map (rows : List PlanRow) :
    chunkGridDims (rows.map Prod.fst) (rows.map Prod.snd) =
      rows.map PlanRow.chunkDim := by
  simp only [chunkGridDims, zipWith_map, zipWith_self]
  rfl

theorem shardGridDims_map (rows : List PlanRow) :
    shardGridDims (rows.map Prod.fst) (rows.map Prod.snd) =
      rows.map PlanRow.shardDim := by
  simp only [shardGridDims, zipWith_map, zipWith_self]
  rfl

theorem clippedGridDims_map {rows : List PlanRow} (h : ∀ r ∈ rows, r.Wf) {sc : List ℕ}
    (hsc : sc ∈ cartesian (rows.map PlanRow.shardCells)) :
    clippedGridDims (rows.map Prod.fst) (rows.map Prod.snd)
        (shardLo (rows.map fun r => r.2.per) sc) (shardHi (rows.map fun r => r.2.per) sc) =
      List.zipWith PlanRow.clippedDim rows sc := by
  rw [mem_cartesian, List.forall₂_map_right_iff] at hsc
  rw [clippedGridDims, chunkGridDims_map]
  induction hsc with
  | nil => rfl
  | @cons s r sc rows hs _ ih =>
    rw [forall_mem_cons] at h
    obtain ⟨h1, h2⟩ := PlanRow.shardCells_mul_lt h.1 hs
    simp only [map_cons, shardLo, shardHi, zipWith_cons_cons, zip_cons_cons,
      u64_of_lt h1, u64_of_lt h2]
    exact congrArg _ (ih h.2)

private theorem selectionGridInitAxes_of_le {maxCells : ℕ} {dims dims' : List GridDim}
    {g₀ g₀' grid : SelectionGrid} (hwf : ∀ g ∈ dims, g.dim.Wf) (hwf' : ∀ g ∈ dims', g.dim.Wf)
    (hle : List.Forall₂ (fun g g' => g'.Valid ∧ g'.cells.length ≤ g.cells.length) dims dims')
    (hcount : g₀'.count ≤ g₀.count) (h : selectionGridInitAxes maxCells g₀ dims = .ok grid) :
    ∃ grid', selectionGridInitAxes maxCells g₀' dims' = .ok grid' := by
  induction hle generalizing g₀ g₀' with
  | nil => exact ⟨g₀', rfl⟩
  | @cons g g' dims dims' hg _ ih =>
    rw [forall_mem_cons] at hwf hwf'
    have hord : ∀ d ∈ g :: dims, d.dim.Ordered :=
      forall_mem_cons.mpr ⟨hwf.1.ordered, fun d hd => (hwf.2 d hd).ordered⟩
    have hv : g.Valid := (selectionGridInitAxes_ok hord h).1 g mem_cons_self
    have hok : ¬ (g.dim.bounds.beg < 0 ∨ g.dim.bounds.stop ≤ g.dim.bounds.beg ∨ g.cell = 0) := by
      have := hv
      simp only [GridDim.Valid] at this
      omega
    have hok' : ¬ (g'.dim.bounds.beg < 0 ∨ g'.dim.bounds.stop ≤ g'.dim.bounds.beg ∨
        g'.cell = 0) := by
      have := hg.1
      simp only [GridDim.Valid] at this
      omega
    have hcells := selectionGridAxisInit_count hwf.1.ordered hv
    have hcells' := selectionGridAxisInit_count hwf'.1.ordered hg.1
    rw [GridDim.metCells_eq_cells hwf.1] at hcells
    rw [GridDim.metCells_eq_cells hwf'.1] at hcells'
    simp only [selectionGridInitAxes, hok, hok', if_false, hcells, hcells'] at h ⊢
    by_cases h0' : g'.cells.length = 0
    · -- an axis without cells passes every later check of the count
      simp only [h0', if_true]
      split at h
      · exact ih hwf.2 hwf'.2 (Nat.zero_le _) h
      · split at h
        · cases h
        · exact ih hwf.2 hwf'.2 (Nat.zero_le _) h
    · have h0 : g.cells.length ≠ 0 := by
        have := hg.2
        omega
      simp only [h0', h0, if_false] at h ⊢
      split at h
      · cases h
      · rename_i hmax
        have hprod : g₀'.count * g'.cells.length ≤ g₀.count * g.cells.length :=
          Nat.mul_le_mul hcount hg.2
        have hmax' : ¬ maxCells / g'.cells.length < g₀'.count := by
          have := (Nat.le_div_iff_mul_le (Nat.pos_of_ne_zero h0)).mp (Nat.le_of_not_lt hmax)
          rw [Nat.not_lt, Nat.le_div_iff_mul_le (Nat.pos_of_ne_zero h0')]
          omega
        simp only [hmax', if_false]
        exact ih hwf.2 hwf'.2 hprod h

/-- A grid whose axes have at most as many cells as those of a grid that initialises, initialises
under the same limit. -/
theorem selectionGridInit_of_le {dims dims' : List GridDim} {maxCells : ℕ} {grid : SelectionGrid}
    (hwf : ∀ g ∈ dims, g.dim.Wf) (hwf' : ∀ g ∈ dims', g.dim.Wf)
    (hle : List.Forall₂ (fun g g' => g'.Valid ∧ g'.cells.length ≤ g.cells.length) dims dims')
    (h : selectionGridInit dims maxCells = .ok grid) :
    ∃ grid', selectionGridInit dims' maxCells = .ok grid' := by
  unfold selectionGridInit at h ⊢
  rw [← hle.length_eq]
  split at h
  · cases h
  · rename_i hrank
    rw [if_neg hrank]
    exact selectionGridInitAxes_of_le hwf hwf' hle le_rfl h

theorem selectionGridInit_count_le {dims : List GridDim} {maxCells : ℕ} {grid : SelectionGrid}
    (h : selectionGridInit dims maxCells = .ok grid) : grid.count ≤ maxCells := by
  suffices H : ∀ {dims : List GridDim} {g₀ : SelectionGrid}, (dims ≠ [] ∨ g₀.count ≤ maxCells) →
      selectionGridInitAxes maxCells g₀ dims = .ok grid → grid.count ≤ maxCells by
    unfold selectionGridInit at h
    split at h
    · cases h
    · rename_i hrank
      exact H (.inl fun hnil => hrank (.inl (by simp [hnil]))) h
  intro dims
  induction dims with
  | nil =>
    intro g₀ hle h
    obtain rfl : g₀ = grid := by simpa [selectionGridInitAxes] using h
    simpa using hle
  | cons g rest ih =>
    intro g₀ _ h
    simp only [selectionGridInitAxes] at h
    split at h
    · cases h
    · split at h
      · exact ih (.inr (Nat.zero_le _)) h
      · rename_i hnz
        split at h
        · cases h
        · rename_i hmax
          refine ih (.inr ?_) h
          exact (Nat.le_div_iff_mul_le (Nat.pos_of_ne_zero hnz)).mp (Nat.le_of_not_lt hmax)

/-! ## Geometry -/

/-- What the checks of `sample_geometry` say of one axis. -/
structure AxisFits (dim : QueryDim) (d : ZarrDim) : Prop where
  nonneg : 0 ≤ dim.bounds.beg
  lt : dim.bounds.beg < dim.bounds.stop
  inside : u64OfInt dim.bounds.stop ≤ d.shape
  inner_ne : d.innerChunkShape ≠ 0

/-- The extent of an axis as `sample_geometry` computes it. -/
def QueryDim.extentInt (dim : QueryDim) : ℤ :=
  if dim.count ≠ 0 then (dim.count : ℤ) else dim.bounds.stop - dim.bounds.beg

structure Geometry (dims : List QueryDim) (metadata : ZarrMetadata) (output : BatchSpec)
    (limits : PlanLimits) (count bytes : ℕ) : Prop where
  fits : List.Forall₂ AxisFits dims metadata.dims
  extents : dims.map QueryDim.extentInt = output.sampleShape
  supported : castPathSupported output.dtype metadata.dtype = true
  bytes_eq : bytes = dtypeBpe metadata.dtype * (metadata.dims.map (·.innerChunkShape)).prod
  bytes_le : dims ≠ [] → bytes ≤ limits.maxChunkBytes
  grid : ∃ grid, selectionGridInit (chunkGridDims dims metadata.dims) limits.maxChunks = .ok grid ∧
    count = grid.count

theorem sampleGeometryLoop_ok {maxChunkBytes size bytes : ℕ} {dims : List QueryDim}
    {ds : List ZarrDim} {shapes : List ℤ} (hlen : dims.length = ds.length)
    (hlen' : ds.length = shapes.length)
    (h : sampleGeometryLoop maxChunkBytes size dims ds shapes = .ok bytes) :
    List.Forall₂ AxisFits dims ds ∧ dims.map QueryDim.extentInt = shapes ∧
      bytes = size * (ds.map (·.innerChunkShape)).prod ∧
      (dims ≠ [] ∨ size ≤ maxChunkBytes → bytes ≤ maxChunkBytes) := by
  induction dims generalizing size ds shapes with
  | nil =>
    obtain rfl := length_eq_zero_iff.mp hlen.symm
    obtain rfl := length_eq_zero_iff.mp hlen'.symm
    obtain rfl : size = bytes := by simpa [sampleGeometryLoop] using h
    simp
  | cons dim dims ih =>
    obtain ⟨d, ds, rfl⟩ := exists_cons_of_length_eq_add_one hlen.symm
    obtain ⟨shape, shapes, rfl⟩ := exists_cons_of_length_eq_add_one hlen'.symm
    simp only [sampleGeometryLoop, bind_eq_ok, failIf_eq_ok, exists_const] at h
    obtain ⟨hfit, hext, hmax, hrest⟩ := h
    obtain ⟨h1, h2, h3, h4⟩ := ih (by simpa using hlen) (by simpa using hlen') hrest
    have hinner : 0 < d.innerChunkShape := by omega
    have hle : size * d.innerChunkShape ≤ maxChunkBytes :=
      (Nat.le_div_iff_mul_le hinner).mp (Nat.le_of_not_lt hmax)
    refine ⟨.cons ⟨by omega, by omega, by omega, by omega⟩ h1, ?_, ?_, fun _ => h4 (.inr hle)⟩
    · rw [map_cons, h2]
      exact congrArg (· :: shapes) (Classical.not_not.mp hext)
    · rw [h3, map_cons, prod_cons, Nat.mul_assoc]

theorem sampleGeometry_ok {dims : List QueryDim} {metadata : ZarrMetadata} {output : BatchSpec}
    {limits : PlanLimits} {count bytes : ℕ} (hne : dims ≠ [])
    (h : sampleGeometry dims metadata output limits = .ok (count, bytes)) :
    Geometry dims metadata output limits count bytes := by
  simp only [sampleGeometry, bind_eq_ok, failIf_eq_ok, exists_const, gridInit, pure_eq_ok] at h
  obtain ⟨hrank, hcast, size, hsize, grid, hgrid, heq⟩ := h
  have hlen : dims.length = metadata.dims.length := by omega
  have hlen' : metadata.dims.length = output.sampleShape.length := by omega
  obtain ⟨hfits, hext, hbytes, hle⟩ := sampleGeometryLoop_ok hlen hlen' hsize
  have hgrid' := mapError_eq_ok.mp hgrid
  have hcount := selectionGridInit_count_le hgrid'
  have hsmall := limits.maxChunks_lt
  have hsmall' := limits.maxChunkBytes_lt
  have hle' := hle (.inl hne)
  rw [u32_of_lt (by omega), u32_of_lt (by omega)] at heq
  obtain ⟨rfl, rfl⟩ : grid.count = count ∧ size = bytes := by simpa using heq
  exact ⟨hfits, hext, by simpa using hcast, hbytes, fun _ => hle', grid, hgrid', rfl⟩

/-! ## The number of an inner chunk in its shard -/

theorem innerPerShardLoop_le {total t : ℕ} {dims : List ZarrDim} {per : List ℕ}
    (hle : total ≤ uint64Max) (h : innerPerShardLoop total dims = some (per, t)) :
    t ≤ uint64Max := by
  induction dims generalizing total per t with
  | nil =>
    simp only [innerPerShardLoop, Option.some.injEq, Prod.mk.injEq] at h
    omega
  | cons d rest ih =>
    simp only [innerPerShardLoop] at h
    split at h
    · cases h
    · split at h
      · cases h
      · rename_i hper
        obtain ⟨⟨per', t'⟩, hrest, heq⟩ := Option.map_eq_some_iff.mp h
        obtain ⟨-, rfl⟩ := Prod.mk.injEq .. ▸ heq
        refine ih ?_ hrest
        rcases Nat.eq_zero_or_pos (d.shardShape / d.innerChunkShape) with h0 | hpos
        · rw [h0]
          exact Nat.zero_le _
        · exact (Nat.le_div_iff_mul_le hpos).mp (by omega)

/-- The accumulation of `entry_index` never leaves 64 bits: it is the row-major offset of the
position inside the shard. -/
theorem entryIndexLoop_eq {acc : ℕ} {per coordinate : List ℕ} (hpos : ∀ p ∈ per, 0 < p)
    (hlen : coordinate.length = per.length) (hbound : (acc + 1) * per.prod ≤ 2 ^ 64) :
    entryIndexLoop acc per coordinate =
      RowMajor.ravelFrom acc per (List.zipWith (· % ·) coordinate per) := by
  induction per generalizing acc coordinate with
  | nil =>
    obtain rfl := length_eq_zero_iff.mp hlen
    rfl
  | cons p per ih =>
    obtain ⟨c, coordinate, rfl⟩ := exists_cons_of_length_eq_add_one hlen
    rw [forall_mem_cons] at hpos
    have hprod : 0 < per.prod := prod_pos hpos.2
    have hmod : c % p < p := Nat.mod_lt _ hpos.1
    have hnext : (acc * p + c % p + 1) * per.prod ≤ 2 ^ 64 := by
      refine Nat.le_trans ?_ hbound
      rw [prod_cons, ← Nat.mul_assoc]
      refine Nat.mul_le_mul_right _ ?_
      rw [Nat.add_mul, Nat.one_mul]
      omega
    have hlt : acc * p + c % p < 2 ^ 64 := by
      have := Nat.le_mul_of_pos_right (acc * p + c % p + 1) hprod
      omega
    rw [entryIndexLoop, u64_of_lt hlt, ih hpos.2 (by simpa using hlen) hnext]
    rfl

theorem entryIndexLoop_lt {per coordinate : List ℕ} (hpos : ∀ p ∈ per, 0 < p)
    (hlen : coordinate.length = per.length) (hbound : per.prod ≤ uint64Max) :
    entryIndexLoop 0 per coordinate < per.prod := by
  rw [entryIndexLoop_eq hpos hlen (by simp only [uint64Max] at hbound; omega)]
  refine RowMajor.ravel_lt ?_
  clear hbound
  induction per generalizing coordinate with
  | nil =>
    obtain rfl := length_eq_zero_iff.mp hlen
    exact .nil
  | cons p per ih =>
    obtain ⟨c, coordinate, rfl⟩ := exists_cons_of_length_eq_add_one hlen
    rw [forall_mem_cons] at hpos
    exact .cons (Nat.mod_lt _ hpos.1) (ih hpos.2 (by simpa using hlen))

/-! ## Shard by shard -/

def shardChunkCoords (dims : List QueryDim) (metadata : ZarrMetadata) (limits : PlanLimits)
    (per shardCoord : List ℕ) : List (List ℕ) :=
  match selectionGridInit (clippedGridDims dims metadata.dims (shardLo per shardCoord)
      (shardHi per shardCoord)) limits.maxChunks with
  | .ok grid => selectionGridCoords grid
  | .error _ => []

theorem planRows_wf {dims : List QueryDim} {metadata : ZarrMetadata} {output : BatchSpec}
    {limits : PlanLimits} {count bytes total maxShards : ℕ} {per : List ℕ}
    {shardGrid : SelectionGrid} (hwf : ∀ dim ∈ dims, dim.Wf)
    (hgeo : Geometry dims metadata output limits count bytes)
    (hper : zarrMetadataInnerPerShard metadata = some (per, total))
    (hshard : selectionGridInit (shardGridDims dims metadata.dims) maxShards = .ok shardGrid) :
    ∃ rows : List PlanRow, dims = rows.map Prod.fst ∧ metadata.dims = rows.map Prod.snd ∧
      (∀ r ∈ rows, r.Wf) ∧ per = rows.map (fun r => r.2.per) ∧ total = per.prod := by
  have hlen := hgeo.fits.length_eq
  set rows := dims.zip metadata.dims with hrows
  have hfst : rows.map Prod.fst = dims := map_fst_zip (by omega)
  have hsnd : rows.map Prod.snd = metadata.dims := map_snd_zip (by omega)
  obtain ⟨hdvd, hper', htotal⟩ := zarrMetadataInnerPerShard_spec hper
  refine ⟨rows, hfst.symm, hsnd.symm, fun r hr => ?_, ?_, htotal⟩
  · obtain ⟨h1, h2⟩ := of_mem_zip hr
    rw [← hfst, ← hsnd, shardGridDims_map] at hshard
    have hvalid := (selectionGridInit_spec (by
      intro g hg
      obtain ⟨r', hr', rfl⟩ := mem_map.mp hg
      exact hwf _ (of_mem_zip hr').1) hshard).1 _ (mem_map_of_mem hr)
    exact ⟨hwf _ h1, (hdvd _ h2).1, Nat.pos_of_ne_zero hvalid.2.2, (hdvd _ h2).2⟩
  · rw [hper', ← hsnd, map_map]
    rfl

variable {rows : List PlanRow} {limits : PlanLimits} {grid : SelectionGrid}

theorem chunkGrid_coords (h : ∀ r ∈ rows, r.Wf) {maxCells : ℕ}
    (hgrid : selectionGridInit (chunkGridDims (rows.map Prod.fst) (rows.map Prod.snd)) maxCells =
      .ok grid) :
    grid.count = (selectionGridCoords grid).length ∧
      selectionGridCoords grid = cartesian (rows.map PlanRow.chunkCells) := by
  rw [chunkGridDims_map] at hgrid
  obtain ⟨-, hcount, hcoords⟩ := selectionGridInit_spec (by
    intro g hg
    obtain ⟨r, hr, rfl⟩ := mem_map.mp hg
    exact (h r hr).dim) hgrid
  refine ⟨?_, by rw [hcoords, map_map]; rfl⟩
  rw [hcount, hcoords, length_cartesian, map_map, map_map, map_map]
  rfl

theorem shardGrid_coords (h : ∀ r ∈ rows, r.Wf) {maxCells : ℕ}
    (hgrid : selectionGridInit (shardGridDims (rows.map Prod.fst) (rows.map Prod.snd)) maxCells =
      .ok grid) : selectionGridCoords grid = cartesian (rows.map PlanRow.shardCells) := by
  rw [shardGridDims_map] at hgrid
  obtain ⟨-, -, hcoords⟩ := selectionGridInit_spec (by
    intro g hg
    obtain ⟨r, hr, rfl⟩ := mem_map.mp hg
    exact (h r hr).dim) hgrid
  rw [hcoords, map_map]
  rfl

theorem PlanRow.clippedCells_length_le {r : PlanRow} (h : r.Wf) (s : ℕ) :
    (r.clippedCells s).length ≤ r.chunkCells.length := by
  refine (subperm_of_subset ((GridDim.pairwise_cells _).imp Nat.ne_of_lt) ?_).length_le
  exact fun k hk => ((PlanRow.mem_clippedCells h).mp hk).1

theorem clippedGrid_coords (h : ∀ r ∈ rows, r.Wf)
    (hgrid : selectionGridInit (chunkGridDims (rows.map Prod.fst) (rows.map Prod.snd))
      limits.maxChunks = .ok grid) {sc : List ℕ}
    (hsc : sc ∈ cartesian (rows.map PlanRow.shardCells)) :
    ∃ clipped, selectionGridInit (clippedGridDims (rows.map Prod.fst) (rows.map Prod.snd)
        (shardLo (rows.map fun r => r.2.per) sc) (shardHi (rows.map fun r => r.2.per) sc))
        limits.maxChunks = .ok clipped ∧
      selectionGridCoords clipped = cartesian (List.zipWith PlanRow.clippedCells rows sc) := by
  have hdims := clippedGridDims_map h hsc
  rw [mem_cartesian, List.forall₂_map_right_iff] at hsc
  rw [chunkGridDims_map] at hgrid
  have hwf : ∀ g ∈ List.zipWith PlanRow.clippedDim rows sc, g.dim.Wf := by
    intro g hg
    obtain ⟨i, hi, rfl⟩ := getElem_of_mem hg
    rw [getElem_zipWith]
    exact (h _ (getElem_mem _)).dim
  have hle : List.Forall₂ (fun (g g' : GridDim) => g'.Valid ∧ g'.cells.length ≤ g.cells.length)
      (rows.map PlanRow.chunkDim) (List.zipWith PlanRow.clippedDim rows sc) := by
    clear hdims hgrid hwf
    induction hsc with
    | nil => exact .nil
    | @cons s r sc rows _ _ ih =>
      rw [forall_mem_cons] at h
      refine .cons ⟨⟨h.1.dim.nonneg, h.1.dim.lt, Nat.ne_of_gt h.1.inner_pos⟩, ?_⟩ (ih h.2)
      exact PlanRow.clippedCells_length_le h.1 s
  obtain ⟨clipped, hclipped⟩ := selectionGridInit_of_le (by
    intro g hg
    obtain ⟨r, hr, rfl⟩ := mem_map.mp hg
    exact (h r hr).dim) hwf hle hgrid
  refine ⟨clipped, hdims ▸ hclipped, ?_⟩
  rw [(selectionGridInit_spec hwf hclipped).2.2, map_zipWith]
  rfl

/-- **Walking the shards of a sample, and in every shard its inner chunks, walks every inner chunk
of the sample once.** -/
theorem shardChunkCoords_perm {metadata : ZarrMetadata} (h : ∀ r ∈ rows, r.Wf)
    (hds : metadata.dims = rows.map Prod.snd)
    (hgrid : selectionGridInit (chunkGridDims (rows.map Prod.fst) (rows.map Prod.snd))
      limits.maxChunks = .ok grid) :
    ((cartesian (rows.map PlanRow.shardCells)).flatMap
        (shardChunkCoords (rows.map Prod.fst) metadata limits (rows.map fun r => r.2.per))).Perm
      (cartesian (rows.map PlanRow.chunkCells)) := by
  refine List.Perm.trans (List.Perm.of_eq ?_) (planRows_partitions h).flatMap_perm
  refine flatMap_congr fun sc hsc => ?_
  obtain ⟨clipped, hclipped, hcoords⟩ := clippedGrid_coords h hgrid hsc
  rw [shardChunkCoords, hds, hclipped]
  exact hcoords

end Damacy

import Mathlib.Algebra.Order.BigOperators.GroupWithZero.List
import Damacy.Executor.CpuAssemble
import Damacy.Query.SelectionSpans

/-!
# What a use of a chunk writes

A use copies the part of a region that a chunk covers. Along one axis that part is the span of the
chunk in the region's selection, a list of output positions with their source indices; over all
axes it is the product of the spans. `regionWrites` lists the element copies of a use in these
terms, and `useRows_writes` says that the loops of the CPU executor make exactly them.
-/

open List Odometer RowMajor

namespace Damacy

/-! ## One axis -/

/-- The output positions and source indices of a region inside a chunk, along one axis. -/
def ChunkAxis.picks (a : ChunkAxis) : List (ℕ × ℕ) := a.dim.spanPicks a.span

/-- The axis belongs to chunk `cell` of a stored selection, and the chunk meets the selection. -/
structure ChunkAxis.Wf (a : ChunkAxis) (cell : ℕ) : Prop where
  dim : a.dim.Wf
  outputs_lt : ∀ o x, a.dim.Picks o x → o < a.dim.extent
  inner_pos : 0 < a.inner
  inner_lt : a.inner < 2 ^ 32
  origin_eq : a.origin = cell * a.inner
  meets : ∃ x, a.dim.Selects x ∧ x / a.inner = cell

theorem QueryDim.Selects.picks {dim : QueryDim} {x : ℕ} (h : dim.Selects x) : ∃ o, dim.Picks o x := by
  unfold QueryDim.Selects at h
  unfold QueryDim.Picks
  split at h
  · rename_i hix
    refine ⟨x - dim.lo, ?_⟩
    rw [if_pos hix]
    omega
  · rename_i hix
    obtain ⟨e, he, rfl⟩ := h
    refine ⟨e.output, ?_⟩
    rw [if_neg hix]
    exact he

namespace ChunkAxis.Wf

variable {a : ChunkAxis} {cell : ℕ}

theorem mem_picks (h : a.Wf cell) {p : ℕ × ℕ} :
    p ∈ a.picks ↔ a.dim.Picks p.1 p.2 ∧ p.2 / a.inner = cell := by
  rw [ChunkAxis.picks, ChunkAxis.span, h.origin_eq]
  exact mem_spanPicks h.dim h.inner_pos

theorem in_chunk (h : a.Wf cell) {p : ℕ × ℕ} (hp : p ∈ a.picks) :
    a.origin ≤ p.2 ∧ p.2 < a.origin + a.inner := by
  have hcell := (h.mem_picks.mp hp).2
  rw [Nat.div_eq_iff h.inner_pos] at hcell
  have hpos := h.inner_pos
  rw [h.origin_eq]
  omega

theorem output_lt (h : a.Wf cell) {p : ℕ × ℕ} (hp : p ∈ a.picks) : p.1 < a.dim.extent :=
  h.outputs_lt _ _ (h.mem_picks.mp hp).1

theorem origin_lt (h : a.Wf cell) : a.origin < 2 ^ 63 := by
  obtain ⟨x, hx, rfl⟩ := h.meets
  have hlt := (h.dim.lo_le_of_selects hx).2
  have hhi := h.dim.hi_lt
  have hle := Nat.div_mul_le_self x a.inner
  rw [h.origin_eq]
  omega

theorem span_count_pos (h : a.Wf cell) : 0 < a.span.count := by
  obtain ⟨x, hx, hcell⟩ := h.meets
  obtain ⟨o, ho⟩ := hx.picks
  have hmem : (o, x) ∈ a.picks := h.mem_picks.mpr ⟨ho, hcell⟩
  have hlen : a.picks.length = a.span.count := by simp [ChunkAxis.picks, QueryDim.spanPicks]
  rw [← hlen]
  exact length_pos_of_mem hmem

theorem count_ne_zero_iff (a : ChunkAxis) : a.dim.count ≠ 0 ↔ a.dim.indices ≠ [] := by
  simp [QueryDim.count]

theorem span_interval (h : a.Wf cell) (hix : a.dim.indices = []) :
    a.span = ⟨max a.dim.lo a.origin,
      min a.dim.hi (a.origin + a.inner) - max a.dim.lo a.origin⟩ := by
  have hlt := h.origin_lt
  have hinner := h.inner_lt
  have hcount : ¬ (a.dim.count ≠ 0) := by simp [QueryDim.count, hix]
  have hsat : ¬ (uint64Max - a.inner < a.origin) := by
    simp only [uint64Max]
    omega
  simp only [ChunkAxis.span, queryChunkSpan, hcount, hsat, if_false, h.dim.u64OfInt_beg,
    h.dim.u64OfInt_stop, SelectionSpan.mk.injEq]
  constructor
  · split_ifs <;> omega
  · split_ifs <;> omega

theorem lo_eq (h : a.Wf cell) : a.lo = max a.dim.lo a.origin := by
  simp only [ChunkAxis.lo, h.dim.u64OfInt_beg]
  split_ifs <;> omega

theorem hi_eq (h : a.Wf cell) : a.hi = min a.dim.hi (a.origin + a.inner) := by
  have hlt := h.origin_lt
  have hinner := h.inner_lt
  simp only [ChunkAxis.hi, h.dim.u64OfInt_stop, u64_of_lt (show a.origin + a.inner < 2 ^ 64 by omega)]
  split_ifs <;> omega

theorem span_count_le (h : a.Wf cell) : a.span.count ≤ a.dim.extent := by
  unfold QueryDim.extent
  split
  · rename_i hix
    rw [h.span_interval hix]
    dsimp only
    omega
  · rename_i hix
    have hcount := (count_ne_zero_iff a).mpr hix
    simp only [ChunkAxis.span, queryChunkSpan, hcount, ne_eq, not_false_eq_true, if_true]
    have := queryLowerBound_le h.dim.sorted
      (if uint64Max - a.inner < a.origin then uint64Max else a.origin + a.inner)
    omega

theorem span_end_le (h : a.Wf cell) (hix : a.dim.indices ≠ []) :
    a.span.begin_ + a.span.count ≤ a.dim.count := by
  have hcount := (count_ne_zero_iff a).mpr hix
  simp only [ChunkAxis.span, queryChunkSpan, hcount, ne_eq, not_false_eq_true, if_true]
  rw [QueryDim.count]
  have h1 := queryLowerBound_le h.dim.sorted a.origin
  have h2 := queryLowerBound_le h.dim.sorted
    (if uint64Max - a.inner < a.origin then uint64Max else a.origin + a.inner)
  omega

theorem gatherPick_eq (h : a.Wf cell) {i : ℕ} (hi : i < a.span.count) :
    gatherPick (a, i) = a.dim.pickAt (a.span.begin_ + i) := by
  have hiff := count_ne_zero_iff a
  by_cases hix : a.dim.indices = []
  · have hhi := h.dim.hi_lt
    rw [h.span_interval hix] at hi
    simp only [gatherPick, QueryDim.pickAt, hiff, hix, ne_eq, not_true, if_false, if_true,
      h.dim.u64OfInt_beg, h.span_interval hix, Prod.mk.injEq, and_true]
    dsimp only at hi
    apply u64Sub_of_le <;> omega
  · simp only [gatherPick, QueryDim.pickAt, hiff, hix, ne_eq, not_false_eq_true, if_true, if_false]

theorem copyPick_eq (h : a.Wf cell) (hix : a.dim.indices = []) {x : ℕ} (hlo : a.lo ≤ x)
    (hhi : x < a.hi) : copyPick (a, x) = a.dim.pickAt x := by
  have := h.dim.hi_lt
  rw [h.lo_eq] at hlo
  rw [h.hi_eq] at hhi
  simp only [copyPick, QueryDim.pickAt, hix, if_true, h.dim.u64OfInt_beg, Prod.mk.injEq, and_true]
  apply u64Sub_of_le <;> omega

theorem lo_lt_hi (h : a.Wf cell) (hix : a.dim.indices = []) : a.lo < a.hi := by
  have hpos := h.span_count_pos
  rw [h.span_interval hix] at hpos
  rw [h.lo_eq, h.hi_eq]
  dsimp only at hpos
  omega

theorem picks_eq_map_gatherPick (h : a.Wf cell) :
    a.picks = ((List.range' 0 a.span.count).map fun i => (a, i)).map gatherPick := by
  have hmap : ∀ i ∈ List.range' 0 a.span.count,
      gatherPick (a, i) = a.dim.pickAt (a.span.begin_ + i) := by
    intro i hi
    exact h.gatherPick_eq (by simpa using hi)
  rw [map_map, map_congr_left (f := gatherPick ∘ fun i => (a, i)) hmap, ChunkAxis.picks,
    QueryDim.spanPicks, ← range_eq_range', List.range'_eq_map_range, map_map]
  rfl

theorem picks_eq_map_copyPick (h : a.Wf cell) (hix : a.dim.indices = []) :
    a.picks = ((List.range' a.lo (a.hi - a.lo)).map fun x => (a, x)).map copyPick := by
  have hmap : ∀ x ∈ List.range' a.lo (a.hi - a.lo), copyPick (a, x) = a.dim.pickAt x := by
    intro x hx
    have := h.lo_lt_hi hix
    simp only [mem_range'_1] at hx
    exact h.copyPick_eq hix hx.1 (by omega)
  rw [map_map, map_congr_left (f := copyPick ∘ fun x => (a, x)) hmap, ChunkAxis.picks,
    QueryDim.spanPicks, h.span_interval hix, h.lo_eq, h.hi_eq]

theorem picks_interval (h : a.Wf cell) (hix : a.dim.indices = []) :
    a.picks = (List.range (a.hi - a.lo)).map fun i => (a.lo - a.dim.lo + i, a.lo + i) := by
  have hlo := h.lo_eq
  rw [h.picks_eq_map_copyPick hix, map_map, List.range'_eq_map_range, map_map]
  apply map_congr_left
  intro i hi
  have := h.lo_lt_hi hix
  rw [mem_range] at hi
  show copyPick (a, a.lo + i) = _
  rw [h.copyPick_eq hix (by omega) (by omega)]
  simp only [QueryDim.pickAt, hix, if_true, Prod.mk.injEq, and_true]
  omega

end ChunkAxis.Wf

/-! ## All axes -/

/-- The source offset inside the chunk of a list of picks, one for each axis. -/
def chunkOffset (axes : List ChunkAxis) (ps : List (ℕ × ℕ)) : ℕ :=
  ravelFrom 0 (axes.map (·.inner)) (List.zipWith (fun a p => p.2 - a.origin) axes ps)

/-- The element copies of a use: for every combination of picks, the offset in a batch whose
samples have shape `shape`, and the offset in the chunk. -/
def regionWrites (shape : List ℕ) (sample : ℕ) (axes : List ChunkAxis) : List (ℕ × ℕ) :=
  (cartesian (axes.map ChunkAxis.picks)).map fun ps =>
    (ravelFrom sample shape (ps.map Prod.fst), chunkOffset axes ps)

def Row.writes (row : Row) : List (ℕ × ℕ) :=
  (List.range row.width).map fun i => (row.destination + i, row.source + i)

/-- What the loops rely on: every axis is well formed, the sample is inside a batch of `64`-bit
size, and so is the chunk. -/
structure UseWf (shape : List ℕ) (sample : ℕ) (axes : List ChunkAxis) (coordinate : List ℕ) :
    Prop where
  axes_wf : List.Forall₂ ChunkAxis.Wf axes coordinate
  shape_eq : shape = axes.map (·.dim.extent)
  batch_lt : (sample + 1) * shape.prod < 2 ^ 63
  chunk_lt : (axes.map (·.inner)).prod < 2 ^ 32

def batchStrides (shape : List ℕ) : List ℕ := shape.prod :: strides shape

theorem rowOffsets_eq {axes : List ChunkAxis} {ps : List (ℕ × ℕ)} (st : List ℕ) (d s : ℕ)
    (h : List.Forall₂ (fun a p => a.origin ≤ p.2 ∧ p.2 < a.origin + a.inner) axes ps)
    (hst : st.length = ps.length)
    (hd : d + dot (ps.map Prod.fst) st < 2 ^ 64) (hs : (s + 1) * (axes.map (·.inner)).prod ≤ 2 ^ 64) :
    rowOffsets (d, s) (axes.zip st) ps =
      (d + dot (ps.map Prod.fst) st, ravelFrom s (axes.map (·.inner))
        (List.zipWith (fun a p => p.2 - a.origin) axes ps)) := by
  induction h generalizing st d s with
  | nil =>
    obtain rfl := length_eq_zero_iff.mp hst
    rfl
  | @cons a p axes ps hp hps ih =>
    obtain ⟨stride, st, rfl⟩ := exists_cons_of_length_eq_add_one hst
    rw [map_cons, dot_cons] at hd
    rw [map_cons, prod_cons, ← Nat.mul_assoc] at hs
    have hinner : 0 < a.inner := by omega
    have hprod : 0 < (axes.map (·.inner)).prod := by
      apply prod_pos
      intro n hn
      obtain ⟨b, hb, rfl⟩ := mem_map.mp hn
      obtain ⟨i, hi, rfl⟩ := getElem_of_mem hb
      have := hps.get hi (hps.length_eq ▸ hi)
      simp only [get_eq_getElem] at this
      omega
    -- the offset inside the chunk stays below the size of the axes seen so far
    have hle : s * a.inner + (p.2 - a.origin) + 1 ≤ (s + 1) * a.inner := by
      rw [Nat.add_mul, Nat.one_mul]
      omega
    have hnext : (s * a.inner + (p.2 - a.origin) + 1) * (axes.map (·.inner)).prod ≤ 2 ^ 64 :=
      Nat.le_trans (Nat.mul_le_mul_right _ hle) hs
    have hlt : s * a.inner + (p.2 - a.origin) < 2 ^ 64 := by
      have := Nat.le_mul_of_pos_right (s * a.inner + (p.2 - a.origin) + 1) hprod
      omega
    have hsource : u64Sub (s * a.inner + p.2) a.origin = s * a.inner + (p.2 - a.origin) := by
      rw [u64Sub_of_le (by omega) (by omega)]
      omega
    rw [zip_cons_cons, rowOffsets, u64_of_lt (by omega), hsource,
      ih _ _ _ (by simpa using hst) (by omega) hnext]
    simp only [map_cons, dot_cons, zipWith_cons_cons, ravelFrom, Nat.add_assoc]

namespace UseWf

variable {shape coordinate : List ℕ} {sample : ℕ} {axes : List ChunkAxis}

theorem length_shape (h : UseWf shape sample axes coordinate) : shape.length = axes.length := by
  simp [h.shape_eq]

theorem in_chunk (h : UseWf shape sample axes coordinate) {ps : List (ℕ × ℕ)}
    (hps : ps ∈ cartesian (axes.map ChunkAxis.picks)) :
    List.Forall₂ (fun a p => a.origin ≤ p.2 ∧ p.2 < a.origin + a.inner) axes ps := by
  rw [mem_cartesian, List.forall₂_map_right_iff] at hps
  have haxes := h.axes_wf
  clear h
  induction hps generalizing coordinate with
  | nil => exact .nil
  | cons hp _ ih =>
    obtain _ | ⟨ha, haxes⟩ := haxes
    exact .cons (ha.in_chunk hp) (ih haxes)

theorem in_sample (h : UseWf shape sample axes coordinate) {ps : List (ℕ × ℕ)}
    (hps : ps ∈ cartesian (axes.map ChunkAxis.picks)) :
    List.Forall₂ (· < ·) (ps.map Prod.fst) shape := by
  rw [mem_cartesian, List.forall₂_map_right_iff] at hps
  have haxes := h.axes_wf
  rw [h.shape_eq]
  clear h
  induction hps generalizing coordinate with
  | nil => exact .nil
  | cons hp _ ih =>
    obtain _ | ⟨ha, haxes⟩ := haxes
    exact .cons (ha.output_lt hp) (ih haxes)

theorem rowAt_eq (h : UseWf shape sample axes coordinate) {region : PlanRegion}
    (hregion : region.sample = sample) {ps : List (ℕ × ℕ)}
    (hps : ps ∈ cartesian (axes.map ChunkAxis.picks)) (width : ℕ) :
    rowAt (batchStrides shape) region axes width ps =
      ⟨ravelFrom sample shape (ps.map Prod.fst), chunkOffset axes ps, width⟩ := by
  have hsample := h.in_sample hps
  have hchunk := h.in_chunk hps
  have hlen : (ps.map Prod.fst).length = shape.length := hsample.length_eq
  have hravel := ravelFrom_eq sample hlen
  have hlt := ravel_lt hsample
  have hbatch := h.batch_lt
  rw [Nat.add_mul, Nat.one_mul] at hbatch
  have hchunk_lt := h.chunk_lt
  have hoff := rowOffsets_eq (strides shape) (sample * shape.prod) 0 hchunk
    (by simpa using hlen.symm) (by rw [dot_strides hlen]; omega) (by omega)
  simp only [rowAt, batchStrides, headD_cons, tail_cons, hregion,
    u64_of_lt (show sample * shape.prod < 2 ^ 64 by omega), hoff, dot_strides hlen, hravel,
    chunkOffset]

theorem axis_wf (h : UseWf shape sample axes coordinate) :
    ∀ a ∈ axes, ∃ cell, a.Wf cell := by
  intro a ha
  obtain ⟨i, hi, rfl⟩ := getElem_of_mem ha
  exact ⟨_, h.axes_wf.get hi (h.axes_wf.length_eq ▸ hi)⟩

end UseWf

/-! ## The loops -/

theorem visits_gatherStep {axes : List ChunkAxis} (hwf : ∀ a ∈ axes, ∃ cell, a.Wf cell) {fuel : ℕ}
    (hfuel : (axes.map fun a => a.span.count).prod ≤ fuel) :
    (visits (advance gatherStep) fuel (axes.map fun a => (a, 0))).map (List.map gatherPick) =
      cartesian (axes.map ChunkAxis.picks) := by
  have hlaps : List.Forall₂ (fun f l => Lap gatherStep f f l) (axes.map fun a => (a, 0))
      (axes.map fun a => (List.range' 0 a.span.count).map fun i => (a, i)) := by
    rw [List.forall₂_map_left_iff, List.forall₂_map_right_iff, List.forall₂_same]
    intro a ha
    obtain ⟨cell, h⟩ := hwf a ha
    have hpos := h.span_count_pos
    apply lap_range' (fun i => (a, i)) hpos
    · intro i _ hi
      simp [gatherStep, hi]
    · simp [gatherStep, Nat.sub_add_cancel hpos]
  rw [(Lap.advance hlaps).visits_eq, map_cartesian, map_map]
  · congr 1
    apply map_congr_left
    intro a ha
    obtain ⟨cell, h⟩ := hwf a ha
    exact h.picks_eq_map_gatherPick.symm
  · simpa [Function.comp_def] using hfuel

theorem visits_copyStep {axes : List ChunkAxis} (hwf : ∀ a ∈ axes, ∃ cell, a.Wf cell)
    (hix : ∀ a ∈ axes, a.dim.indices = []) {fuel : ℕ}
    (hfuel : (axes.map fun a => a.hi - a.lo).prod ≤ fuel) :
    (visits (advance copyStep) fuel (axes.map fun a => (a, a.lo))).map (List.map copyPick) =
      cartesian (axes.map ChunkAxis.picks) := by
  have hlaps : List.Forall₂ (fun f l => Lap copyStep f f l) (axes.map fun a => (a, a.lo))
      (axes.map fun a => (List.range' a.lo (a.hi - a.lo)).map fun x => (a, x)) := by
    rw [List.forall₂_map_left_iff, List.forall₂_map_right_iff, List.forall₂_same]
    intro a ha
    obtain ⟨cell, h⟩ := hwf a ha
    have hlt := h.lo_lt_hi (hix a ha)
    apply lap_range' (fun x => (a, x)) hlt
    · intro x _ hx
      simp [copyStep, hx]
    · simp [copyStep, Nat.sub_add_cancel (Nat.one_le_of_lt hlt)]
  rw [(Lap.advance hlaps).visits_eq, map_cartesian, map_map]
  · congr 1
    apply map_congr_left
    intro a ha
    obtain ⟨cell, h⟩ := hwf a ha
    exact (h.picks_eq_map_copyPick (hix a ha)).symm
  · simpa [Function.comp_def] using hfuel

/-- The product over all axes but the last, with every factor at least one, is enough fuel for an
odometer over those axes. -/
theorem prod_le_fuel (f : ChunkAxis → ℕ) {axes init : List ChunkAxis} (h : init.Sublist axes) :
    (init.map f).prod ≤ (axes.map fun a => max 1 (f a)).prod := by
  induction h with
  | slnil => simp
  | cons a _ ih =>
    rw [map_cons, prod_cons]
    exact Nat.le_trans ih (Nat.le_mul_of_pos_left _ (by omega))
  | cons_cons a _ ih =>
    rw [map_cons, map_cons, prod_cons, prod_cons]
    exact Nat.mul_le_mul (by omega) ih

section Rows

variable {shape coordinate : List ℕ} {sample : ℕ} {region : PlanRegion}

theorem writes_rows_one {axes : List ChunkAxis} (h : UseWf shape sample axes coordinate)
    (hregion : region.sample = sample) :
    ((cartesian (axes.map ChunkAxis.picks)).map
      (rowAt (batchStrides shape) region axes 1)).flatMap Row.writes =
      regionWrites shape sample axes := by
  rw [regionWrites, flatMap_map]
  refine Eq.trans (flatMap_congr fun ps hps => ?_) map_eq_flatMap.symm
  rw [h.rowAt_eq hregion hps]
  rfl

theorem writes_rows_last {init : List ChunkAxis} {last : ChunkAxis} {width : ℕ}
    (h : UseWf shape sample (init ++ [last]) coordinate) (hregion : region.sample = sample)
    (hix : last.dim.indices = []) (hwidth : width = last.hi - last.lo) :
    ((cartesian (init.map ChunkAxis.picks)).map fun ps =>
      rowAt (batchStrides shape) region (init ++ [last]) width
        (ps ++ [(last.lo - last.dim.lo, last.lo)])).flatMap Row.writes =
      regionWrites shape sample (init ++ [last]) := by
  obtain ⟨cell, hlast⟩ := h.axis_wf last (by simp)
  have hpicks := hlast.picks_interval hix
  have hlo := hlast.lo_lt_hi hix
  rw [regionWrites, map_append, map_singleton, cartesian_concat, flatMap_map,
    map_flatMap]
  apply flatMap_congr
  intro ps hps
  -- the row starts at the first pick of the last axis
  have hstart : ps ++ [(last.lo - last.dim.lo, last.lo)] ∈
      cartesian ((init ++ [last]).map ChunkAxis.picks) := by
    rw [map_append, map_singleton, cartesian_concat, mem_flatMap]
    refine ⟨ps, hps, mem_map.mpr ⟨_, ?_, rfl⟩⟩
    rw [hpicks, mem_map]
    exact ⟨0, by rw [mem_range]; omega, rfl⟩
  have hlen : ps.length = init.length := by
    simpa using (mem_cartesian.mp hps).length_eq
  obtain ⟨shape', n, hshape⟩ : ∃ shape' n, shape = shape' ++ [n] ∧ shape'.length = init.length :=
    ⟨init.map (·.dim.extent), last.dim.extent, by rw [h.shape_eq]; simp, by simp⟩
  rw [h.rowAt_eq hregion hstart, Row.writes, hpicks, map_map, map_map, hwidth]
  apply map_congr_left
  intro i _
  have hzip : ∀ x : ℕ × ℕ, List.zipWith (fun (a : ChunkAxis) (p : ℕ × ℕ) => p.2 - a.origin)
      (init ++ [last]) (ps ++ [x]) =
      List.zipWith (fun (a : ChunkAxis) (p : ℕ × ℕ) => p.2 - a.origin) init ps ++
        [x.2 - last.origin] := by
    intro x
    rw [zipWith_append hlen.symm]
    rfl
  have horigin : last.origin ≤ last.lo := by
    rw [hlast.lo_eq]
    omega
  have hdst : ∀ x, ravelFrom sample shape ((ps ++ [x]).map Prod.fst) =
      ravelFrom sample shape' (ps.map Prod.fst) * n + x.1 := by
    intro x
    rw [hshape.1, map_append, map_singleton,
      ravelFrom_concat _ _ _ (by simp [hlen, hshape.2])]
  have hsrc : ∀ x, chunkOffset (init ++ [last]) (ps ++ [x]) =
      ravelFrom 0 (init.map (·.inner))
        (List.zipWith (fun (a : ChunkAxis) (p : ℕ × ℕ) => p.2 - a.origin) init ps) * last.inner +
        (x.2 - last.origin) := by
    intro x
    rw [chunkOffset, hzip, map_append, map_singleton,
      ravelFrom_concat _ _ _ (by simp [hlen])]
  simp only [Function.comp_apply, hdst, hsrc, Prod.mk.injEq]
  omega

theorem foldl_u64_mul (f : ChunkAxis → ℕ) {axes : List ChunkAxis} (hpos : ∀ a ∈ axes, 0 < f a)
    {n : ℕ} (h : n * (axes.map f).prod < 2 ^ 64) :
    axes.foldl (fun n a => u64 (n * f a)) n = n * (axes.map f).prod := by
  induction axes generalizing n with
  | nil => simp
  | cons a axes ih =>
    rw [forall_mem_cons] at hpos
    rw [map_cons, prod_cons, ← Nat.mul_assoc] at h ⊢
    have hprod : 0 < (axes.map f).prod := by
      apply prod_pos
      simpa using hpos.2
    have hlt : n * f a < 2 ^ 64 := Nat.lt_of_le_of_lt (Nat.le_mul_of_pos_right _ hprod) h
    rw [foldl_cons, u64_of_lt hlt, ih hpos.2 h]

theorem gather_elements_ne_zero {axes : List ChunkAxis} (h : UseWf shape sample axes coordinate) :
    axes.foldl (fun n a => u64 (n * a.span.count)) 1 ≠ 0 := by
  have hpos : ∀ a ∈ axes, 0 < a.span.count := by
    intro a ha
    obtain ⟨cell, hwf⟩ := h.axis_wf a ha
    exact hwf.span_count_pos
  have hle : (axes.map fun a => a.span.count).prod ≤ shape.prod := by
    rw [h.shape_eq]
    apply List.Forall₂.prod_le_prod'
    rw [List.forall₂_map_left_iff, List.forall₂_map_right_iff, List.forall₂_same]
    intro a ha
    obtain ⟨cell, hwf⟩ := h.axis_wf a ha
    exact hwf.span_count_le
  have hbatch := h.batch_lt
  rw [Nat.add_mul, Nat.one_mul] at hbatch
  rw [foldl_u64_mul _ hpos (by omega), Nat.one_mul]
  apply Nat.ne_of_gt
  apply prod_pos
  simpa using hpos

/-- **The copy loop** copies the product of the spans. -/
theorem assembleRows_writes {axes : List ChunkAxis} (h : UseWf shape sample axes coordinate)
    (hregion : region.sample = sample) (hne : axes ≠ []) (hix : ∀ a ∈ axes, a.dim.indices = []) :
    (assembleRows (batchStrides shape) region axes).flatMap Row.writes =
      regionWrites shape sample axes := by
  obtain ⟨init, last, rfl⟩ : ∃ init last, axes = init ++ [last] :=
    ⟨_, _, (dropLast_append_getLast hne).symm⟩
  have hlast := hix last (by simp)
  obtain ⟨cell, hwf⟩ := h.axis_wf last (by simp)
  have hlt := hwf.lo_lt_hi hlast
  have hhi := hwf.dim.hi_lt
  have hhi' := hwf.hi_eq
  have hmem : ∀ a ∈ init, a ∈ init ++ [last] := fun a ha => mem_append_left _ ha
  have hvisits := visits_copyStep (fun a ha => h.axis_wf a (hmem a ha))
    (fun a ha => hix a (hmem a ha))
    (prod_le_fuel (fun a : ChunkAxis => a.hi - a.lo) (sublist_append_left init [last]))
  have hstart : copyPick (last, last.lo) = (last.lo - last.dim.lo, last.lo) := by
    rw [hwf.copyPick_eq hlast le_rfl hlt]
    simp [QueryDim.pickAt, hlast]
  rw [← writes_rows_last h hregion hlast (u64Sub_of_le hlt.le (by omega)), ← hvisits]
  simp only [assembleRows, getLast?_append, getLast?_singleton, Option.some_or,
    map_append, map_singleton, dropLast_concat, map_map, flatMap_map,
    hstart]
  rfl

/-- **The gather loop** copies the product of the spans. -/
theorem gatherRows_writes {axes : List ChunkAxis} (h : UseWf shape sample axes coordinate)
    (hregion : region.sample = sample) (hne : axes ≠ []) :
    (gatherRows (batchStrides shape) region axes).flatMap Row.writes =
      regionWrites shape sample axes := by
  have helements := gather_elements_ne_zero h
  obtain ⟨init, last, rfl⟩ : ∃ init last, axes = init ++ [last] :=
    ⟨_, _, (dropLast_append_getLast hne).symm⟩
  have hmem : ∀ a ∈ init, a ∈ init ++ [last] := fun a ha => mem_append_left _ ha
  by_cases hix : last.dim.count ≠ 0
  · have hvisits := visits_gatherStep h.axis_wf
      (prod_le_fuel (fun a : ChunkAxis => a.span.count) (List.Sublist.refl (init ++ [last])))
    rw [← writes_rows_one h hregion, ← hvisits]
    simp only [gatherRows, getLast?_append, getLast?_singleton, Option.some_or,
      helements, if_false, hix, ne_eq, not_false_eq_true, if_true, map_map]
    rfl
  · have hlast : last.dim.indices = [] := by
      simpa [QueryDim.count] using hix
    obtain ⟨cell, hwf⟩ := h.axis_wf last (by simp)
    have hspan := hwf.span_interval hlast
    have hvisits := visits_gatherStep (fun a ha => h.axis_wf a (hmem a ha))
      (prod_le_fuel (fun a : ChunkAxis => a.span.count) (sublist_append_left init [last]))
    have hstart : gatherPick (last, 0) = (last.lo - last.dim.lo, last.lo) := by
      rw [hwf.gatherPick_eq hwf.span_count_pos, hwf.lo_eq, hspan]
      simp [QueryDim.pickAt, hlast]
    have hwidth : last.span.count = last.hi - last.lo := by
      rw [hspan, hwf.lo_eq, hwf.hi_eq]
    rw [← writes_rows_last h hregion hlast hwidth, ← hvisits]
    simp only [gatherRows, getLast?_append, getLast?_singleton, Option.some_or,
      helements, if_false, hix, map_append, map_singleton, dropLast_concat,
      map_map, hstart]
    rfl

end Rows

end Damacy

import Damacy.Query.SelectionSpans

/-!
# Stored axes and the spans of their cells

The planner and both executors read a selection cell by cell, through the spans of
`query_chunk_span`. Here is what they rely on (`queryCopy_stored`): an index axis is stored as its
pairs of value and position in ascending order, the bounds are the hull of the selection, and for
every grid the spans of the cells that meet the bounds partition the axis.
-/

open List

namespace Damacy

section Partition

variable {dim : QueryDim} {size : ℕ}

def QueryDim.hullCells (dim : QueryDim) (size : ℕ) : List ℕ :=
  List.range' (dim.lo / size) ((dim.hi - 1) / size + 1 - dim.lo / size)

def QueryDim.sourceAt (dim : QueryDim) (p : ℕ) : ℕ := (dim.pickAt p).2

theorem sourceAt_bounds (hwf : dim.Wf) {p : ℕ} (hp : p ∈ dim.places) :
    dim.lo ≤ dim.sourceAt p ∧ dim.sourceAt p < dim.hi := by
  have hlt := hwf.lo_lt_hi
  rw [QueryDim.sourceAt, QueryDim.pickAt]
  rw [QueryDim.places] at hp
  by_cases hix : dim.indices = []
  · rw [if_pos hix, mem_range'_1] at hp
    rw [if_pos hix]
    show dim.lo ≤ p ∧ p < dim.hi
    omega
  · rw [if_neg hix, mem_range] at hp
    rw [if_neg hix, getD_eq_getElem _ _ hp]
    exact hwf.inside _ (getElem_mem hp)

theorem sourceAt_mono (hwf : dim.Wf) {p q : ℕ} (hp : p ∈ dim.places) (hq : q ∈ dim.places)
    (hpq : p ≤ q) : dim.sourceAt p ≤ dim.sourceAt q := by
  rw [QueryDim.places] at hp hq
  rw [QueryDim.sourceAt, QueryDim.sourceAt, QueryDim.pickAt, QueryDim.pickAt]
  by_cases hix : dim.indices = []
  · rw [if_pos hix, if_pos hix]
    exact hpq
  · rw [if_neg hix, mem_range] at hp hq
    rw [if_neg hix, if_neg hix, getD_eq_getElem _ _ hp, getD_eq_getElem _ _ hq]
    exact hwf.sorted.source_le (getElem?_eq_getElem hp) (getElem?_eq_getElem hq) hpq

theorem pairwise_places (dim : QueryDim) : dim.places.Pairwise (· < ·) := by
  rw [QueryDim.places]
  split
  · exact pairwise_lt_range'
  · exact pairwise_lt_range

/-- **The spans of the cells partition an axis**: one after the other they are its entries or
positions. -/
theorem flatMap_span_places (hwf : dim.Wf) (hsize : 0 < size) :
    ((dim.hullCells size).flatMap fun cell =>
      (queryChunkSpan dim (cell * size) size).places) = dim.places := by
  refine List.Pairwise.eq_of_mem_iff (r := (· < ·)) ?_ (pairwise_places dim) fun p => ?_
  · rw [pairwise_flatMap]
    refine ⟨fun cell _ => pairwise_lt_range', ?_⟩
    refine List.Pairwise.imp (fun {c d} hcd p hp q hq => ?_) pairwise_lt_range'
    obtain ⟨hp, hpc⟩ := (mem_span_places hwf hsize).mp hp
    obtain ⟨hq, hqd⟩ := (mem_span_places hwf hsize).mp hq
    -- an entry of a later cell is not before one of an earlier cell
    by_contra hle
    have := Nat.div_le_div_right (c := size) (sourceAt_mono hwf hq hp (not_lt.mp hle))
    rw [QueryDim.sourceAt, QueryDim.sourceAt, hpc, hqd] at this
    omega
  · rw [mem_flatMap]
    constructor
    · rintro ⟨cell, -, hp⟩
      exact ((mem_span_places hwf hsize).mp hp).1
    · intro hp
      obtain ⟨hlo, hhi⟩ := sourceAt_bounds hwf hp
      refine ⟨dim.sourceAt p / size, ?_, (mem_span_places hwf hsize).mpr ⟨hp, rfl⟩⟩
      have h1 := Nat.div_le_div_right (c := size) hlo
      have h2 := Nat.div_le_div_right (c := size) (Nat.le_sub_one_of_lt hhi)
      rw [QueryDim.hullCells, mem_range'_1]
      omega

end Partition

/-! ## What `query_copy` stores -/

/-- The bounds of a stored axis: the smallest half-open interval around the selected indices. -/
structure QueryDim.TightHull (dim : QueryDim) : Prop where
  first : ∃ p ∈ dim.places, (dim.sourceAt p : ℤ) = dim.bounds.beg
  last : ∃ p ∈ dim.places, (dim.sourceAt p : ℤ) + 1 = dim.bounds.stop
  inside : ∀ p ∈ dim.places, dim.bounds.beg ≤ dim.sourceAt p ∧ dim.sourceAt p < dim.bounds.stop

def AxisSelection.StoredAs : AxisSelection → QueryDim → Prop
  | .interval i, dim => dim = ⟨i, []⟩
  | .indices values, dim =>
    dim.indices ≠ [] ∧ (dim.indices.map fun e => ((e.source : ℤ), e.output)).Perm values.zipIdx ∧
      dim.indices.Pairwise fun a b => a.source < b.source ∨ a.source = b.source ∧ a.output < b.output
  | .unknown, _ => False

structure AxisSelection.Stored (a : AxisSelection) (dim : QueryDim) : Prop where
  stored : a.StoredAs dim
  hull : dim.TightHull
  /-- The span of a cell holds exactly what lies in the cell. -/
  cell : ∀ size, 0 < size → ∀ cell p, p ∈ (queryChunkSpan dim (cell * size) size).places ↔
    p ∈ dim.places ∧ dim.sourceAt p / size = cell
  /-- The spans of the cells that meet the bounds partition the axis. -/
  partition : ∀ size, 0 < size → ((dim.hullCells size).flatMap fun cell =>
    (queryChunkSpan dim (cell * size) size).places) = dim.places

section Stored

variable {values : List ℤ} {dim : QueryDim}

theorem sortedEntries_zipIdx (hgood : ¬ values.any badIndex = true) :
    ((sortedEntries values).map fun e => ((e.source : ℤ), e.output)).Perm values.zipIdx := by
  refine ((perm_sortedEntries values).map _).trans (List.Perm.of_eq ?_)
  rw [map_map]
  refine (map_congr_left fun v hv => ?_).trans (map_id _)
  -- only nonnegative values are accepted
  have hnonneg : 0 ≤ v.1 := by
    by_contra hneg
    refine hgood (any_eq_true.mpr ⟨v.1, ?_, by simp [badIndex]; omega⟩)
    exact mem_of_getElem? (mem_zipIdx_iff_getElem?.mp hv)
  simp [Int.toNat_of_nonneg hnonneg]

theorem sortedEntries_pairwise (values : List ℤ) : (sortedEntries values).Pairwise fun a b =>
    a.source < b.source ∨ a.source = b.source ∧ a.output < b.output := by
  have hsorted : (sortedEntries values).Pairwise compareIndices := pairwise_insertionSort _ _
  have hne : (sortedEntries values).Pairwise fun a b => a.output ≠ b.output :=
    pairwise_map.mp (nodup_sortedEntries_output values)
  refine (hsorted.and hne).imp fun {a b} hab => ?_
  obtain ⟨hle, hne⟩ := hab
  unfold compareIndices at hle
  omega

theorem tightHull_interval {i : Interval} (hwf : QueryDim.Wf ⟨i, []⟩) :
    QueryDim.TightHull ⟨i, []⟩ := by
  have hnonneg : 0 ≤ i.beg := hwf.nonneg
  have hlt : i.beg < i.stop := hwf.lt
  have hplaces : ∀ p, p ∈ QueryDim.places ⟨i, []⟩ ↔ i.beg.toNat ≤ p ∧ p < i.stop.toNat := by
    intro p
    simp only [QueryDim.places, if_true, mem_range'_1, QueryDim.lo, QueryDim.hi]
    omega
  have hsource : ∀ p, QueryDim.sourceAt ⟨i, []⟩ p = p := fun p => rfl
  refine ⟨⟨i.beg.toNat, (hplaces _).mpr (by omega), ?_⟩,
    ⟨i.stop.toNat - 1, (hplaces _).mpr (by omega), ?_⟩, fun p hp => ?_⟩
  · rw [hsource]
    exact Int.toNat_of_nonneg hnonneg
  · rw [hsource]
    show ((i.stop.toNat - 1 : ℕ) : ℤ) + 1 = i.stop
    omega
  · rw [hplaces] at hp
    rw [hsource]
    show i.beg ≤ p ∧ (p : ℤ) < i.stop
    omega

theorem tightHull_indices {l : List QueryIndex} (hs : SortedEntries l) (hne : l ≠ []) :
    QueryDim.TightHull
      ⟨⟨(l.headD ⟨0, 0⟩).source, (l.getLastD ⟨0, 0⟩).source + 1⟩, l⟩ := by
  have hpos : 0 < l.length := length_pos_of_ne_nil hne
  set dim : QueryDim := ⟨⟨(l.headD ⟨0, 0⟩).source, (l.getLastD ⟨0, 0⟩).source + 1⟩, l⟩ with hdim
  have hplaces : ∀ p, p ∈ dim.places ↔ p < l.length := fun p => by
    rw [QueryDim.places, if_neg hne, mem_range]
  have hsource : ∀ p (hp : p < l.length), dim.sourceAt p = l[p].source := fun p hp => by
    rw [QueryDim.sourceAt, QueryDim.pickAt, if_neg hne, getD_eq_getElem _ _ hp]
  have hhead : l.headD ⟨0, 0⟩ = l[0] := by
    rw [headD_eq_head?_getD, head?_eq_getElem?, getElem?_eq_getElem hpos,
      Option.getD_some]
  have hlast : l.getLastD ⟨0, 0⟩ = l[l.length - 1] := by
    rw [getLastD_eq_getLast?, getLast?_eq_getElem?,
      getElem?_eq_getElem (by omega), Option.getD_some]
  refine ⟨⟨0, (hplaces 0).mpr hpos, ?_⟩, ⟨l.length - 1, (hplaces _).mpr (by omega), ?_⟩,
    fun p hp => ?_⟩
  · rw [hsource 0 hpos, ← hhead]
  · rw [hsource _ (by omega), ← hlast]
  · rw [hplaces] at hp
    have := hs.head_last (getElem_mem hp)
    rw [hsource p hp]
    show ((l.headD ⟨0, 0⟩).source : ℤ) ≤ _ ∧ _ < ((l.getLastD ⟨0, 0⟩).source : ℤ) + 1
    omega

end Stored

theorem queryCopyAxis_stored {a : AxisSelection} (hr : a.InRange) {n : ℕ}
    (hlen : axisLength a = .ok n) {dim : QueryDim} (h : queryCopyAxis a = .ok dim) :
    a.Stored dim := by
  have hstores := (queryCopyAxis_stores hr hlen h).1
  suffices hparts : a.StoredAs dim ∧ dim.TightHull from
    ⟨hparts.1, hparts.2, fun _ hsize _ _ => mem_span_places hstores.wf hsize,
      fun _ hsize => flatMap_span_places hstores.wf hsize⟩
  cases a with
  | interval i =>
    obtain rfl : (⟨i, []⟩ : QueryDim) = dim := by simpa [queryCopyAxis] using h
    exact ⟨rfl, tightHull_interval hstores.wf⟩
  | indices values =>
    by_cases hbad : values.any badIndex = true
    · simp [queryCopyAxis, hbad] at h
    simp only [queryCopyAxis, hbad, Bool.false_eq_true, if_false, Except.ok.injEq] at h
    subst h
    have hne : values ≠ [] := fun hnil => by simp [axisLength, hnil] at hlen
    have hcne : sortedEntries values ≠ [] := fun hnil =>
      hne (length_eq_zero_iff.mp (by rw [← length_sortedEntries, hnil]; rfl))
    exact ⟨⟨hcne, sortedEntries_zipIdx hbad, sortedEntries_pairwise values⟩,
      tightHull_indices (sortedEntries_sorted values) hcne⟩
  | unknown => cases hlen

theorem forall₂_stored {axes : List AxisSelection} {dims : List QueryDim} {lengths : List ℕ}
    (hr : ∀ a ∈ axes, a.InRange) (hlen : List.Forall₂ (fun a n => axisLength a = .ok n) axes lengths)
    (hcopy : List.Forall₂ (fun a dim => queryCopyAxis a = .ok dim) axes dims) :
    List.Forall₂ AxisSelection.Stored axes dims := by
  induction hcopy generalizing lengths with
  | nil => exact .nil
  | cons hc _ ih =>
    obtain _ | ⟨hl, hlen⟩ := hlen
    rw [forall_mem_cons] at hr
    exact .cons (queryCopyAxis_stored hr.1 hl hc) (ih hr.2 hlen)

/-- **What `query_copy` stores**: every axis in ascending order with its hull, such that spans can
be read off cell by cell. -/
theorem queryCopy_stored {mallocOk : Bool} {sample : Sample} {q : Query}
    (h : queryCopy mallocOk sample = .ok q) :
    List.Forall₂ AxisSelection.Stored sample.axes q.dims := by
  obtain ⟨-, -, lengths, hlens, hdims⟩ := queryCopy_axes h
  exact forall₂_stored sample.inRange hlens hdims

def repeatedSample : Sample :=
  { uri := some [0x61], axes := [.indices [9, 2, 9], .interval ⟨3, 8⟩] }

theorem queryCopy_stored_repeated : ∃ q, queryCopy true repeatedSample = .ok q ∧
    List.Forall₂ AxisSelection.Stored repeatedSample.axes q.dims ∧
    q.dims = [⟨⟨2, 10⟩, [⟨2, 1⟩, ⟨9, 0⟩, ⟨9, 2⟩]⟩, ⟨⟨3, 8⟩, []⟩] := by
  have hcopy : (queryCopy true repeatedSample).toOption =
      some ⟨[0x61], [⟨⟨2, 10⟩, [⟨2, 1⟩, ⟨9, 0⟩, ⟨9, 2⟩]⟩, ⟨⟨3, 8⟩, []⟩]⟩ := by decide +kernel
  cases hq : queryCopy true repeatedSample with
  | error e =>
    rw [hq] at hcopy
    cases hcopy
  | ok q =>
    rw [hq] at hcopy
    obtain rfl := Option.some.inj hcopy
    exact ⟨_, rfl, queryCopy_stored hq, rfl⟩

/-- The end of this cell is not a `uint64_t`, and the selection is before the cell. -/
example : queryChunkSpan ⟨⟨2, 10⟩, [⟨2, 1⟩, ⟨9, 0⟩, ⟨9, 2⟩]⟩ (2 ^ 64 - 8) 8 = ⟨3, 0⟩ := by
  decide +kernel

end Damacy

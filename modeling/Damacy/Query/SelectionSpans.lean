import Mathlib.Data.List.GetD
import Mathlib.Tactic.Ring
import Damacy.Lib.ExceptFold
import Damacy.Query.SelectionGrid

/-!
# What a stored selection selects

An axis of a sample is a function from output positions to source indices. `queryCopy_spec` says
that the stored form of a sample still is that function, and `mem_span_places` that the span of a
cell holds exactly the entries or positions whose source index lies in the cell. Both copy loops and
both kernels of the executors walk spans, so this is what relates them to the caller's selection.
-/

open List ExceptFold

namespace Damacy

/-! ## Positions of an axis -/

def AxisSelection.extent : AxisSelection → ℕ
  | .interval i => (i.stop - i.beg).toNat
  | .indices values => values.length
  | .unknown => 0

def AxisSelection.index : AxisSelection → ℕ → ℕ
  | .interval i, o => i.beg.toNat + o
  | .indices values, o => (values.getD o 0).toNat
  | .unknown, _ => 0

def QueryDim.Picks (dim : QueryDim) (o x : ℕ) : Prop :=
  if dim.indices = [] then x = dim.lo + o ∧ x < dim.hi else ⟨x, o⟩ ∈ dim.indices

def QueryDim.extent (dim : QueryDim) : ℕ :=
  if dim.indices = [] then dim.hi - dim.lo else dim.indices.length

/-- The output position and source index that entry (index axis) or position (interval axis) `p`
of a span stands for. -/
def QueryDim.pickAt (dim : QueryDim) (p : ℕ) : ℕ × ℕ :=
  if dim.indices = [] then (p - dim.lo, p)
  else ((dim.indices.getD p ⟨0, 0⟩).output, (dim.indices.getD p ⟨0, 0⟩).source)

def QueryDim.spanPicks (dim : QueryDim) (span : SelectionSpan) : List (ℕ × ℕ) :=
  (List.range' span.begin_ span.count).map dim.pickAt

/-- The stored axis `dim` is the axis `a`: it is well formed, and position by position it takes
the same source index. -/
structure Stores (a : AxisSelection) (dim : QueryDim) : Prop where
  wf : dim.Wf
  extent : dim.extent = a.extent
  picks : ∀ o x, dim.Picks o x ↔ o < a.extent ∧ x = a.index o
  outputs : (dim.indices.map (·.output)).Nodup
  extent_lt : dim.extent < 2 ^ 63

/-! ## Copying -/

instance : IsTrans QueryIndex compareIndices :=
  ⟨fun a b c hab hbc => by unfold compareIndices at *; omega⟩

instance : Std.Total compareIndices :=
  ⟨fun a b => by unfold compareIndices; omega⟩

theorem SortedEntries.of_compareIndices {l : List QueryIndex} (h : l.Pairwise compareIndices) :
    SortedEntries l :=
  h.imp fun hab => by unfold compareIndices at hab; omega

theorem stores_interval {i : Interval} (hr : AxisSelection.InRange (.interval i))
    (hlen : ¬ (i.beg < 0 ∨ i.stop ≤ i.beg)) : Stores (.interval i) ⟨i, []⟩ where
  wf := ⟨by simp only; omega, by simp only; omega, hr.2.2, List.Pairwise.nil, by simp⟩
  extent := by
    simp only [QueryDim.extent, AxisSelection.extent, QueryDim.hi, QueryDim.lo, if_true]
    omega
  picks := by
    intro o x
    simp only [QueryDim.Picks, AxisSelection.extent, AxisSelection.index, QueryDim.hi, QueryDim.lo,
      if_true]
    omega
  outputs := by simp
  extent_lt := by
    have := hr.2.2
    simp only [QueryDim.extent, QueryDim.hi, QueryDim.lo, if_true]
    omega

theorem perm_sortedEntries (values : List ℤ) :
    (sortedEntries values).Perm (values.zipIdx.map fun v => QueryIndex.mk v.1.toNat v.2) :=
  perm_insertionSort _ _

@[simp] theorem length_sortedEntries (values : List ℤ) :
    (sortedEntries values).length = values.length := by
  simpa using (perm_sortedEntries values).length_eq

theorem sortedEntries_sorted (values : List ℤ) : SortedEntries (sortedEntries values) :=
  .of_compareIndices (pairwise_insertionSort _ _)

theorem mem_sortedEntries {values : List ℤ} {e : QueryIndex} :
    e ∈ sortedEntries values ↔
      e.output < values.length ∧ e.source = (values.getD e.output 0).toNat := by
  rw [(perm_sortedEntries values).mem_iff]
  simp only [mem_map, Prod.exists, mk_mem_zipIdx_iff_getElem?]
  constructor
  · rintro ⟨v, i, hi, rfl⟩
    obtain ⟨hlt, rfl⟩ := List.getElem?_eq_some_iff.mp hi
    simp [List.getD, hlt]
  · rintro ⟨hlt, hsrc⟩
    refine ⟨values[e.output], e.output, getElem?_eq_getElem hlt, ?_⟩
    cases e
    simp_all [List.getD]

theorem nodup_sortedEntries_output (values : List ℤ) :
    ((sortedEntries values).map (·.output)).Nodup := by
  have hout : (values.zipIdx.map fun v => QueryIndex.mk v.1.toNat v.2).map (·.output) =
      List.range' 0 values.length := by
    simp [map_map, Function.comp_def]
  exact (((perm_sortedEntries values).map _).nodup_iff).mpr (hout ▸ nodup_range')

theorem source_lt_of_mem_sortedEntries {values : List ℤ}
    (hr : AxisSelection.InRange (.indices values)) (hgood : ¬ values.any badIndex = true)
    {e : QueryIndex} (he : e ∈ sortedEntries values) : e.source < 2 ^ 63 - 1 := by
  obtain ⟨hlt, hsrc⟩ := mem_sortedEntries.mp he
  have hv : values[e.output] ∈ values := getElem_mem hlt
  have hbad : badIndex values[e.output] = false := by
    simpa using fun hb => hgood (any_eq_true.mpr ⟨_, hv, hb⟩)
  have hin := hr.2 _ hv
  simp only [badIndex, int64Max, InInt64, Bool.or_eq_false_iff, decide_eq_false_iff_not,
    beq_eq_false_iff_ne] at hbad hin
  simp only [List.getD, getElem?_eq_getElem hlt, Option.getD_some] at hsrc
  omega

theorem SortedEntries.head_last {l : List QueryIndex} (hs : SortedEntries l) {e : QueryIndex}
    (he : e ∈ l) :
    (l.headD ⟨0, 0⟩).source ≤ e.source ∧ e.source ≤ (l.getLastD ⟨0, 0⟩).source := by
  obtain ⟨i, hi, rfl⟩ := getElem_of_mem he
  have hne : l ≠ [] := ne_nil_of_mem he
  have hget : l[i]? = some l[i] := getElem?_eq_getElem hi
  constructor
  · refine hs.source_le (i := 0) (j := i) ?_ hget (Nat.zero_le _)
    rw [← head?_eq_getElem?]
    simp [head?_eq_some_head hne]
  · refine hs.source_le (i := i) (j := l.length - 1) hget ?_ (by omega)
    rw [← getLast?_eq_getElem?]
    simp [getLast?_eq_some_getLast hne]

theorem stores_indices {values : List ℤ} (hr : AxisSelection.InRange (.indices values))
    (hne : values ≠ []) (hgood : ¬ values.any badIndex = true) {dim : QueryDim}
    (h : queryCopyAxis (.indices values) = .ok dim) : Stores (.indices values) dim := by
  simp only [queryCopyAxis, hgood, Bool.false_eq_true, if_false, Except.ok.injEq] at h
  subst h
  have hs := sortedEntries_sorted values
  have hcne : sortedEntries values ≠ [] := fun hnil =>
    hne (length_eq_zero_iff.mp (by rw [← length_sortedEntries, hnil]; rfl))
  -- the hull is taken from the first and the last entry
  have hhead : (sortedEntries values).headD ⟨0, 0⟩ = (sortedEntries values).head hcne := by
    simp [headD_eq_head?_getD, head?_eq_some_head hcne]
  have hlast : (sortedEntries values).getLastD ⟨0, 0⟩ = (sortedEntries values).getLast hcne := by
    simp [getLastD_eq_getLast?, getLast?_eq_some_getLast hcne]
  have hlt := source_lt_of_mem_sortedEntries hr hgood (getLast_mem hcne)
  have hle := (hs.head_last (head_mem hcne)).2
  rw [hlast] at hle
  refine ⟨⟨Int.natCast_nonneg _, ?_, ?_, hs, ?_⟩, ?_, ?_, nodup_sortedEntries_output values, ?_⟩
  · simp only [hhead, hlast]
    omega
  · simp only [hlast]
    omega
  · intro e he
    have := hs.head_last he
    simp only [QueryDim.lo, QueryDim.hi]
    omega
  · simp [QueryDim.extent, AxisSelection.extent, hcne]
  · intro o x
    simp only [QueryDim.Picks, hcne, if_false, mem_sortedEntries, AxisSelection.extent,
      AxisSelection.index]
  · have := hr.1
    simp only [QueryDim.extent, hcne, if_false, length_sortedEntries]
    omega

theorem queryCopyAxis_stores {a : AxisSelection} (hr : a.InRange) {n : ℕ}
    (hlen : axisLength a = .ok n) {dim : QueryDim} (h : queryCopyAxis a = .ok dim) :
    Stores a dim ∧ a.extent = n := by
  cases a with
  | interval i =>
    simp only [axisLength] at hlen
    split at hlen
    · cases hlen
    · rename_i hok
      obtain rfl : (⟨i, []⟩ : QueryDim) = dim := by simpa [queryCopyAxis] using h
      obtain rfl : u64OfInt (i.stop - i.beg) = n := by simpa using hlen
      refine ⟨stores_interval hr hok, ?_⟩
      rw [u64OfInt_of_nonneg (by omega) (by have := hr.2.2; omega)]
      rfl
  | indices values =>
    simp only [axisLength] at hlen
    split at hlen
    · cases hlen
    · rename_i hne
      obtain rfl : values.length = n := by simpa using hlen
      refine ⟨stores_indices hr hne (fun hbad => ?_) h, rfl⟩
      simp [queryCopyAxis, hbad] at h
  | unknown => cases hlen

theorem forall₂_stores {axes : List AxisSelection} {dims : List QueryDim} {lengths : List ℕ}
    (hr : ∀ a ∈ axes, a.InRange) (hlen : List.Forall₂ (fun a n => axisLength a = .ok n) axes lengths)
    (hcopy : List.Forall₂ (fun a dim => queryCopyAxis a = .ok dim) axes dims) :
    List.Forall₂ Stores axes dims := by
  induction hcopy generalizing lengths with
  | nil => exact .nil
  | cons hc _ ih =>
    obtain _ | ⟨hl, hlen⟩ := hlen
    rw [forall_mem_cons] at hr
    exact .cons (queryCopyAxis_stores hr.1 hl hc).1 (ih hr.2 hlen)

theorem queryCopy_axes {mallocOk : Bool} {sample : Sample} {q : Query}
    (h : queryCopy mallocOk sample = .ok q) :
    sample.uri = some q.uri ∧ ¬ (sample.axes.length = 0 ∨ maxRank < sample.axes.length) ∧
      ∃ lengths, List.Forall₂ (fun a n => axisLength a = .ok n) sample.axes lengths ∧
        List.Forall₂ (fun a dim => queryCopyAxis a = .ok dim) sample.axes q.dims := by
  unfold queryCopy at h
  split at h
  · cases h
  · rename_i uri huri
    simp only [pure_eq_ok, bind_eq_ok, failIf_eq_ok] at h
    obtain ⟨-, hrank, -, -, lengths, hlens, -, -, -, -, dims, hdims, hq⟩ := h
    obtain rfl : Query.mk uri dims = q := by simpa using hq
    exact ⟨huri, hrank, lengths, mapM_eq_ok.mp hlens, mapM_eq_ok.mp hdims⟩

/-- **A stored sample is the caller's sample**: same uri, and every axis takes the same source
index at every output position. -/
theorem queryCopy_spec {mallocOk : Bool} {sample : Sample} {q : Query}
    (h : queryCopy mallocOk sample = .ok q) :
    sample.uri = some q.uri ∧ q.dims ≠ [] ∧ q.dims.length ≤ maxRank ∧
      List.Forall₂ Stores sample.axes q.dims := by
  obtain ⟨huri, hrank, lengths, hlens, hdims⟩ := queryCopy_axes h
  have hstores := forall₂_stores sample.inRange hlens hdims
  rw [hstores.length_eq, length_eq_zero_iff] at hrank
  exact ⟨huri, fun hnil => hrank (.inl hnil), by omega, hstores⟩

/-! ## Spans -/

/-- The entries (index axis) or positions (interval axis) of a stored axis, in ascending order of
their source index. -/
def QueryDim.places (dim : QueryDim) : List ℕ :=
  if dim.indices = [] then List.range' dim.lo (dim.hi - dim.lo) else List.range dim.indices.length

def SelectionSpan.places (span : SelectionSpan) : List ℕ := List.range' span.begin_ span.count

section Spans

variable {dim : QueryDim} {cell size : ℕ}

theorem picks_iff (hwf : dim.Wf) {o x : ℕ} :
    dim.Picks o x ↔ ∃ p ∈ dim.places, dim.pickAt p = (o, x) := by
  have hlt := hwf.lo_lt_hi
  by_cases hix : dim.indices = []
  · simp only [QueryDim.Picks, QueryDim.places, QueryDim.pickAt, hix, if_true, mem_range'_1,
      Prod.mk.injEq]
    constructor
    · rintro ⟨rfl, hx⟩
      exact ⟨dim.lo + o, by omega, by omega, rfl⟩
    · rintro ⟨p, hp, rfl, rfl⟩
      omega
  · simp only [QueryDim.Picks, QueryDim.places, QueryDim.pickAt, hix, if_false, mem_range,
      Prod.mk.injEq]
    constructor
    · intro hmem
      obtain ⟨p, hp, hget⟩ := getElem_of_mem hmem
      exact ⟨p, hp, by simp [List.getD, hp, hget], by simp [List.getD, hp, hget]⟩
    · rintro ⟨p, hp, rfl, rfl⟩
      rw [getD_eq_getElem _ _ hp]
      exact getElem_mem hp

theorem lt_cell_stop (hwf : dim.Wf) (origin size : ℕ) {y : ℕ} (hy : y < dim.hi) :
    y < (if uint64Max - size < origin then uint64Max else origin + size) ↔ y < origin + size := by
  have hhi := hwf.hi_lt
  split
  · rename_i hover
    rw [uint64Max] at hover ⊢
    omega
  · rfl

/-- **The span of a cell holds the entries or positions whose source index lies in the cell**, also
when the end of the cell is not a `uint64_t`. -/
theorem mem_span_places (hwf : dim.Wf) (hsize : 0 < size) {p : ℕ} :
    p ∈ (queryChunkSpan dim (cell * size) size).places ↔
      p ∈ dim.places ∧ (dim.pickAt p).2 / size = cell := by
  have hcell : ∀ y, y / size = cell ↔ cell * size ≤ y ∧ y < cell * size + size := by
    intro y
    rw [Nat.div_eq_iff hsize]
    have : (cell + 1) * size = cell * size + size := by ring
    omega
  have hstop := fun y => lt_cell_stop hwf (cell * size) size (y := y)
  rw [hcell, SelectionSpan.places, mem_range'_1]
  generalize hend : (if uint64Max - size < cell * size then uint64Max else cell * size + size) = stop
    at hstop
  by_cases hix : dim.indices = []
  · have hcount : ¬ (dim.count ≠ 0) := by simp [QueryDim.count, hix]
    simp only [queryChunkSpan, hcount, if_false, hwf.u64OfInt_beg, hwf.u64OfInt_stop, hend,
      QueryDim.pickAt, QueryDim.places, hix, if_true, mem_range'_1]
    have hlt := hwf.lo_lt_hi
    have hp := hstop p
    split_ifs <;> omega
  · have hcount : dim.count ≠ 0 := by simpa [QueryDim.count] using hix
    simp only [queryChunkSpan, hcount, ne_eq, not_false_eq_true, if_true, QueryDim.pickAt,
      QueryDim.places, hix, if_false, hend, mem_range]
    have hle := queryLowerBound_le hwf.sorted stop
    by_cases hp : p < dim.indices.length
    · have hget : dim.indices[p]? = some dim.indices[p] := getElem?_eq_getElem hp
      have hbound : ∀ source, p < queryLowerBound dim.indices source ↔
          dim.indices[p].source < source := fun source => lt_queryLowerBound_iff hwf.sorted hget
      have hfirst := hbound (cell * size)
      have hlast := hbound stop
      have := hstop _ (hwf.inside _ (getElem_mem hp)).2
      rw [getD_eq_getElem _ _ hp]
      omega
    · omega

theorem mem_spanPicks (hwf : dim.Wf) (hsize : 0 < size) {o x : ℕ} :
    (o, x) ∈ dim.spanPicks (queryChunkSpan dim (cell * size) size) ↔
      dim.Picks o x ∧ x / size = cell := by
  rw [picks_iff hwf]
  constructor
  · intro hmem
    obtain ⟨p, hp, hpick⟩ := mem_map.mp hmem
    obtain ⟨hplace, hdiv⟩ := (mem_span_places hwf hsize).mp hp
    rw [hpick] at hdiv
    exact ⟨⟨p, hplace, hpick⟩, hdiv⟩
  · rintro ⟨⟨p, hplace, hpick⟩, hdiv⟩
    exact mem_map.mpr ⟨p, (mem_span_places hwf hsize).mpr ⟨hplace, by rw [hpick]; exact hdiv⟩,
      hpick⟩

end Spans

end Damacy

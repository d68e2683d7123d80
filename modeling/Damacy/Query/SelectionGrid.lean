import Mathlib.Algebra.BigOperators.Ring.List
import Mathlib.Algebra.Order.Ring.Nat
import Mathlib.Data.Nat.SuccPred
import Damacy.Query.Selection

/-!
# Grids of selected cells

`queryLowerBound` splits the sorted entries of an index axis at a source index, and the cells of an
axis are counted and stepped through with it. `selectionGridInit_spec` is the result: a grid that
initialises enumerates exactly the Cartesian product, over the axes, of the cells inside the clip
range that contain a selected index, and its `count` is their number.
-/

open List Odometer
namespace Damacy

def SortedEntries (indices : List QueryIndex) : Prop :=
  indices.Pairwise fun a b => a.source ≤ b.source

/-- What the binary search keeps: entries before `lo` are below the bound, entries from `hi` on
are not. -/
structure LowerBoundInv (indices : List QueryIndex) (source lo hi : ℕ) : Prop where
  le : lo ≤ hi
  hi_le : hi ≤ indices.length
  below : ∀ i e, indices[i]? = some e → i < lo → e.source < source
  above : ∀ i e, indices[i]? = some e → hi ≤ i → source ≤ e.source

theorem SortedEntries.source_le {indices : List QueryIndex} (h : SortedEntries indices) {i j : ℕ}
    {a b : QueryIndex} (ha : indices[i]? = some a) (hb : indices[j]? = some b) (hij : i ≤ j) :
    a.source ≤ b.source := by
  obtain ⟨hi, rfl⟩ := List.getElem?_eq_some_iff.mp ha
  obtain ⟨hj, rfl⟩ := List.getElem?_eq_some_iff.mp hb
  rcases Nat.eq_or_lt_of_le hij with rfl | hlt
  · exact le_rfl
  · exact pairwise_iff_getElem.mp h i j hi hj hlt

theorem lowerBoundLoop_inv {indices : List QueryIndex} (hs : SortedEntries indices) {source : ℕ} :
    ∀ {fuel lo hi : ℕ}, LowerBoundInv indices source lo hi → hi - lo ≤ fuel →
      LowerBoundInv indices source (lowerBoundLoop indices source fuel lo hi)
        (lowerBoundLoop indices source fuel lo hi) := by
  intro fuel
  induction fuel with
  | zero =>
    intro lo hi h hfuel
    obtain rfl : lo = hi := by have := h.le; omega
    exact h
  | succ fuel ih =>
    intro lo hi h hfuel
    rw [lowerBoundLoop]
    split
    · rename_i hlt
      have hhi := h.hi_le
      set mid := lo + (hi - lo) / 2 with hmid
      have hm : mid < indices.length := by omega
      have hget : indices[mid]? = some indices[mid] := getElem?_eq_getElem hm
      have hmidD : indices.getD mid ⟨0, 0⟩ = indices[mid] := by simp [List.getD, hget]
      simp only [hmidD]
      split
      · rename_i hsrc
        refine ih ⟨by omega, hhi, fun i e he hi' => ?_, h.above⟩ (by omega)
        exact Nat.lt_of_le_of_lt (hs.source_le he hget (by omega)) hsrc
      · rename_i hsrc
        refine ih ⟨by omega, by omega, h.below, fun i e he hi' => ?_⟩ (by omega)
        exact Nat.le_trans (Nat.le_of_not_lt hsrc) (hs.source_le hget he hi')
    · rename_i hlt
      obtain rfl : lo = hi := by have := h.le; omega
      exact h

theorem queryLowerBound_inv {indices : List QueryIndex} (hs : SortedEntries indices) (source : ℕ) :
    LowerBoundInv indices source (queryLowerBound indices source)
      (queryLowerBound indices source) := by
  refine lowerBoundLoop_inv hs ⟨Nat.zero_le _, le_rfl, by omega, fun i e he hi => ?_⟩ (by omega)
  have := (List.getElem?_eq_some_iff.mp he).1
  omega

theorem lt_queryLowerBound_iff {indices : List QueryIndex} (hs : SortedEntries indices)
    {source i : ℕ} {e : QueryIndex} (he : indices[i]? = some e) :
    i < queryLowerBound indices source ↔ e.source < source := by
  have hinv := queryLowerBound_inv hs source
  constructor
  · exact hinv.below i e he
  · intro hlt
    by_contra hge
    have := hinv.above i e he (by omega)
    omega

theorem queryLowerBound_le {indices : List QueryIndex} (hs : SortedEntries indices) (source : ℕ) :
    queryLowerBound indices source ≤ indices.length :=
  (queryLowerBound_inv hs source).hi_le

/-! ## Cells of an index axis -/

/-- The entries, of the `n` from `entry` on, at which a cell different from the one before
begins. -/
def cellStarts (indices : List QueryIndex) (size : ℕ) : (n entry current : ℕ) → List ℕ
  | 0, _, _ => []
  | n + 1, entry, current =>
    let cell := entryCell indices size entry
    if cell ≠ current then entry :: cellStarts indices size n (entry + 1) cell
    else cellStarts indices size n (entry + 1) current

theorem countCells_eq (indices : List QueryIndex) (size n entry previous : ℕ) :
    countCells indices size n entry previous = (cellStarts indices size n entry previous).length := by
  induction n generalizing entry previous with
  | zero => rfl
  | succ n ih =>
    simp only [countCells, cellStarts, ih]
    split
    · simp [Nat.add_comm]
    · rename_i h
      simp [Classical.not_not.mp h]

theorem nextCell_eq_none {indices : List QueryIndex} {size current n entry : ℕ}
    (h : nextCell indices size current n entry = none) :
    cellStarts indices size n entry current = [] := by
  induction n generalizing entry with
  | zero => rfl
  | succ n ih =>
    simp only [nextCell] at h
    split at h
    · cases h
    · rename_i hc
      simp [cellStarts, Classical.not_not.mp hc, ih h]

theorem nextCell_eq_some {indices : List QueryIndex} {size current n entry e c : ℕ}
    (h : nextCell indices size current n entry = some (e, c)) :
    entry ≤ e ∧ e < entry + n ∧ c = entryCell indices size e ∧
      cellStarts indices size n entry current =
        e :: cellStarts indices size (entry + n - (e + 1)) (e + 1) c := by
  induction n generalizing entry with
  | zero => cases h
  | succ n ih =>
    simp only [nextCell] at h
    split at h
    · rename_i hc
      obtain ⟨rfl, rfl⟩ : entry = e ∧ entryCell indices size entry = c := by simpa using h
      refine ⟨le_rfl, by omega, rfl, ?_⟩
      have hn : entry + (n + 1) - (entry + 1) = n := by omega
      simp [cellStarts, hc, hn]
    · rename_i hc
      obtain ⟨h1, h2, h3, h4⟩ := ih h
      refine ⟨by omega, by omega, h3, ?_⟩
      have hn : entry + (n + 1) - (e + 1) = entry + 1 + n - (e + 1) := by omega
      simp [cellStarts, Classical.not_not.mp hc, h4, hn]

def SelectionGridAxis.atEntry (axis : SelectionGridAxis) (indices : List QueryIndex) (e : ℕ) :
    SelectionGridAxis :=
  { axis with currentEntry := e, currentCell := entryCell indices axis.cellSizeIndex e }

/-- From any of its entries an index axis passes through the entries at which a new cell begins
and then goes back to its first entry. -/
theorem SelectionGridAxis.lap_atEntry {axis : SelectionGridAxis} {indices : List QueryIndex}
    (hix : axis.indices = some indices) :
    ∀ {n e : ℕ}, axis.spanEntryEnd - (e + 1) = n →
      Lap SelectionGridAxis.step (axis.atEntry indices axis.spanEntryBeg)
        (axis.atEntry indices e)
        (axis.atEntry indices e :: (cellStarts indices axis.cellSizeIndex n (e + 1)
          (entryCell indices axis.cellSizeIndex e)).map (axis.atEntry indices)) := by
  intro n
  induction n using Nat.strong_induction_on with
  | _ n ih =>
    intro e hn
    cases hnext : nextCell indices axis.cellSizeIndex (entryCell indices axis.cellSizeIndex e)
        (axis.spanEntryEnd - (e + 1)) (e + 1) with
    | none =>
      rw [← hn, nextCell_eq_none hnext]
      refine .wrap ?_
      simp only [SelectionGridAxis.step, SelectionGridAxis.atEntry, hix, hnext]
    | some p =>
      obtain ⟨e', c⟩ := p
      obtain ⟨hle, hlt, rfl, hstarts⟩ := nextCell_eq_some hnext
      rw [← hn, hstarts, map_cons]
      have hstep : (axis.atEntry indices e).step = (axis.atEntry indices e', false) := by
        simp only [SelectionGridAxis.step, SelectionGridAxis.atEntry, hix, hnext]
      exact .next hstep (ih _ (by omega) (by omega))

theorem entryCell_eq {indices : List QueryIndex} {i : ℕ} (hi : i < indices.length) (size : ℕ) :
    entryCell indices size i = indices[i].source / size := by
  simp [entryCell, List.getD, getElem?_eq_getElem hi]

theorem SortedEntries.entryCell_le {indices : List QueryIndex} (hs : SortedEntries indices)
    (size : ℕ) {i j : ℕ} (hij : i ≤ j) (hj : j < indices.length) :
    entryCell indices size i ≤ entryCell indices size j := by
  rw [entryCell_eq (Nat.lt_of_le_of_lt hij hj), entryCell_eq hj]
  exact Nat.div_le_div_right (hs.source_le (getElem?_eq_getElem (by omega))
    (getElem?_eq_getElem hj) hij)

/-- Over sorted entries the cells that begin are exactly the cells met other than the current
one, in strictly ascending order. -/
theorem cellStarts_spec {indices : List QueryIndex} (hs : SortedEntries indices) (size : ℕ) :
    ∀ n entry current : ℕ, entry + n ≤ indices.length →
      (∀ i, entry ≤ i → i < entry + n → current ≤ entryCell indices size i) →
      ((cellStarts indices size n entry current).map (entryCell indices size)).Pairwise (· < ·) ∧
      ∀ c, c ∈ (cellStarts indices size n entry current).map (entryCell indices size) ↔
        (∃ i, entry ≤ i ∧ i < entry + n ∧ entryCell indices size i = c) ∧ current < c := by
  intro n
  induction n with
  | zero =>
    intro entry current _ _
    refine ⟨List.Pairwise.nil, fun c => ?_⟩
    simp only [cellStarts, map_nil, not_mem_nil, false_iff, not_and]
    rintro ⟨i, h1, h2, -⟩
    omega
  | succ n ih =>
    intro entry current hlen hcur
    have hmono : ∀ i, entry + 1 ≤ i → i < entry + 1 + n →
        entryCell indices size entry ≤ entryCell indices size i :=
      fun i h1 h2 => hs.entryCell_le _ (by omega) (by omega)
    have hhere := hcur entry le_rfl (by omega)
    simp only [cellStarts]
    split
    · rename_i hne
      obtain ⟨hsort, hmem⟩ := ih (entry + 1) _ (by omega) hmono
      refine ⟨pairwise_cons.mpr ⟨fun c hc => ((hmem c).mp hc).2, hsort⟩, fun c => ?_⟩
      rw [map_cons, mem_cons, hmem]
      constructor
      · rintro (rfl | ⟨⟨i, h1, h2, rfl⟩, hlt⟩)
        · exact ⟨⟨entry, le_rfl, by omega, rfl⟩, by omega⟩
        · exact ⟨⟨i, by omega, by omega, rfl⟩, by omega⟩
      · rintro ⟨⟨i, h1, h2, rfl⟩, hlt⟩
        by_cases hi : entryCell indices size i = entryCell indices size entry
        · exact .inl hi
        · have hi' : i ≠ entry := fun h => hi (h ▸ rfl)
          have := hmono i (by omega) (by omega)
          exact .inr ⟨⟨i, by omega, by omega, rfl⟩, by omega⟩
    · rename_i hne
      have heq := Classical.not_not.mp hne
      obtain ⟨hsort, hmem⟩ := ih (entry + 1) current (by omega)
        (fun i h1 h2 => hcur i (by omega) (by omega))
      refine ⟨hsort, fun c => ?_⟩
      rw [hmem]
      constructor
      · rintro ⟨⟨i, h1, h2, rfl⟩, hlt⟩
        exact ⟨⟨i, by omega, by omega, rfl⟩, hlt⟩
      · rintro ⟨⟨i, h1, h2, rfl⟩, hlt⟩
        have hi' : i ≠ entry := by
          rintro rfl
          omega
        exact ⟨⟨i, by omega, by omega, rfl⟩, hlt⟩

/-! ## Cells of an axis -/

def QueryDim.lo (dim : QueryDim) : ℕ := dim.bounds.beg.toNat

def QueryDim.hi (dim : QueryDim) : ℕ := dim.bounds.stop.toNat

def QueryDim.Selects (dim : QueryDim) (x : ℕ) : Prop :=
  if dim.indices = [] then dim.lo ≤ x ∧ x < dim.hi else ∃ e ∈ dim.indices, e.source = x

/-- What `query_copy` establishes of every axis it stores, as far as cells are concerned: a
nonempty hull in the `int64_t` range around sorted entries. -/
structure QueryDim.Wf (dim : QueryDim) : Prop where
  nonneg : 0 ≤ dim.bounds.beg
  lt : dim.bounds.beg < dim.bounds.stop
  stop_lt : dim.bounds.stop < 2 ^ 63
  sorted : SortedEntries dim.indices
  inside : ∀ e ∈ dim.indices, dim.lo ≤ e.source ∧ e.source < dim.hi

namespace QueryDim.Wf

variable {dim : QueryDim}

theorem lo_lt_hi (h : dim.Wf) : dim.lo < dim.hi := by
  have := h.nonneg; have := h.lt
  simp only [QueryDim.lo, QueryDim.hi]
  omega

theorem hi_lt (h : dim.Wf) : dim.hi < 2 ^ 63 := by
  have := h.stop_lt
  simp only [QueryDim.hi]
  omega

theorem u64OfInt_beg (h : dim.Wf) : u64OfInt dim.bounds.beg = dim.lo :=
  u64OfInt_of_nonneg h.nonneg (by have := h.lt; have := h.stop_lt; omega)

theorem u64OfInt_stop (h : dim.Wf) : u64OfInt dim.bounds.stop = dim.hi :=
  u64OfInt_of_nonneg (by have := h.nonneg; have := h.lt; omega) h.stop_lt

theorem lo_le_of_selects (h : dim.Wf) {x : ℕ} (hx : dim.Selects x) : dim.lo ≤ x ∧ x < dim.hi := by
  unfold QueryDim.Selects at hx
  split at hx
  · exact hx
  · obtain ⟨e, he, rfl⟩ := hx
    exact h.inside e he

end QueryDim.Wf

def GridDim.InClip (g : GridDim) (c : ℕ) : Prop :=
  (∀ b ∈ g.clipBeg, b ≤ c) ∧ ∀ b ∈ g.clipEnd, c < b

instance (g : GridDim) (c : ℕ) : Decidable (g.InClip c) := inferInstanceAs (Decidable (_ ∧ _))

/-- The cells of an axis: those inside the clip range that contain a selected index. -/
def GridDim.cells (g : GridDim) : List ℕ :=
  (List.range ((g.dim.hi - 1) / g.cell + 1)).filter fun c =>
    decide (g.InClip c) &&
      if g.dim.indices = [] then decide (g.dim.lo / g.cell ≤ c)
      else g.dim.indices.any fun e => e.source / g.cell == c

theorem GridDim.pairwise_cells (g : GridDim) : g.cells.Pairwise (· < ·) :=
  pairwise_lt_range.filter _

theorem GridDim.mem_cells {g : GridDim} (hwf : g.dim.Wf) (hcell : 0 < g.cell) {c : ℕ} :
    c ∈ g.cells ↔ g.InClip c ∧ ∃ x, g.dim.Selects x ∧ x / g.cell = c := by
  have hlt := hwf.lo_lt_hi
  simp only [GridDim.cells, mem_filter, mem_range, Bool.and_eq_true, decide_eq_true_eq]
  by_cases hix : g.dim.indices = []
  · simp only [hix, if_true, decide_eq_true_eq, QueryDim.Selects]
    constructor
    · rintro ⟨hc, hclip, hlo⟩
      -- the cell's start, or the hull's, is selected and lies in the cell
      refine ⟨hclip, max g.dim.lo (c * g.cell), ⟨by omega, ?_⟩, ?_⟩
      · have := (Nat.le_div_iff_mul_le hcell).mp (Nat.le_of_lt_succ hc)
        omega
      · rcases Nat.le_total (c * g.cell) g.dim.lo with h | h
        · rw [Nat.max_eq_left h]
          exact Nat.le_antisymm hlo ((Nat.le_div_iff_mul_le hcell).mpr h)
        · rw [Nat.max_eq_right h, Nat.mul_div_cancel _ hcell]
    · rintro ⟨hclip, x, ⟨h1, h2⟩, rfl⟩
      exact ⟨Nat.lt_succ_of_le (Nat.div_le_div_right (by omega)), hclip, Nat.div_le_div_right h1⟩
  · simp only [hix, if_false, any_eq_true, beq_iff_eq, QueryDim.Selects]
    constructor
    · rintro ⟨-, hclip, e, he, rfl⟩
      exact ⟨hclip, e.source, ⟨e, he, rfl⟩, rfl⟩
    · rintro ⟨hclip, x, ⟨e, he, rfl⟩, rfl⟩
      have := (hwf.inside e he).2
      exact ⟨Nat.lt_succ_of_le (Nat.div_le_div_right (by omega)), hclip, e, he, rfl⟩

/-! ## Cells that a grid meets -/

def GridDim.InHull (g : GridDim) (c : ℕ) : Prop :=
  g.dim.lo / g.cell ≤ c ∧ c < (g.dim.hi - 1) / g.cell + 1

/-- The grid meets cell `c`: the cell is inside the clip range and the hull, and on an index axis an
entry lies in it. -/
def GridDim.Meets (g : GridDim) (c : ℕ) : Prop :=
  (g.InClip c ∧ g.InHull c) ∧ (g.dim.indices = [] ∨ ∃ e ∈ g.dim.indices, e.source / g.cell = c)

instance (g : GridDim) (c : ℕ) : Decidable (g.InHull c) := inferInstanceAs (Decidable (_ ∧ _))

instance (g : GridDim) (c : ℕ) : Decidable (g.Meets c) := inferInstanceAs (Decidable (_ ∧ _))

def GridDim.metCells (g : GridDim) : List ℕ :=
  (List.range ((g.dim.hi - 1) / g.cell + 1)).filter fun c => decide (g.Meets c)

theorem GridDim.pairwise_metCells (g : GridDim) : g.metCells.Pairwise (· < ·) :=
  pairwise_lt_range.filter _

theorem GridDim.mem_metCells {g : GridDim} {c : ℕ} : c ∈ g.metCells ↔ g.Meets c := by
  simp only [GridDim.metCells, mem_filter, mem_range, decide_eq_true_eq,
    and_iff_right_iff_imp]
  exact fun h => h.1.2.2

theorem GridDim.metCells_eq_cells {g : GridDim} (hwf : g.dim.Wf) : g.metCells = g.cells := by
  refine List.Pairwise.eq_of_mem_iff g.pairwise_metCells g.pairwise_cells fun c => ?_
  rw [GridDim.mem_metCells]
  simp only [GridDim.Meets, GridDim.InHull, GridDim.cells, mem_filter, mem_range,
    Bool.and_eq_true, decide_eq_true_eq]
  by_cases hix : g.dim.indices = []
  · simp only [hix, if_true, decide_eq_true_eq, true_or, and_true]
    tauto
  · simp only [hix, if_false, any_eq_true, beq_iff_eq, false_or]
    constructor
    · rintro ⟨⟨hclip, -, hc⟩, he⟩
      exact ⟨hc, hclip, he⟩
    · rintro ⟨hc, hclip, e, he, rfl⟩
      exact ⟨⟨hclip, Nat.div_le_div_right (hwf.inside e he).1, hc⟩, e, he, rfl⟩

/-- An axis as `selection_grid_init` may be given it: sorted entries, everything in the range of
`int64_t`. -/
structure QueryDim.Ordered (dim : QueryDim) : Prop where
  stop_lt : dim.bounds.stop < 2 ^ 63
  sorted : SortedEntries dim.indices
  source_lt : ∀ e ∈ dim.indices, e.source < 2 ^ 63

theorem QueryDim.Wf.ordered {dim : QueryDim} (h : dim.Wf) : dim.Ordered where
  stop_lt := h.stop_lt
  sorted := h.sorted
  source_lt e he := Nat.lt_trans (h.inside e he).2 h.hi_lt

/-- What the checks of `selection_grid_init` say of one axis. -/
def GridDim.Valid (g : GridDim) : Prop :=
  0 ≤ g.dim.bounds.beg ∧ g.dim.bounds.beg < g.dim.bounds.stop ∧ g.cell ≠ 0

theorem GridDim.Valid.cell_pos {g : GridDim} (h : g.Valid) : 0 < g.cell := Nat.pos_of_ne_zero h.2.2

theorem GridDim.mem_span {g : GridDim} (hord : g.dim.Ordered) (hv : g.Valid) (c : ℕ) :
    (g.spanBeg ≤ c ∧ c < g.spanEnd) ↔ g.InClip c ∧ g.InHull c := by
  obtain ⟨hbeg, hlt, -⟩ := hv
  have hstop := hord.stop_lt
  have h1 : u64OfInt g.dim.bounds.beg = g.dim.lo := u64OfInt_of_nonneg hbeg (by omega)
  have h2 : u64OfInt g.dim.bounds.stop = g.dim.hi := u64OfInt_of_nonneg (by omega) hstop
  simp only [GridDim.InClip, GridDim.InHull, GridDim.spanBeg, GridDim.spanEnd, h1, h2]
  cases g.clipBeg <;> cases g.clipEnd <;> simp <;> (try split) <;> (try split) <;> omega

theorem lt_cellStartIndex_iff {x cell size : ℕ} (hx : x < 2 ^ 63) (hsize : 0 < size) :
    x < cellStartIndex cell size ↔ x / size < cell := by
  rw [Nat.div_lt_iff_lt_mul hsize, cellStartIndex]
  split
  · rename_i h
    have := (Nat.div_lt_iff_lt_mul hsize).mp h
    simp only [uint64Max] at *
    omega
  · rfl

theorem mem_entrySpan_iff {dim : QueryDim} (hord : dim.Ordered) {size beg stop i : ℕ}
    (hsize : 0 < size) (hi : i < dim.indices.length) :
    (queryLowerBound dim.indices (cellStartIndex beg size) ≤ i ∧
      i < queryLowerBound dim.indices (cellStartIndex stop size)) ↔
      beg ≤ entryCell dim.indices size i ∧ entryCell dim.indices size i < stop := by
  have hget : dim.indices[i]? = some dim.indices[i] := getElem?_eq_getElem hi
  have hx : dim.indices[i].source < 2 ^ 63 := hord.source_lt _ (getElem_mem hi)
  rw [entryCell_eq hi, ← Nat.not_lt, lt_queryLowerBound_iff hord.sorted hget,
    lt_queryLowerBound_iff hord.sorted hget, lt_cellStartIndex_iff hx hsize,
    lt_cellStartIndex_iff hx hsize, Nat.not_lt]

theorem GridDim.mem_metCells_iff {g : GridDim} (hord : g.dim.Ordered) (hv : g.Valid) {c : ℕ} :
    c ∈ g.metCells ↔ (g.spanBeg ≤ c ∧ c < g.spanEnd) ∧
      (g.dim.indices = [] ∨ ∃ e ∈ g.dim.indices, e.source / g.cell = c) := by
  rw [GridDim.mem_span hord hv, GridDim.mem_metCells, GridDim.Meets]

/-- What the initialisation of an axis establishes: it counted the cells met, and if there are any,
the axis makes a lap through them. -/
def AxisLaps (g : GridDim) (init : SelectionGridAxis × ℕ) : Prop :=
  ∃ states : List SelectionGridAxis, states.map (·.currentCell) = g.metCells ∧
    init.2 = states.length ∧ (states ≠ [] → Lap SelectionGridAxis.step init.1 init.1 states)

theorem axisLaps_interval {g : GridDim} (hord : g.dim.Ordered) (hv : g.Valid)
    (hix : g.dim.indices = []) {axis : SelectionGridAxis} (hnone : axis.indices = none)
    (hbeg : axis.spanCellBeg = g.spanBeg) (hend : axis.spanCellEnd = g.spanEnd)
    (hcur : axis.currentCell = g.spanBeg) :
    AxisLaps g (axis, g.spanEnd - g.spanBeg) := by
  set at_ : ℕ → SelectionGridAxis := fun c => { axis with currentCell := c } with hat
  refine ⟨(List.range' g.spanBeg (g.spanEnd - g.spanBeg)).map at_, ?_, by simp, fun hne => ?_⟩
  · rw [map_map, show (fun x : SelectionGridAxis => x.currentCell) ∘ at_ = id from rfl,
      map_id]
    refine List.Pairwise.eq_of_mem_iff pairwise_lt_range' g.pairwise_metCells fun c => ?_
    rw [GridDim.mem_metCells_iff hord hv, mem_range'_1]
    simp only [hix, true_or, and_true]
    omega
  · have hlt : g.spanBeg < g.spanEnd := by
      by_contra h
      exact hne (by simp [Nat.sub_eq_zero_of_le (Nat.le_of_not_lt h)])
    have hfirst : axis = at_ g.spanBeg := by rw [hat, ← hcur]
    rw [hfirst]
    refine lap_range' at_ hlt (fun i _ hi => ?_) ?_
    · simp [SelectionGridAxis.step, hat, hnone, hend, hi]
    · have hlast : ¬ g.spanEnd - 1 + 1 < g.spanEnd := by omega
      simp [SelectionGridAxis.step, hat, hnone, hend, hbeg, hlast]

theorem GridDim.mem_metCells_entries {g : GridDim} (hord : g.dim.Ordered) (hv : g.Valid)
    (hix : g.dim.indices ≠ []) (c : ℕ) :
    c ∈ g.metCells ↔ ∃ i, queryLowerBound g.dim.indices (cellStartIndex g.spanBeg g.cell) ≤ i ∧
      i < queryLowerBound g.dim.indices (cellStartIndex g.spanEnd g.cell) ∧
      entryCell g.dim.indices g.cell i = c := by
  rw [GridDim.mem_metCells_iff hord hv]
  constructor
  · rintro ⟨hspan, h | ⟨e, he, rfl⟩⟩
    · exact absurd h hix
    · obtain ⟨i, hi, rfl⟩ := getElem_of_mem he
      rw [← entryCell_eq hi] at hspan ⊢
      have := (mem_entrySpan_iff hord hv.cell_pos hi).mpr hspan
      exact ⟨i, this.1, this.2, rfl⟩
  · rintro ⟨i, h1, h2, rfl⟩
    have hi := Nat.lt_of_lt_of_le h2 (queryLowerBound_le hord.sorted _)
    exact ⟨(mem_entrySpan_iff hord hv.cell_pos hi).mp ⟨h1, h2⟩,
      .inr ⟨g.dim.indices[i], getElem_mem hi, (entryCell_eq hi _).symm⟩⟩

theorem cellStarts_cons {indices : List QueryIndex} (hs : SortedEntries indices)
    (size first n : ℕ) (hlen : first + (n + 1) ≤ indices.length) :
    (entryCell indices size first :: (cellStarts indices size n (first + 1)
        (entryCell indices size first)).map (entryCell indices size)).Pairwise (· < ·) ∧
      ∀ c, c ∈ entryCell indices size first :: (cellStarts indices size n (first + 1)
          (entryCell indices size first)).map (entryCell indices size) ↔
        ∃ i, first ≤ i ∧ i < first + (n + 1) ∧ entryCell indices size i = c := by
  obtain ⟨hsort, hstarts⟩ := cellStarts_spec hs size n (first + 1) (entryCell indices size first)
    (by omega)
    (fun i h1 h2 => hs.entryCell_le _ (by omega) (by omega))
  refine ⟨pairwise_cons.mpr ⟨fun c hc => ((hstarts c).mp hc).2, hsort⟩, fun c => ?_⟩
  rw [mem_cons, hstarts]
  constructor
  · rintro (rfl | ⟨⟨i, h1, h2, rfl⟩, -⟩)
    · exact ⟨first, le_rfl, by omega, rfl⟩
    · exact ⟨i, by omega, by omega, rfl⟩
  · rintro ⟨i, h1, h2, rfl⟩
    rcases Nat.eq_or_lt_of_le (hs.entryCell_le size h1 (by omega)) with h | h
    · exact .inl h.symm
    · have hne : first ≠ i := fun h' => by simp [h'] at h
      exact .inr ⟨⟨i, by omega, by omega, rfl⟩, h⟩

theorem countCells_succ {dim : QueryDim} (hord : dim.Ordered) {first : ℕ}
    (hfirst : first < dim.indices.length) (size n : ℕ) :
    countCells dim.indices size (n + 1) first uint64Max =
      (cellStarts dim.indices size n (first + 1) (entryCell dim.indices size first)).length + 1 := by
  have hsent : entryCell dim.indices size first ≠ uint64Max := by
    have h1 := hord.source_lt _ (getElem_mem hfirst)
    have h2 := Nat.div_le_self dim.indices[first].source size
    rw [entryCell_eq hfirst, uint64Max]
    omega
  rw [countCells_eq, cellStarts, if_pos hsent, length_cons]

theorem axisLaps_indices {g : GridDim} (hord : g.dim.Ordered) (hv : g.Valid)
    (hix : g.dim.indices ≠ []) {axis : SelectionGridAxis}
    (hsome : axis.indices = some g.dim.indices) (hsize : axis.cellSizeIndex = g.cell)
    (hbeg : axis.spanEntryBeg = queryLowerBound g.dim.indices (cellStartIndex g.spanBeg g.cell))
    (hend : axis.spanEntryEnd = queryLowerBound g.dim.indices (cellStartIndex g.spanEnd g.cell))
    (hentry : axis.currentEntry = axis.spanEntryBeg)
    (hcur : axis.spanEntryBeg < axis.spanEntryEnd →
      axis.currentCell = entryCell g.dim.indices g.cell axis.spanEntryBeg) :
    AxisLaps g (axis, countCells g.dim.indices g.cell (axis.spanEntryEnd - axis.spanEntryBeg)
      axis.spanEntryBeg uint64Max) := by
  have hle : axis.spanEntryEnd ≤ g.dim.indices.length := hend ▸ queryLowerBound_le hord.sorted _
  have hmem := GridDim.mem_metCells_entries hord hv hix
  rw [← hbeg, ← hend] at hmem
  by_cases hlt : axis.spanEntryBeg < axis.spanEntryEnd
  · obtain ⟨n, hn⟩ : ∃ n, axis.spanEntryEnd - axis.spanEntryBeg = n + 1 :=
      ⟨axis.spanEntryEnd - axis.spanEntryBeg - 1, by omega⟩
    have hfirst : axis.atEntry g.dim.indices axis.spanEntryBeg = axis := by
      have hcell' := hcur hlt
      cases axis
      simp_all [SelectionGridAxis.atEntry]
    have hlap := SelectionGridAxis.lap_atEntry hsome (n := n) (e := axis.spanEntryBeg) (by omega)
    rw [hfirst, hsize] at hlap
    obtain ⟨hsort, hstarts⟩ := cellStarts_cons hord.sorted g.cell axis.spanEntryBeg n
      (by omega)
    refine ⟨_, ?_, ?_, fun _ => hlap⟩
    · have hcells : (fun x : SelectionGridAxis => x.currentCell) ∘ axis.atEntry g.dim.indices =
          entryCell g.dim.indices g.cell := by
        funext e
        simp [SelectionGridAxis.atEntry, hsize]
      rw [map_cons, map_map, hcells, hcur hlt]
      refine hsort.eq_of_mem_iff g.pairwise_metCells fun c => ?_
      rw [hstarts, hmem, show axis.spanEntryBeg + (n + 1) = axis.spanEntryEnd by omega]
    · rw [hn, countCells_succ hord (by omega)]
      simp
  · have hnil : g.metCells = [] := by
      refine eq_nil_iff_forall_not_mem.mpr fun c hc => ?_
      obtain ⟨i, h1, h2, -⟩ := (hmem c).mp hc
      omega
    refine ⟨[], by simp [hnil], ?_, by simp⟩
    simp [Nat.sub_eq_zero_of_le (Nat.le_of_not_lt hlt), countCells]

theorem selectionGridAxisInit_laps {g : GridDim} (hord : g.dim.Ordered) (hv : g.Valid) :
    AxisLaps g (selectionGridAxisInit g) := by
  by_cases hlt : g.spanBeg < g.spanEnd
  · have hne : g.spanEnd - g.spanBeg ≠ 0 := by omega
    by_cases hix : g.dim.indices = []
    · have hcount : ¬ (g.dim.count ≠ 0) := by simp [QueryDim.count, hix]
      simp only [selectionGridAxisInit, hcount, hlt, false_and, if_true, if_false]
      exact axisLaps_interval hord hv hix rfl rfl rfl rfl
    · have hcount : g.dim.count ≠ 0 := by simpa [QueryDim.count] using hix
      simp only [selectionGridAxisInit, hcount, hlt, hne, ne_eq, not_false_eq_true, and_self,
        if_true]
      refine axisLaps_indices hord hv hix rfl rfl rfl rfl rfl fun h => if_pos ?_
      dsimp only at h
      have hle := queryLowerBound_le hord.sorted (cellStartIndex g.spanEnd g.cell)
      obtain ⟨n, hn⟩ := Nat.exists_eq_add_of_lt h
      rw [hn, Nat.add_assoc, Nat.add_sub_cancel_left, countCells_succ hord (by omega)]
      simp
  · -- the clip range misses the hull
    have hnil : g.metCells = [] := by
      refine eq_nil_iff_forall_not_mem.mpr fun c hc => ?_
      have := ((GridDim.mem_metCells_iff hord hv).mp hc).1
      omega
    refine ⟨[], by simp [hnil], ?_, by simp⟩
    simp [selectionGridAxisInit, hlt]

/-! ## The whole grid -/

theorem selectionGridLoop_finished (fuel : ℕ) {grid : SelectionGrid} (h : grid.finished = true) :
    selectionGridLoop fuel grid = [] := by
  cases fuel <;> simp [selectionGridLoop, selectionGridNext, h]

theorem selectionGridLoop_eq (fuel : ℕ) (axes : List SelectionGridAxis) (count : ℕ) :
    selectionGridLoop fuel ⟨axes, count, false⟩ =
      (visits (advance SelectionGridAxis.step) fuel axes).map (·.map (·.currentCell)) := by
  induction fuel generalizing axes with
  | zero => rfl
  | succ fuel ih =>
    simp only [selectionGridLoop, selectionGridNext, visits, Bool.false_eq_true, if_false]
    cases hw : (advance SelectionGridAxis.step axes).2 with
    | true => simp [selectionGridLoop_finished]
    | false => simp [ih]

/-- The loop over the axes appends the initialised axes, multiplies their cell counts and is
finished from the start if an axis has no cell. -/
theorem selectionGridInitAxes_ok {maxCells : ℕ} {dims : List GridDim} {grid grid' : SelectionGrid}
    (hord : ∀ g ∈ dims, g.dim.Ordered)
    (h : selectionGridInitAxes maxCells grid dims = .ok grid') :
    (∀ g ∈ dims, g.Valid) ∧
      grid'.axes = grid.axes ++ dims.map (fun g => (selectionGridAxisInit g).1) ∧
      grid'.count = grid.count * (dims.map (fun g => g.metCells.length)).prod ∧
      grid'.finished = (grid.finished || dims.any (fun g => g.metCells.isEmpty)) := by
  induction dims generalizing grid with
  | nil =>
    obtain rfl : grid = grid' := by simpa [selectionGridInitAxes] using h
    simp
  | cons g rest ih =>
    simp only [selectionGridInitAxes] at h
    split at h
    · cases h
    · rename_i hvalid
      have hv : g.Valid := by
        simp only [GridDim.Valid]
        omega
      obtain ⟨states, hcells, hcount, -⟩ :=
        selectionGridAxisInit_laps (hord g mem_cons_self) hv
      have hlen : (selectionGridAxisInit g).2 = g.metCells.length := by
        rw [hcount, ← hcells, length_map]
      have hrest := fun g' hg' => hord g' (mem_cons_of_mem _ hg')
      split at h
      · rename_i hzero
        have hnil : g.metCells = [] := length_eq_zero_iff.mp (hlen ▸ hzero)
        obtain ⟨h1, h2, h3, h4⟩ := ih hrest h
        refine ⟨?_, by simp [h2], by simp [h3, hnil], by simp [h4, hnil]⟩
        exact forall_mem_cons.mpr ⟨hv, h1⟩
      · rename_i hnz
        split at h
        · cases h
        · have hne : g.metCells.isEmpty = false := by
            rw [isEmpty_eq_false_iff]
            exact fun hnil => hnz (by rw [hlen, hnil]; rfl)
          obtain ⟨h1, h2, h3, h4⟩ := ih hrest h
          refine ⟨forall_mem_cons.mpr ⟨hv, h1⟩, by simp [h2], ?_, by simp [h4, hne]⟩
          rw [h3, hlen, map_cons, prod_cons, Nat.mul_assoc]

theorem exists_axisLaps {dims : List GridDim} (hord : ∀ g ∈ dims, g.dim.Ordered)
    (hvalid : ∀ g ∈ dims, g.Valid) (hne : ∀ g ∈ dims, g.metCells ≠ []) :
    ∃ laps, List.Forall₂ (fun f l => Lap SelectionGridAxis.step f f l)
        (dims.map fun g => (selectionGridAxisInit g).1) laps ∧
      laps.map (List.map (·.currentCell)) = dims.map GridDim.metCells := by
  induction dims with
  | nil => exact ⟨[], .nil, rfl⟩
  | cons g rest ih =>
    rw [forall_mem_cons] at hord hvalid hne
    obtain ⟨laps, hlaps, hcells⟩ := ih hord.2 hvalid.2 hne.2
    obtain ⟨states, hstates, -, hlap⟩ :=
      selectionGridAxisInit_laps hord.1 hvalid.1
    have hstates_ne : states ≠ [] := by
      rintro rfl
      exact hne.1 hstates.symm
    exact ⟨states :: laps, .cons (hlap hstates_ne) hlaps, by rw [map_cons, hstates, hcells,
      map_cons]⟩

theorem selectionGridAxisInit_count {g : GridDim} (hord : g.dim.Ordered) (hv : g.Valid) :
    (selectionGridAxisInit g).2 = g.metCells.length := by
  obtain ⟨states, hcells, hcount, -⟩ := selectionGridAxisInit_laps hord hv
  rw [hcount, ← hcells, length_map]

/-- Whatever the bounds, a grid enumerates the Cartesian product of the cells it meets, and the loop
over it ends by itself after `count` rounds. -/
theorem selectionGridInit_met {dims : List GridDim} {maxCells : ℕ} {grid : SelectionGrid}
    (hord : ∀ g ∈ dims, g.dim.Ordered) (h : selectionGridInit dims maxCells = .ok grid) :
    (∀ g ∈ dims, g.Valid) ∧
      grid.count = (dims.map fun g => g.metCells.length).prod ∧
      ∀ n, selectionGridLoop (grid.count + n) grid = cartesian (dims.map GridDim.metCells) := by
  rw [selectionGridInit] at h
  split at h
  · cases h
  · obtain ⟨hvalid, haxes, hcount, hfin⟩ := selectionGridInitAxes_ok hord h
    obtain ⟨axes, count, finished⟩ := grid
    simp only [nil_append, Nat.one_mul, Bool.false_or] at haxes hcount hfin
    refine ⟨hvalid, hcount, fun n => ?_⟩
    subst haxes hcount hfin
    have hlen : (cartesian (dims.map GridDim.metCells)).length =
        (dims.map fun g => g.metCells.length).prod := by
      simp [map_map, Function.comp_def]
    cases hf : dims.any (fun g => g.metCells.isEmpty) with
    | true =>
      -- an axis without cells: nothing is visited, and the product is empty
      obtain ⟨g, hg, hnil⟩ := any_eq_true.mp hf
      have hzero : (dims.map fun g => g.metCells.length).prod = 0 :=
        prod_eq_zero (mem_map.mpr ⟨g, hg, by simpa using hnil⟩)
      rw [hzero] at hlen
      rw [length_eq_zero_iff.mp hlen, selectionGridLoop_finished _ rfl]
    | false =>
      obtain ⟨laps, hlap, hcells⟩ := exists_axisLaps hord hvalid fun g hg hnil => by
        have := any_eq_false.mp hf g hg
        simp [hnil] at this
      rw [selectionGridLoop_eq, (Lap.advance hlap).visits_eq, map_cartesian, hcells]
      rw [← hlen, ← hcells, ← map_cartesian, length_map]
      exact Nat.le_add_right _ _

/-- **A grid enumerates the Cartesian product of the cells of its axes**, in lexicographic order,
and `count` is the number of its coordinates. -/
theorem selectionGridInit_spec {dims : List GridDim} {maxCells : ℕ} {grid : SelectionGrid}
    (hwf : ∀ g ∈ dims, g.dim.Wf) (h : selectionGridInit dims maxCells = .ok grid) :
    (∀ g ∈ dims, g.Valid) ∧
      grid.count = (dims.map fun g => g.cells.length).prod ∧
      selectionGridCoords grid = cartesian (dims.map GridDim.cells) := by
  have hcells : ∀ g ∈ dims, g.metCells = g.cells := fun g hg =>
    GridDim.metCells_eq_cells (hwf g hg)
  obtain ⟨hvalid, hcount, hloop⟩ := selectionGridInit_met (fun g hg => (hwf g hg).ordered) h
  refine ⟨hvalid, ?_, ?_⟩
  · rw [hcount]
    exact congrArg _ (map_congr_left fun g hg => congrArg _ (hcells g hg))
  · rw [selectionGridCoords, ← map_congr_left hcells]
    exact hloop 0

theorem selectionGridInitAxes_budget {maxCells : ℕ} {dims : List GridDim} {grid : SelectionGrid}
    (hord : ∀ g ∈ dims, g.dim.Ordered)
    (h : selectionGridInitAxes maxCells grid dims = .error .budget) :
    ∃ k ≤ dims.length,
      maxCells < grid.count * ((dims.take k).map fun g => g.metCells.length).prod := by
  induction dims generalizing grid with
  | nil => cases h
  | cons g rest ih =>
    rw [forall_mem_cons] at hord
    simp only [selectionGridInitAxes] at h
    split at h
    · cases h
    · rename_i hvalid
      have hv : g.Valid := by
        simp only [GridDim.Valid]
        omega
      have hlen := selectionGridAxisInit_count hord.1 hv
      split at h
      · -- an axis without cells leaves a count of zero, which no later check refuses
        obtain ⟨k, -, hk⟩ := ih hord.2 h
        simp at hk
      · rename_i hnz
        split at h
        · rename_i hmax
          refine ⟨1, by simp, ?_⟩
          rw [hlen] at hmax hnz
          simpa [Nat.mul_comm] using
            (Nat.div_lt_iff_lt_mul (Nat.pos_of_ne_zero hnz)).mp hmax
        · obtain ⟨k, hk, hprod⟩ := ih hord.2 h
          refine ⟨k + 1, by simpa using hk, ?_⟩
          rw [hlen, Nat.mul_assoc] at hprod
          simpa using hprod

/-- **What a grid enumerates.** For axes with arbitrary bounds and sorted entries, any cell shape and
any clip ranges: once `selection_grid_init` has returned OK, `selection_grid_next` produces `count`
coordinates and then stops; they are strictly increasing in the lexicographic order, and they are
the coordinates of the cells met along every axis. A cell met is a cell of the clip range that
contains a selected index, as soon as the entries of an index axis lie inside its bounds. The
budget is refused only where the cells met along the first axes are more than `max_cells`. -/
theorem selectionGrid_enumerates (dims : List GridDim) (maxCells : ℕ)
    (hord : ∀ g ∈ dims, g.dim.Ordered) :
    (∀ grid, selectionGridInit dims maxCells = .ok grid → ∃ coords : List (List ℕ),
      (∀ n, selectionGridLoop (grid.count + n) grid = coords) ∧
      coords.length = grid.count ∧
      coords.Pairwise (List.Lex (· < ·)) ∧ coords.Nodup ∧
      (∀ coordinate, coordinate ∈ coords ↔
        List.Forall₂ (fun c g => GridDim.Meets g c) coordinate dims) ∧
      ∀ g ∈ dims, (∀ e ∈ g.dim.indices, g.dim.lo ≤ e.source ∧ e.source < g.dim.hi) →
        ∀ c, g.Meets c ↔ g.InClip c ∧ ∃ x, g.dim.Selects x ∧ x / g.cell = c) ∧
    (selectionGridInit dims maxCells = .error .budget → ∃ k ≤ dims.length,
      maxCells < ((dims.take k).map fun g => g.metCells.length).prod) := by
  refine ⟨fun grid h => ?_, fun h => ?_⟩
  · obtain ⟨hvalid, hcount, hloop⟩ := selectionGridInit_met hord h
    have hlex : (cartesian (dims.map GridDim.metCells)).Pairwise (List.Lex (· < ·)) :=
      pairwise_cartesian (by simpa using fun g _ => g.pairwise_metCells)
    refine ⟨_, hloop, ?_, hlex, ?_, fun coordinate => ?_, fun g hg hinside c => ?_⟩
    · simp [hcount, Function.comp_def]
    · refine nodup_cartesian ?_
      simpa using fun g _ => g.pairwise_metCells.imp Nat.ne_of_lt
    · rw [mem_cartesian, List.forall₂_map_right_iff]
      simp only [GridDim.mem_metCells]
    · obtain ⟨hbeg, hlt, -⟩ := hvalid g hg
      have hwf : g.dim.Wf := ⟨hbeg, hlt, (hord g hg).stop_lt, (hord g hg).sorted, hinside⟩
      rw [← GridDim.mem_metCells, GridDim.metCells_eq_cells hwf,
        GridDim.mem_cells hwf (hvalid g hg).cell_pos]
  · rw [selectionGridInit] at h
    split at h
    · cases h
    · simpa using selectionGridInitAxes_budget hord h

/-- An interval over two cells of 4 and, clipped to the first three cells of 5, an index list with a
duplicate and an index beyond the clip range. -/
theorem selectionGrid_enumerates_clipped :
    let dims : List GridDim := [⟨⟨⟨2, 7⟩, []⟩, 4, none, none⟩,
      ⟨⟨⟨1, 18⟩, [⟨1, 0⟩, ⟨1, 3⟩, ⟨11, 1⟩, ⟨17, 2⟩]⟩, 5, some 0, some 3⟩]
    selectionGridInit dims 3 = .error .budget ∧
      (∃ k ≤ dims.length, 3 < ((dims.take k).map fun g => g.metCells.length).prod) ∧
      ∃ grid, selectionGridInit dims 4 = .ok grid ∧ ∃ coords : List (List ℕ),
        (∀ n, selectionGridLoop (grid.count + n) grid = coords) ∧
          coords = [[0, 0], [0, 2], [1, 0], [1, 2]] := by
  intro dims
  have hord : ∀ g ∈ dims, g.dim.Ordered := by
    refine forall_mem_cons.mpr ⟨⟨by decide, List.Pairwise.nil, by simp⟩,
      forall_mem_singleton.mpr ⟨by decide, ?_, by decide⟩⟩
    unfold SortedEntries
    decide
  refine ⟨by decide, (selectionGrid_enumerates dims 3 hord).2 (by decide), _, rfl, ?_⟩
  obtain ⟨coords, hloop, -⟩ := (selectionGrid_enumerates dims 4 hord).1 _ rfl
  refine ⟨coords, hloop, ?_⟩
  rw [← hloop 0]
  decide

def strayDim : GridDim := ⟨⟨⟨0, 1⟩, [⟨5, 0⟩]⟩, 1, none, none⟩

/-- Cell 5 has the only selected index, and the grid has no coordinate. -/
theorem selectionGrid_stray_entry :
    strayDim.dim.Ordered ∧ strayDim.InClip 5 ∧ strayDim.dim.Selects 5 ∧ 5 / strayDim.cell = 5 ∧
      ∃ grid, selectionGridInit [strayDim] 8 = .ok grid ∧ grid.count = 0 ∧
        ∀ n, selectionGridLoop n grid = [] := by
  refine ⟨⟨by decide, pairwise_singleton _ _, by decide⟩, by decide, ?_, rfl, _, rfl, rfl,
    fun n => selectionGridLoop_finished n rfl⟩
  exact ⟨⟨5, 0⟩, mem_singleton_self _, rfl⟩

end Damacy

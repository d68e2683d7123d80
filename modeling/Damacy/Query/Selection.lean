import Mathlib.Data.List.Sort
import Damacy.Types
import Damacy.Lib.ExceptFold
import Damacy.Lib.Odometer

/-!
# Selections (`query/selection.c`)

A sample selects, along every axis, an interval or a list of indices. `queryCopy` sorts every index
list and records the hull of each axis. `queryChunkSpan` intersects one axis with one cell of a grid,
and `selectionGridInit`, `selectionGridNext` iterate over the cells of a grid that the selection
meets, optionally clipped to a box of cells.
-/

open ExceptFold

namespace Damacy

/-! ## Entry checks -/

/-- `struct query_index`: a selected source index with its position in the caller's list. Only
nonnegative indices are stored. -/
structure QueryIndex where
  source : ℕ
  output : ℕ
deriving DecidableEq, Repr

/-- `sizeof(struct query_index)`. -/
def sizeofQueryIndex : ℕ := 16

/-- `_Alignof(struct query_index)`. -/
def alignofQueryIndex : ℕ := 8

/-- One axis of a stored selection: the hull `aabb.dims[d]` and the sorted indices `axes[d]`. An
interval axis has no indices. -/
structure QueryDim where
  bounds : Interval
  indices : List QueryIndex
deriving DecidableEq, Repr

def QueryDim.count (dim : QueryDim) : ℕ := dim.indices.length

/-- What `query_copy` stores of a sample. -/
structure Query where
  uri : CString
  dims : List QueryDim
deriving DecidableEq, Repr

def axisLength : AxisSelection → Except Status ℕ
  | .interval i =>
    if i.beg < 0 ∨ i.stop ≤ i.beg then .error .inval else .ok (u64OfInt (i.stop - i.beg))
  | .indices values => if values = [] then .error .inval else .ok values.length
  | .unknown => .error .inval

/-- The index values that are rejected: negative ones and `INT64_MAX`. -/
def badIndex (value : ℤ) : Bool := value < 0 || value == int64Max

/-- `compare_indices(a, b) <= 0`. -/
def compareIndices (a b : QueryIndex) : Prop :=
  a.source < b.source ∨ (a.source = b.source ∧ a.output ≤ b.output)

instance : DecidableRel compareIndices := fun _ _ => inferInstanceAs (Decidable (_ ∨ _))

/-- The number of index entries that `query_copy` stores for an axis. -/
def indexCount : AxisSelection → ℕ
  | .indices values => values.length
  | _ => 0

/-- The stored entries of an index list: every value with its position, after `qsort`. -/
def sortedEntries (values : List ℤ) : List QueryIndex :=
  (values.zipIdx.map fun v => QueryIndex.mk v.1.toNat v.2).insertionSort compareIndices

/-- The body of the copying loop of `query_copy`: an interval is kept, an index list is stored in
ascending order of source and position, with its hull as bounds. -/
def queryCopyAxis : AxisSelection → Except Status QueryDim
  | .interval i => .ok ⟨i, []⟩
  | .indices values =>
    if values.any badIndex then .error .inval
    else
      let cursor := sortedEntries values
      .ok ⟨⟨(cursor.headD ⟨0, 0⟩).source, (cursor.getLastD ⟨0, 0⟩).source + 1⟩, cursor⟩
  | .unknown => .error .inval

/-- `query_copy`; `mallocOk` is whether the one allocation succeeds. -/
def queryCopy (mallocOk : Bool) (sample : Sample) : Except Status Query :=
  match sample.uri with
  | none => .error .inval
  | some uri => do
    failIf (sample.axes.length = 0 ∨ maxRank < sample.axes.length) .inval
    let uriBytes := uri.length + 1
    failIf (uint64Max - alignofQueryIndex + 1 < uriBytes) .budget
    let offset := (uriBytes + alignofQueryIndex - 1) / alignofQueryIndex * alignofQueryIndex
    let _ ← sample.axes.mapM axisLength
    let count := (sample.axes.map indexCount).sum
    failIf ((uint64Max - offset) / sizeofQueryIndex < count) .budget
    failIf (mallocOk = false) .oom
    let dims ← sample.axes.mapM queryCopyAxis
    return ⟨uri, dims⟩

/-! ## Spans of one axis -/

/-- The binary search of `query_lower_bound`, for at most `fuel` rounds. -/
def lowerBoundLoop (indices : List QueryIndex) (source : ℕ) : (fuel lo hi : ℕ) → ℕ
  | 0, lo, _ => lo
  | fuel + 1, lo, hi =>
    if lo < hi then
      let mid := lo + (hi - lo) / 2
      if (indices.getD mid ⟨0, 0⟩).source < source then
        lowerBoundLoop indices source fuel (mid + 1) hi
      else lowerBoundLoop indices source fuel lo mid
    else lo

/-- `query_lower_bound`: every round shrinks the search range, so `count` rounds are enough. -/
def queryLowerBound (indices : List QueryIndex) (source : ℕ) : ℕ :=
  lowerBoundLoop indices source indices.length 0 indices.length

structure SelectionSpan where
  begin_ : ℕ
  count : ℕ
deriving DecidableEq, Repr

/-- `query_chunk_span`: the entries (index axis) or positions (interval axis) of the selection
inside the cell `[origin, origin + extent)`. -/
def queryChunkSpan (dim : QueryDim) (origin extent : ℕ) : SelectionSpan :=
  let stop := if uint64Max - extent < origin then uint64Max else origin + extent
  if dim.count ≠ 0 then
    let first := queryLowerBound dim.indices origin
    ⟨first, queryLowerBound dim.indices stop - first⟩
  else
    let first := if u64OfInt dim.bounds.beg < origin then origin else u64OfInt dim.bounds.beg
    let stop := if u64OfInt dim.bounds.stop < stop then u64OfInt dim.bounds.stop else stop
    ⟨first, if first < stop then stop - first else 0⟩

/-! ## Grids of cells -/

/-- `struct selection_grid_axis`; `indices` is `none` for a `NULL` pointer. -/
structure SelectionGridAxis where
  indices : Option (List QueryIndex)
  cellSizeIndex : ℕ
  spanCellBeg : ℕ
  spanCellEnd : ℕ
  currentCell : ℕ
  spanEntryBeg : ℕ
  spanEntryEnd : ℕ
  currentEntry : ℕ
deriving DecidableEq, Repr

structure SelectionGrid where
  axes : List SelectionGridAxis
  count : ℕ
  finished : Bool
deriving DecidableEq, Repr

/-- What `selection_grid_init` is given for one axis: the selection, the cell extent and the
optional clip range in cells. -/
structure GridDim where
  dim : QueryDim
  cell : ℕ
  clipBeg : Option ℕ := none
  clipEnd : Option ℕ := none
deriving DecidableEq, Repr

def cellStartIndex (cell size : ℕ) : ℕ := if uint64Max / size < cell then uint64Max else cell * size

def entryCell (indices : List QueryIndex) (size entry : ℕ) : ℕ :=
  (indices.getD entry ⟨0, 0⟩).source / size

/-- The counting loop of `selection_grid_init`: how often the cell changes over the next `n`
entries from `entry`, starting from `previous`. -/
def countCells (indices : List QueryIndex) (size : ℕ) : (n entry previous : ℕ) → ℕ
  | 0, _, _ => 0
  | n + 1, entry, previous =>
    let cell := entryCell indices size entry
    (if cell ≠ previous then 1 else 0) + countCells indices size n (entry + 1) cell

/-- `span_cell.beg`: the first cell of the hull, raised to the clip range. -/
def GridDim.spanBeg (g : GridDim) : ℕ :=
  let beg := u64OfInt g.dim.bounds.beg / g.cell
  match g.clipBeg with
  | some c => if beg < c then c else beg
  | none => beg

/-- `span_cell.end`: the end of the hull in cells, lowered to the clip range. -/
def GridDim.spanEnd (g : GridDim) : ℕ :=
  let stop := (u64OfInt g.dim.bounds.stop - 1) / g.cell + 1
  match g.clipEnd with
  | some c => if c < stop then c else stop
  | none => stop

/-- The body of the loop of `selection_grid_init` up to the cell count of the axis. -/
def selectionGridAxisInit (g : GridDim) : SelectionGridAxis × ℕ :=
  let beg := g.spanBeg
  let stop := g.spanEnd
  let cells := if beg < stop then stop - beg else 0
  if g.dim.count ≠ 0 ∧ cells ≠ 0 then
    let first := queryLowerBound g.dim.indices (cellStartIndex beg g.cell)
    let last := queryLowerBound g.dim.indices (cellStartIndex stop g.cell)
    let cells := countCells g.dim.indices g.cell (last - first) first uint64Max
    ({ indices := some g.dim.indices, cellSizeIndex := g.cell, spanCellBeg := beg,
       spanCellEnd := stop,
       currentCell := if cells ≠ 0 then entryCell g.dim.indices g.cell first else beg,
       spanEntryBeg := first, spanEntryEnd := last, currentEntry := first }, cells)
  else
    ({ indices := none, cellSizeIndex := g.cell, spanCellBeg := beg, spanCellEnd := stop,
       currentCell := beg, spanEntryBeg := 0, spanEntryEnd := 0, currentEntry := 0 }, cells)

/-- The loop of `selection_grid_init` over the axes. -/
def selectionGridInitAxes (maxCells : ℕ) :
    SelectionGrid → List GridDim → Except Status SelectionGrid
  | grid, [] => .ok grid
  | grid, g :: rest =>
    if g.dim.bounds.beg < 0 ∨ g.dim.bounds.stop ≤ g.dim.bounds.beg ∨ g.cell = 0 then .error .inval
    else
      let (axis, cells) := selectionGridAxisInit g
      let axes := grid.axes ++ [axis]
      if cells = 0 then selectionGridInitAxes maxCells ⟨axes, 0, true⟩ rest
      else if maxCells / cells < grid.count then .error .budget
      else selectionGridInitAxes maxCells ⟨axes, grid.count * cells, grid.finished⟩ rest

def selectionGridInit (dims : List GridDim) (maxCells : ℕ) : Except Status SelectionGrid :=
  if dims.length = 0 ∨ maxRank < dims.length then .error .rank
  else selectionGridInitAxes maxCells ⟨[], 1, false⟩ dims

/-- The `while` loop of `selection_grid_next` on an index axis: the first of the next `n` entries
from `entry` whose cell differs from `current`. -/
def nextCell (indices : List QueryIndex) (size current : ℕ) : (n entry : ℕ) → Option (ℕ × ℕ)
  | 0, _ => none
  | n + 1, entry =>
    let cell := entryCell indices size entry
    if cell ≠ current then some (entry, cell) else nextCell indices size current n (entry + 1)

/-- The body of the loop of `selection_grid_next`: move one axis to its next cell, or back to its
first one; the flag tells that it went back. -/
def SelectionGridAxis.step (axis : SelectionGridAxis) : SelectionGridAxis × Bool :=
  match axis.indices with
  | some indices =>
    match nextCell indices axis.cellSizeIndex axis.currentCell
        (axis.spanEntryEnd - (axis.currentEntry + 1)) (axis.currentEntry + 1) with
    | some (entry, cell) => ({ axis with currentEntry := entry, currentCell := cell }, false)
    | none =>
      ({ axis with
         currentEntry := axis.spanEntryBeg
         currentCell := entryCell indices axis.cellSizeIndex axis.spanEntryBeg }, true)
  | none =>
    if axis.currentCell + 1 < axis.spanCellEnd then
      ({ axis with currentCell := axis.currentCell + 1 }, false)
    else ({ axis with currentCell := axis.spanCellBeg }, true)

/-- `selection_grid_next`: the coordinate of the current cell, if any is left, and the grid moved
on to the next one. -/
def selectionGridNext (grid : SelectionGrid) : Option (List ℕ × SelectionGrid) :=
  if grid.finished then none
  else
    let coordinate := grid.axes.map (·.currentCell)
    let (axes, wrapped) := Odometer.advance SelectionGridAxis.step grid.axes
    some (coordinate, { grid with axes, finished := wrapped })

/-- The coordinates that a loop `while (selection_grid_next(&grid, coordinate))` passes through,
for at most `fuel` rounds. -/
def selectionGridLoop : (fuel : ℕ) → SelectionGrid → List (List ℕ)
  | 0, _ => []
  | fuel + 1, grid =>
    match selectionGridNext grid with
    | none => []
    | some (coordinate, grid) => coordinate :: selectionGridLoop fuel grid

/-- The coordinates of a freshly initialised grid; the loop ends after `count` rounds. -/
def selectionGridCoords (grid : SelectionGrid) : List (List ℕ) := selectionGridLoop grid.count grid

end Damacy

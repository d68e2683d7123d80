import Damacy.Lib.RowMajor
import Damacy.Planner.PlanBuilder

/-!
# Assembling a batch on the CPU (`executor/cpu_executor.c`, `pipeline/components.c`)

A decoded chunk is copied into the output buffer of its batch once for every use the plan links to
it: row by row over the part of a region that the chunk covers (`assembleRows`), or position by
position for a region with index axes (`gatherRows`). The loops do not depend on what the buffer
holds, so they are modelled by the rows they copy; `copyRow` then writes one row.
-/

open ExceptFold

namespace Damacy

/-! ## Layout of a batch -/

/-- The loop of `batch_spec_layout` over the extents, with the number of elements so far. -/
def layoutElements : ℕ → List ℤ → Except Status ℕ
  | elements, [] => .ok elements
  | elements, extent :: rest => do
    failIf (extent ≤ 0 ∨ int64Max / u64OfInt extent < elements) .inval
    layoutElements (elements * u64OfInt extent) rest

/-- The loop that computes row-major strides, from the last axis to the first; entry `d` belongs to
axis `d` of the batch, whose first axis is the sample. -/
def layoutStrides : List ℤ → List ℕ
  | [] => [1]
  | extent :: rest => (layoutStrides rest).headD 1 * u64OfInt extent :: layoutStrides rest

structure BatchLayout where
  shape : List ℤ
  strides : List ℕ
  bytes : ℕ
deriving DecidableEq, Repr

def batchSpecLayout (spec : BatchSpec) : Except Status BatchLayout := do
  failIf (spec.samplesPerBatch = 0 ∨ 65535 < spec.samplesPerBatch ∨ spec.sampleShape.length = 0 ∨
    maxRank < spec.sampleShape.length) .inval
  let elements ← layoutElements spec.samplesPerBatch spec.sampleShape
  failIf (uint64Max / damacyDtypeBpe spec.dtype < elements) .budget
  return {
    shape := spec.samplesPerBatch :: spec.sampleShape
    strides := layoutStrides spec.sampleShape
    bytes := elements * damacyDtypeBpe spec.dtype }

/-! ## Rows -/

/-- One call of `copy_row`: `width` elements from offset `source` of the decoded chunk to offset
`destination` of the output. -/
structure Row where
  destination : ℕ
  source : ℕ
  width : ℕ
deriving DecidableEq, Repr

/-- What both loops know of one axis: the region's selection, the extent of a chunk, and the first
source index of this chunk. -/
structure ChunkAxis where
  dim : QueryDim
  inner : ℕ
  origin : ℕ
deriving DecidableEq, Repr

def chunkAxes (region : PlanRegion) (metadata : ZarrMetadata) (coordinate : List ℕ) :
    List ChunkAxis :=
  List.zipWith (fun dim (p : ZarrDim × ℕ) =>
    ⟨dim, p.1.innerChunkShape, u64 (p.2 * p.1.innerChunkShape)⟩)
    region.dims (metadata.dims.zip coordinate)

/-- The offsets of a row, accumulated axis by axis from the output position and the source index
taken on each axis. -/
def rowOffsets : ℕ × ℕ → List (ChunkAxis × ℕ) → List (ℕ × ℕ) → ℕ × ℕ
  | acc, (axis, stride) :: rest, (output, coordinate) :: picks =>
    rowOffsets (u64 (acc.1 + output * stride),
      u64Sub (acc.2 * axis.inner + coordinate) axis.origin) rest picks
  | acc, _, _ => acc

/-- The row that starts at the given output positions and source indices. -/
def rowAt (strides : List ℕ) (region : PlanRegion) (axes : List ChunkAxis) (width : ℕ)
    (picks : List (ℕ × ℕ)) : Row :=
  let offsets := rowOffsets (u64 (region.sample * strides.headD 0), 0) (axes.zip strides.tail) picks
  ⟨offsets.1, offsets.2, width⟩

/-! ## Copied regions -/

/-- `lo[d]` of `assemble_chunk`. -/
def ChunkAxis.lo (a : ChunkAxis) : ℕ :=
  if u64OfInt a.dim.bounds.beg < a.origin then a.origin else u64OfInt a.dim.bounds.beg

/-- `hi[d]` of `assemble_chunk`. -/
def ChunkAxis.hi (a : ChunkAxis) : ℕ :=
  if u64 (a.origin + a.inner) < u64OfInt a.dim.bounds.stop then u64 (a.origin + a.inner)
  else u64OfInt a.dim.bounds.stop

/-- The body of the loop of `assemble_chunk` that moves the coordinate on along one axis. -/
def copyStep (s : ChunkAxis × ℕ) : (ChunkAxis × ℕ) × Bool :=
  if s.2 + 1 < s.1.hi then ((s.1, s.2 + 1), false) else ((s.1, s.1.lo), true)

/-- Output position and source index of a coordinate of a copied region. -/
def copyPick (s : ChunkAxis × ℕ) : ℕ × ℕ := (u64Sub s.2 (u64OfInt s.1.dim.bounds.beg), s.2)

/-- The rows that `assemble_chunk` copies for a region without index axes: all axes but the last
run through an odometer, the last one is the row. -/
def assembleRows (strides : List ℕ) (region : PlanRegion) (axes : List ChunkAxis) : List Row :=
  match axes.getLast? with
  | none => []
  | some last =>
    let start := axes.map fun a => (a, a.lo)
    -- no axis takes more values than this, and each at least its first one
    let fuel := (axes.map fun a => max 1 (a.hi - a.lo)).prod
    (Odometer.visits (Odometer.advance copyStep) fuel start.dropLast).map fun s =>
      rowAt strides region axes (u64Sub last.hi last.lo) ((s ++ [(last, last.lo)]).map copyPick)

/-! ## Gathered regions -/

def ChunkAxis.span (a : ChunkAxis) : SelectionSpan := queryChunkSpan a.dim a.origin a.inner

/-- The body of the loop of `gather_chunk` that moves the position on along one axis. -/
def gatherStep (s : ChunkAxis × ℕ) : (ChunkAxis × ℕ) × Bool :=
  if s.2 + 1 < s.1.span.count then ((s.1, s.2 + 1), false) else ((s.1, 0), true)

/-- Output position and source index of a position of a gathered region. -/
def gatherPick (s : ChunkAxis × ℕ) : ℕ × ℕ :=
  let p := s.1.span.begin_ + s.2
  if s.1.dim.count ≠ 0 then
    ((s.1.dim.indices.getD p ⟨0, 0⟩).output, (s.1.dim.indices.getD p ⟨0, 0⟩).source)
  else (u64Sub p (u64OfInt s.1.dim.bounds.beg), p)

/-- The rows that `gather_chunk` copies. A last axis without indices is copied as one row;
otherwise every position is a row of width one. -/
def gatherRows (strides : List ℕ) (region : PlanRegion) (axes : List ChunkAxis) : List Row :=
  let elements := axes.foldl (fun n a => u64 (n * a.span.count)) 1
  match axes.getLast? with
  | none => []
  | some last =>
    let start := axes.map fun a => (a, 0)
    let fuel := (axes.map fun a => max 1 a.span.count).prod
    if elements = 0 then []
    else if last.dim.count ≠ 0 then
      (Odometer.visits (Odometer.advance gatherStep) fuel start).map fun s =>
        rowAt strides region axes 1 (s.map gatherPick)
    else
      (Odometer.visits (Odometer.advance gatherStep) fuel start.dropLast).map fun s =>
        rowAt strides region axes last.span.count ((s ++ [(last, 0)]).map gatherPick)

/-! ## One chunk -/

/-- The loop over the uses of a chunk, `for (u = first_use; u != UINT32_MAX; u = uses[u].next)`,
for at most `fuel` rounds. -/
def useChain (uses : List PlanUse) : (fuel : ℕ) → Option ℕ → List PlanUse
  | 0, _ => []
  | _ + 1, none => []
  | fuel + 1, some u =>
    match uses[u]? with
    | none => []
    | some use => use :: useChain uses fuel use.next

/-- The rows that `assemble_chunk` copies for one use of a chunk. -/
def useRows (plan : PreparedPlan) (strides : List ℕ) (metadata : ZarrMetadata) (chunk : PlanChunk)
    (use : PlanUse) : List Row :=
  match plan.regions[use.region]? with
  | none => []
  | some region =>
    let axes := chunkAxes region metadata chunk.coordinate
    match region.operation with
    | .gather => gatherRows strides region axes
    | .copy => assembleRows strides region axes

/-- An output buffer: element offset to bit pattern, `none` where nothing was written. -/
abbrev OutBuffer := ℕ → Option ℕ

/-- The element that `copy_row` writes for source offset `source`: the fill value of a missing
chunk, the element itself between matching types, its conversion otherwise. -/
def rowElement (ops : FloatOps) (output : OutDtype) (metadata : ZarrMetadata) (missing : Bool)
    (decoded : ℕ → ℕ) (source : ℕ) : ℕ :=
  if missing then dtypeConvert ops output metadata.dtype metadata.fillValue
  else if dtypeMatches output metadata.dtype then decoded source
  else dtypeConvert ops output metadata.dtype (decoded source)

def copyRow (element : ℕ → ℕ) (buf : OutBuffer) (row : Row) : OutBuffer := fun off =>
  if row.destination ≤ off ∧ off < row.destination + row.width then
    some (element (row.source + (off - row.destination)))
  else buf off

/-- `assemble_chunk` on chunk `k` of a plan, whose decoded elements are `decoded`. -/
def assembleChunk (ops : FloatOps) (plan : PreparedPlan) (strides : List ℕ) (decoded : ℕ → ℕ)
    (buf : OutBuffer) (k : ℕ) : OutBuffer :=
  match plan.chunks[k]? with
  | none => buf
  | some chunk =>
    match plan.arrays[chunk.array]? with
    | none => buf
    | some array =>
      let rows := (useChain plan.uses plan.uses.length chunk.firstUse).flatMap
        (useRows plan strides array.metadata chunk)
      rows.foldl (copyRow (rowElement ops plan.output.dtype array.metadata chunk.missing decoded)) buf

end Damacy

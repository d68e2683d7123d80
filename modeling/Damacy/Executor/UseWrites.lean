import Damacy.Executor.BatchContent
import Damacy.Executor.KernelWrites
import Damacy.Lib.LittleEndian

/-!
# The writes of a batch

`cpuWrites` lists what the CPU executor writes for a plan: for every use of every chunk the copied
elements with their sources. `chunkWrites_eq_map` ties it to the model of `assemble_chunk`. Over a
whole plan the output positions are those of the samples, each exactly once (`outputs_perm`).
-/

open List Odometer RowMajor

namespace Damacy

/-! ## What the CPU executor writes -/

def PlanChunk.data (chunk : PlanChunk) (metadata : ZarrMetadata) : ChunkData :=
  { path := chunk.path
    offset := chunk.offset
    compressedNbytes := chunk.encodedBytes
    decompressedNbytes := chunk.decodedBytes
    codec := metadata.innerCodec }

/-- What `copy_row` makes an element from. -/
def rowSource (metadata : ZarrMetadata) (chunk : PlanChunk) (source : ℤ) : WriteSource :=
  if chunk.missing then .fill metadata.dtype metadata.fillValue
  else .element metadata.dtype (chunk.data metadata) source

/-- The element writes of `assemble_chunk` for one use of a chunk. -/
def useWrites (plan : PreparedPlan) (strides : List ℕ) (use : PlanUse) : List ElementWrite :=
  match useRecords plan use with
  | none => []
  | some (chunk, _, array) =>
    ((useRows plan strides array.metadata chunk use).flatMap Row.writes).map fun w =>
      ⟨w.1, rowSource array.metadata chunk w.2⟩

/-- The element writes of `assemble_chunk` on chunk `k`. -/
def cpuChunkWrites (plan : PreparedPlan) (strides : List ℕ) (k : ℕ) : List ElementWrite :=
  match plan.chunks[k]? with
  | none => []
  | some chunk => (useChain plan.uses plan.uses.length chunk.firstUse).flatMap (useWrites plan strides)

def cpuWrites (plan : PreparedPlan) (strides : List ℕ) : List ElementWrite :=
  (List.range plan.chunks.length).flatMap (cpuChunkWrites plan strides)

/-! ## The values that are written -/

def elementAt (dtype : Dtype) (bytes : List UInt8) (index : ℕ) : ℕ :=
  LittleEndian.value ((bytes.drop (index * dtypeBpe dtype)).take (dtypeBpe dtype))

theorem elementAt_lt (dtype : Dtype) (bytes : List UInt8) (index : ℕ) :
    elementAt dtype bytes index < 2 ^ (8 * dtypeBpe dtype) := by
  rw [Nat.pow_mul]
  refine (LittleEndian.value_lt _).trans_le (Nat.pow_le_pow_right (by decide) ?_)
  exact length_take_le _ _

/-- `load_source`: the kernel converts always, where `copy_row` copies between matching types. -/
def WriteSource.value (ops : FloatOps) (output : OutDtype) (decoded : ChunkData → List UInt8) :
    WriteSource → ℕ
  | .fill dtype value => dtypeConvert ops output dtype value
  | .element dtype chunk index =>
    dtypeConvert ops output dtype (elementAt dtype (decoded chunk) index.toNat)

theorem value_rowSource (ops : FloatOps) (output : OutDtype) (decoded : ChunkData → List UInt8)
    (metadata : ZarrMetadata) (chunk : PlanChunk) (source : ℕ) :
    (rowSource metadata chunk source).value ops output decoded =
      rowElement ops output metadata chunk.missing
        (elementAt metadata.dtype (decoded (chunk.data metadata))) source := by
  unfold rowSource rowElement
  split
  · rfl
  · split
    · exact dtypeConvert_of_matches ‹_› (elementAt_lt _ _ _)
    · rfl

def chunkElements (plan : PreparedPlan) (decoded : ChunkData → List UInt8) (k : ℕ) : ℕ → ℕ :=
  match plan.chunks[k]? with
  | none => fun _ => 0
  | some chunk =>
    match plan.arrays[chunk.array]? with
    | none => fun _ => 0
    | some array => elementAt array.metadata.dtype (decoded (chunk.data array.metadata))

section Batch

variable {arrays : PrefetchHandle → CacheQuery ZarrMetadata}
  {shards : PrefetchHandle → CacheQuery (List ShardEntry)} {output : BatchSpec}
  {limits : PlanLimits} {raws : List Sample} {samples : List PlannerSample} {plan : PreparedPlan}
  {layout : BatchLayout} {walks : List (PlanSampleCtx × List Visit)} {ctx : PlanSampleCtx}
  {vs : List Visit} {i : ℕ} {raw : Sample} {sample : PlannerSample} {rows : List PlanRow}

theorem UseSpec.records {use : PlanUse} {chunk : PlanChunk}
    (hu : UseSpec arrays shards raws samples output limits plan i raw sample ctx vs rows use chunk) :
    useRecords plan use = some (chunk, planRegion sample i ctx.array,
      ⟨sample.query.uri, ctx.metadata⟩) := by
  have harray := hu.spec.array
  rw [← hu.array_eq] at harray
  simp [useRecords, hu.chunk_eq, harray, hu.use_region, hu.spec.region]

theorem BatchPlan.useWrites_eq (h : BatchPlan arrays shards raws samples output limits plan layout)
    {use : PlanUse} {chunk : PlanChunk}
    (hu : UseSpec arrays shards raws samples output limits plan i raw sample ctx vs rows use chunk) :
    useWrites plan layout.strides use =
      (kernelWrites output.shape i (List.zipWith PlanRow.axis rows chunk.coordinate)).map fun w =>
        ⟨w.1, rowSource ctx.metadata chunk w.2⟩ := by
  simp only [useWrites, hu.records, h.useRows_writes hu, kernelWrites, map_map]
  rfl

theorem BatchPlan.chunkWrites_eq_map
    (h : BatchPlan arrays shards raws samples output limits plan layout) (ops : FloatOps)
    (decoded : ChunkData → List UInt8) (k : ℕ) :
    chunkWrites ops plan layout.strides (chunkElements plan decoded k) k =
      (cpuChunkWrites plan layout.strides k).map fun w =>
        (w.output.toNat, w.source.value ops plan.output.dtype decoded) := by
  obtain ⟨walks, hspec⟩ := h.exists_spec
  unfold chunkWrites cpuChunkWrites chunkElements
  cases hk : plan.chunks[k]? with
  | none => rfl
  | some chunk =>
    dsimp only
    rw [hspec.useChain_eq hk, map_flatMap]
    have huse : ∀ use ∈ (plan.uses.filter (·.chunk == k)).reverse, ∀ array,
        plan.arrays[chunk.array]? = some array →
        (useWrites plan layout.strides use).map
          (fun w => (w.output.toNat, w.source.value ops plan.output.dtype decoded)) =
        ((useRows plan layout.strides array.metadata chunk use).flatMap Row.writes).map fun w =>
          (w.1, rowElement ops plan.output.dtype array.metadata chunk.missing
            (elementAt array.metadata.dtype (decoded (chunk.data array.metadata))) w.2) := by
      intro use hmem array harray
      rw [mem_reverse, mem_filter, beq_iff_eq] at hmem
      obtain ⟨hmem, rfl⟩ := hmem
      obtain ⟨i, raw, sample, ctx, vs, rows, chunk', hu⟩ := h.use_spec hmem
      obtain rfl : chunk = chunk' := Option.some.inj (hk.symm.trans hu.chunk_eq)
      have hsame := hu.spec.array
      rw [← hu.array_eq, harray] at hsame
      obtain rfl := Option.some.inj hsame
      simp only [useWrites, hu.records, map_map, Function.comp_def, value_rowSource,
        Int.toNat_natCast]
    cases harray : plan.arrays[chunk.array]? with
    | none =>
      -- every use has an array, so there are none
      symm
      rw [flatMap_eq_nil_iff]
      intro use hmem
      rw [mem_reverse, mem_filter, beq_iff_eq] at hmem
      obtain ⟨hmem, rfl⟩ := hmem
      obtain ⟨i, raw, sample, ctx, vs, rows, chunk', hu⟩ := h.use_spec hmem
      obtain rfl : chunk = chunk' := Option.some.inj (hk.symm.trans hu.chunk_eq)
      have hsome := hu.spec.array
      rw [← hu.array_eq, harray] at hsome
      cases hsome
    | some array =>
      dsimp only
      rw [map_flatMap]
      apply flatMap_congr
      intro use hmem
      exact (huse use hmem array harray).symm

theorem BatchPlan.cpuWrites_perm
    (h : BatchPlan arrays shards raws samples output limits plan layout) :
    (cpuWrites plan layout.strides).Perm (plan.uses.flatMap (useWrites plan layout.strides)) := by
  obtain ⟨walks, hspec⟩ := h.exists_spec
  have hkeys : ∀ use ∈ plan.uses, use.chunk < plan.chunks.length := by
    intro use huse
    obtain ⟨_, _, _, _, _, _, chunk, hu⟩ := h.use_spec huse
    exact (List.getElem?_eq_some_iff.mp hu.chunk_eq).1
  have hchunk : ∀ k ∈ List.range plan.chunks.length, (cpuChunkWrites plan layout.strides k).Perm
      ((plan.uses.filter (·.chunk == k)).flatMap (useWrites plan layout.strides)) := by
    intro k hk
    have hget := getElem?_eq_getElem (mem_range.mp hk)
    simp only [cpuChunkWrites, hget, hspec.useChain_eq hget]
    exact (reverse_perm _).flatMap_right _
  have hgroup := (CountingSort.grouped_perm PlanUse.chunk hkeys).flatMap_right
    (useWrites plan layout.strides)
  rw [CountingSort.grouped, flatMap_assoc] at hgroup
  exact (List.Perm.flatMap_left _ hchunk).trans hgroup

/-! ## Every output element is written once -/

def useKey (plan : PreparedPlan) (use : PlanUse) : ℕ × Option (List ℕ) :=
  (use.region, plan.chunks[use.chunk]?.map PlanChunk.coordinate)

theorem BatchPlan.nodup_useKey (h : BatchPlan arrays shards raws samples output limits plan layout) :
    (plan.uses.map (useKey plan)).Nodup := by
  obtain ⟨walks, hspec⟩ := h.exists_spec
  obtain ⟨m, table, hinv⟩ := hspec.inv
  have hvisits : plan.uses.map (useKey plan) =
      (walks.flatMap Prod.snd).map fun v => (v.region, some v.chunk.coordinate) := by
    refine map_eq_of_forall₂ hinv.uses fun use v huv => ?_
    obtain ⟨chunk, hchunk, hkey⟩ := Option.map_eq_some_iff.mp huv.2
    have hcoord : chunk.coordinate = v.chunk.coordinate := congrArg Prod.snd hkey
    simp only [useKey, huv.1, hchunk, Option.map_some, hcoord]
  rw [hvisits, map_flatMap, nodup_flatMap]
  constructor
  · intro walk hwalk
    obtain ⟨i, hi⟩ := getElem?_of_mem hwalk
    obtain ⟨raw, sample, rows, hs⟩ := h.sample_spec hspec hi
    -- within a sample, the coordinates are those of the chunk grid
    have hcoords : (walk.2.map fun v => v.chunk.coordinate).Nodup := by
      refine hs.walk.perm.nodup_iff.mpr (nodup_cartesian ?_)
      intro l hl
      obtain ⟨r, -, rfl⟩ := mem_map.mp hl
      exact (GridDim.pairwise_cells _).imp Nat.ne_of_lt
    apply List.Nodup.of_map (fun q : ℕ × Option (List ℕ) => q.2)
    rw [map_map]
    have hsome : (walk.2.map ((fun q : ℕ × Option (List ℕ) => q.2) ∘
        fun v => (v.region, some v.chunk.coordinate))) =
        (walk.2.map fun v => v.chunk.coordinate).map some := by
      rw [map_map]
      rfl
    rw [hsome]
    exact hcoords.map (Option.some_injective _)
  · -- different samples have different regions
    rw [pairwise_iff_getElem]
    intro a b ha hb hab
    obtain ⟨_, _, _, hsa⟩ := h.sample_spec hspec (getElem?_eq_getElem ha)
    obtain ⟨_, _, _, hsb⟩ := h.sample_spec hspec (getElem?_eq_getElem hb)
    intro q hqa hqb
    obtain ⟨v, hv, rfl⟩ := mem_map.mp hqa
    obtain ⟨v', hv', heq⟩ := mem_map.mp hqb
    have hregion : v'.region = v.region := congrArg Prod.fst heq
    rw [(hsa.visit_spec hv).1, (hsb.visit_spec hv').1] at hregion
    omega

theorem SampleSpec.rows_unique {raw' : Sample} {sample' : PlannerSample} {ctx' : PlanSampleCtx}
    {vs' : List Visit} {rows' : List PlanRow}
    (hs : SampleSpec arrays shards raws samples output limits plan i raw sample ctx vs rows)
    (hs' : SampleSpec arrays shards raws samples output limits plan i raw' sample' ctx' vs' rows') :
    raw' = raw ∧ rows' = rows := by
  obtain rfl : raw' = raw := Option.some.inj (hs'.raw_eq.symm.trans hs.raw_eq)
  obtain rfl : sample' = sample := Option.some.inj (hs'.sample_eq.symm.trans hs.sample_eq)
  have hmeta : ctx'.metadata = ctx.metadata := Except.ok.inj (hs'.metadata.symm.trans hs.metadata)
  refine ⟨rfl, ?_⟩
  have hfst := hs'.walk.dims.symm.trans hs.walk.dims
  have hsnd := hs'.walk.metadata
  rw [hmeta, hs.walk.metadata] at hsnd
  rw [← zip_unzip rows', ← zip_unzip rows, unzip_eq_map, unzip_eq_map, hfst, hsnd]

theorem Stores.nodup_spanPicks {a : AxisSelection} {dim : QueryDim} (hs : Stores a dim)
    {span : SelectionSpan} (hspan : dim.indices ≠ [] → span.begin_ + span.count ≤ dim.count) :
    (dim.spanPicks span).Nodup := by
  refine List.Nodup.map_on ?_ (nodup_range' _)
  intro p hp q hq heq
  by_cases hix : dim.indices = []
  · simp only [QueryDim.pickAt, hix, if_true, Prod.mk.injEq] at heq
    exact heq.2
  · have hle := hspan hix
    rw [mem_range'_1] at hp hq
    have hp' : p < dim.indices.length := by simp only [QueryDim.count] at hle; omega
    have hq' : q < dim.indices.length := by simp only [QueryDim.count] at hle; omega
    simp only [QueryDim.pickAt, hix, if_false, Prod.mk.injEq, getD_eq_getElem _ _ hp',
      getD_eq_getElem _ _ hq'] at heq
    have hentry : dim.indices[p] = dim.indices[q] :=
      inj_on_of_nodup_map hs.outputs (getElem_mem hp') (getElem_mem hq') heq.1
    exact (List.Nodup.getElem_inj_iff (List.Nodup.of_map _ hs.outputs)).mp hentry

def useOutputs (shape : List ℕ) (i : ℕ) (axes : List ChunkAxis) : List ℤ :=
  (kernelWrites shape i axes).map Prod.fst

theorem mem_useOutputs {shape : List ℕ} {axes : List ChunkAxis} {x : ℤ} :
    x ∈ useOutputs shape i axes ↔ ∃ ps ∈ cartesian (axes.map ChunkAxis.picks),
      x = (ravelFrom i shape (ps.map Prod.fst) : ℕ) := by
  simp [useOutputs, kernelWrites, regionWrites, eq_comm]

theorem SampleSpec.picks_unique
    (hs : SampleSpec arrays shards raws samples output limits plan i raw sample ctx vs rows)
    {c c' : List ℕ} (hc : c.length = rows.length) (hc' : c'.length = rows.length)
    {ps ps' : List (ℕ × ℕ)}
    (hps : ps ∈ cartesian ((List.zipWith PlanRow.axis rows c).map ChunkAxis.picks))
    (hps' : ps' ∈ cartesian ((List.zipWith PlanRow.axis rows c').map ChunkAxis.picks))
    (hfst : ps.map Prod.fst = ps'.map Prod.fst) : c = c' ∧ ps = ps' := by
  have hpick := pickSpec_of_mem hs.walk.rows_wf hs.stores_rows hc hps
  have hpick' := pickSpec_of_mem hs.walk.rows_wf hs.stores_rows hc' hps'
  have hsnd : ps.map Prod.snd = ps'.map Prod.snd := by
    rw [hpick.index, hpick'.index, hfst]
  constructor
  · rw [← hpick.chunk, ← hpick'.chunk, hsnd]
  · rw [← zip_unzip ps, ← zip_unzip ps', unzip_eq_map, unzip_eq_map, hfst, hsnd]

theorem BatchPlan.nodup_useOutputs
    (h : BatchPlan arrays shards raws samples output limits plan layout)
    (hs : SampleSpec arrays shards raws samples output limits plan i raw sample ctx vs rows)
    {c : List ℕ} (hc : c ∈ cartesian (rows.map PlanRow.chunkCells)) :
    (useOutputs output.shape i (List.zipWith PlanRow.axis rows c)).Nodup := by
  have hlen : c.length = rows.length := by simpa using (mem_cartesian.mp hc).length_eq
  have hwf := h.useWf hs hc
  rw [useOutputs, kernelWrites, regionWrites, map_map, map_map]
  refine List.Nodup.map_on ?_ (nodup_cartesian ?_)
  · intro ps hps ps' hps' heq
    have hoff : ravelFrom i output.shape (ps.map Prod.fst) =
        ravelFrom i output.shape (ps'.map Prod.fst) := Int.ofNat.inj heq
    have hfst := (ravelFrom_inj (hwf.in_sample hps) (hwf.in_sample hps') hoff).2
    exact (hs.picks_unique hlen hlen hps hps' hfst).2
  · intro l hl
    obtain ⟨a, ha, rfl⟩ := mem_map.mp hl
    obtain ⟨d, hd, rfl⟩ := getElem_of_mem ha
    have hd' : d < rows.length := by
      rw [length_zipWith] at hd
      omega
    obtain ⟨cell, haxis⟩ := hwf.axis_wf _ (getElem_mem hd)
    have hstores := (hs.stores_rows.get (hs.stores_rows.length_eq ▸ hd') hd').1
    have hdim : (List.zipWith PlanRow.axis rows c)[d].dim = (rows.get ⟨d, hd'⟩).1 := by
      simp [PlanRow.axis]
    rw [← hdim] at hstores
    exact hstores.nodup_spanPicks haxis.span_end_le

theorem BatchPlan.disjoint_useOutputs
    (h : BatchPlan arrays shards raws samples output limits plan layout)
    {use use' : PlanUse} {chunk chunk' : PlanChunk} {i' : ℕ} {raw' : Sample}
    {sample' : PlannerSample} {ctx' : PlanSampleCtx} {vs' : List Visit} {rows' : List PlanRow}
    (hu : UseSpec arrays shards raws samples output limits plan i raw sample ctx vs rows use chunk)
    (hu' : UseSpec arrays shards raws samples output limits plan i' raw' sample' ctx' vs' rows' use'
      chunk')
    (hne : useKey plan use ≠ useKey plan use') :
    List.Disjoint (useOutputs output.shape i (List.zipWith PlanRow.axis rows chunk.coordinate))
      (useOutputs output.shape i' (List.zipWith PlanRow.axis rows' chunk'.coordinate)) := by
  intro x hx hx'
  obtain ⟨ps, hps, rfl⟩ := mem_useOutputs.mp hx
  obtain ⟨ps', hps', heq⟩ := mem_useOutputs.mp hx'
  have hin := (h.useWf hu.spec hu.coordinate).in_sample hps
  have hin' := (h.useWf hu'.spec hu'.coordinate).in_sample hps'
  obtain ⟨rfl, hfst⟩ := ravelFrom_inj hin hin' (Int.ofNat.inj heq)
  obtain ⟨rfl, rfl⟩ := hu.spec.rows_unique hu'.spec
  have hlen : chunk.coordinate.length = rows'.length := by
    simpa using (mem_cartesian.mp hu.coordinate).length_eq
  have hlen' : chunk'.coordinate.length = rows'.length := by
    simpa using (mem_cartesian.mp hu'.coordinate).length_eq
  obtain ⟨hcoord, -⟩ := hu.spec.picks_unique hlen hlen' hps hps' hfst
  apply hne
  simp only [useKey, hu.use_region, hu'.use_region, hu.chunk_eq, hu'.chunk_eq, Option.map_some, hcoord]

/-- **Every output element of the samples is written once.** -/
theorem BatchPlan.outputs_perm
    (h : BatchPlan arrays shards raws samples output limits plan layout) :
    ((plan.uses.flatMap (useWrites plan layout.strides)).map ElementWrite.output).Perm
      ((List.range (samples.length * output.shape.prod)).map Nat.cast) := by
  have huse : ∀ {i raw sample ctx vs rows use chunk},
      UseSpec arrays shards raws samples output limits plan i raw sample ctx vs rows use chunk →
      (useWrites plan layout.strides use).map ElementWrite.output =
        useOutputs output.shape i (List.zipWith PlanRow.axis rows chunk.coordinate) := by
    intro i raw sample ctx vs rows use chunk hu
    rw [h.useWrites_eq hu, map_map]
    rfl
  rw [map_flatMap, perm_ext_iff_of_nodup]
  · intro x
    rw [mem_flatMap, mem_map]
    constructor
    · rintro ⟨use, hmem, hx⟩
      obtain ⟨i, raw, sample, ctx, vs, rows, chunk, hu⟩ := h.use_spec hmem
      rw [huse hu] at hx
      obtain ⟨ps, hps, rfl⟩ := mem_useOutputs.mp hx
      have hin := (h.useWf hu.spec hu.coordinate).in_sample hps
      refine ⟨_, mem_range.mpr ?_, rfl⟩
      have hi := (List.getElem?_eq_some_iff.mp hu.spec.sample_eq).1
      have hlt := ravel_lt hin
      have hmul := Nat.mul_le_mul_right output.shape.prod (show i + 1 ≤ samples.length by omega)
      rw [Nat.add_mul, Nat.one_mul] at hmul
      rw [ravelFrom_eq _ hin.length_eq]
      omega
    · rintro ⟨off, hoff, rfl⟩
      rw [mem_range, ← prod_cons] at hoff
      obtain ⟨coord, hcoord, rfl⟩ := exists_ravel_eq hoff
      obtain _ | ⟨hi, ho⟩ := hcoord
      rename_i i o
      obtain ⟨raw, sample, ctx, vs, rows, hs, huses⟩ := h.exists_use hi
      rw [← h.extents_eq hs] at ho
      obtain ⟨c, hc, ps, hps, rfl⟩ := exists_picks hs.walk.rows_wf hs.stores_rows ho
      obtain ⟨use, hmem, chunk, hu, rfl⟩ := huses c hc
      refine ⟨use, hmem, ?_⟩
      rw [huse hu, mem_useOutputs]
      refine ⟨ps, hps, ?_⟩
      simp only [ravel, ravelFrom, Nat.zero_mul, Nat.zero_add]
  · rw [nodup_flatMap]
    constructor
    · intro use hmem
      obtain ⟨i, raw, sample, ctx, vs, rows, chunk, hu⟩ := h.use_spec hmem
      rw [huse hu]
      exact h.nodup_useOutputs hu.spec hu.coordinate
    · have hkeys := pairwise_map.mp h.nodup_useKey
      refine hkeys.imp_of_mem fun {use use'} hmem hmem' hne => ?_
      obtain ⟨i, raw, sample, ctx, vs, rows, chunk, hu⟩ := h.use_spec hmem
      obtain ⟨i', raw', sample', ctx', vs', rows', chunk', hu'⟩ := h.use_spec hmem'
      rw [Function.onFun, huse hu, huse hu']
      exact h.disjoint_useOutputs hu hu' hne
  · exact nodup_range.map Nat.cast_injective

end Batch

end Damacy

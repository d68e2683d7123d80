import Mathlib.Algebra.BigOperators.Ring.Finset
import Damacy.Executor.CudaAssemble
import Damacy.Executor.RegionWrites

/-!
# What the kernel writes for a chunk

The blocks and threads of a copied chunk, and the positions of a gathered chunk, count through
boxes. Both boxes are cut down to the picks of the region in the chunk, so over all threads the
kernel makes the element copies of `regionWrites`, in another order.
-/

open List Odometer RowMajor BoxCount

namespace Damacy

/-! ## Offsets -/

/-- An axis of the kernel's sample with the axis of the chunk. -/
abbrev KernelAxis := SampleDim × ChunkAxis

def pickOffsets (dst : ℕ) (ps : List (KernelAxis × (ℕ × ℕ))) : ℕ × ℕ :=
  (dst + (ps.map fun p => p.2.1 * u64OfInt p.1.1.dstStride).sum,
    (ps.map fun p => (p.2.2 - p.1.2.origin) * u64OfInt p.1.1.srcStride).sum)

/-- The strides of the sample plan are those of the batch and of the chunk. -/
structure KernelStrides (shape : List ℕ) (axes : List ChunkAxis) (dims : List SampleDim) : Prop where
  dst : dims.map SampleDim.dstStride = (strides shape).map Nat.cast
  src : dims.map SampleDim.srcStride = (strides (axes.map (·.inner))).map Nat.cast

theorem strides_lt {shape : List ℕ} (hpos : ∀ n ∈ shape, 0 < n) {bound : ℕ}
    (h : shape.prod < bound) : ∀ n ∈ strides shape, n < bound := by
  induction shape with
  | nil => simp [strides]
  | cons m shape ih =>
    rw [forall_mem_cons] at hpos
    rw [prod_cons] at h
    have hle := Nat.le_mul_of_pos_left shape.prod hpos.1
    rw [strides, forall_mem_cons]
    exact ⟨by omega, ih hpos.2 (by omega)⟩

theorem map_u64OfInt_strides {shape : List ℕ} (hpos : ∀ n ∈ shape, 0 < n)
    (h : shape.prod < 2 ^ 63) {dims : List SampleDim} {f : SampleDim → ℤ}
    (hf : dims.map f = (strides shape).map Nat.cast) :
    dims.map (fun sd => u64OfInt (f sd)) = strides shape := by
  have hmap : dims.map (fun sd => u64OfInt (f sd)) = (dims.map f).map u64OfInt := by
    rw [map_map]
    rfl
  rw [hmap, hf, map_map]
  conv_rhs => rw [← map_id (strides shape)]
  apply map_congr_left
  intro n hn
  exact u64OfInt_natCast (strides_lt hpos h n hn)

theorem sum_map_zip_mul {α β : Type} (f : β → ℕ) (g : α → ℕ) :
    ∀ {as : List α} {bs : List β}, as.length = bs.length →
      ((as.zip bs).map fun p => f p.2 * g p.1).sum = dot (bs.map f) (as.map g)
  | [], [], _ => rfl
  | a :: as, b :: bs, h => by
    rw [zip_cons_cons, map_cons, sum_cons, map_cons, map_cons, dot_cons,
      sum_map_zip_mul f g (Nat.succ.inj h)]

theorem map_eq_of_forall₂ {α β γ : Type} {R : α → β → Prop} {as : List α} {bs : List β}
    (h : List.Forall₂ R as bs) {f : α → γ} {g : β → γ} (hfg : ∀ a b, R a b → f a = g b) :
    as.map f = bs.map g := by
  induction h with
  | nil => rfl
  | cons hab _ ih => rw [map_cons, map_cons, hfg _ _ hab, ih]

section Offsets

variable {shape coordinate : List ℕ} {sample : ℕ} {axes : List ChunkAxis} {dims : List SampleDim}

theorem UseWf.shape_pos (h : UseWf shape sample axes coordinate) : ∀ n ∈ shape, 0 < n := by
  intro n hn
  rw [h.shape_eq] at hn
  obtain ⟨a, ha, rfl⟩ := mem_map.mp hn
  obtain ⟨cell, hwf⟩ := h.axis_wf a ha
  exact Nat.lt_of_lt_of_le hwf.span_count_pos hwf.span_count_le

theorem UseWf.inner_pos (h : UseWf shape sample axes coordinate) :
    ∀ n ∈ axes.map (·.inner), 0 < n := by
  intro n hn
  obtain ⟨a, ha, rfl⟩ := mem_map.mp hn
  obtain ⟨cell, hwf⟩ := h.axis_wf a ha
  exact hwf.inner_pos

theorem UseWf.span_count_pos (h : UseWf shape sample axes coordinate) :
    ∀ n ∈ axes.map (fun a => a.span.count), 0 < n := by
  intro n hn
  obtain ⟨a, ha, rfl⟩ := mem_map.mp hn
  obtain ⟨cell, hwf⟩ := h.axis_wf a ha
  exact hwf.span_count_pos

theorem UseWf.shape_prod_lt (h : UseWf shape sample axes coordinate) : shape.prod < 2 ^ 63 :=
  (Nat.le_mul_of_pos_left shape.prod (show 0 < sample + 1 by omega)).trans_lt h.batch_lt

theorem UseWf.span_count_prod_lt (h : UseWf shape sample axes coordinate) :
    (axes.map fun a => a.span.count).prod < 2 ^ 63 := by
  refine lt_of_le_of_lt ?_ h.shape_prod_lt
  rw [h.shape_eq]
  apply prod_le_prod'
  intro a ha
  obtain ⟨cell, hwf⟩ := h.axis_wf a ha
  exact hwf.span_count_le

theorem KernelStrides.length (hst : KernelStrides shape axes dims)
    (h : UseWf shape sample axes coordinate) : dims.length = axes.length := by
  have := congrArg List.length hst.dst
  rw [length_map, length_map, length_strides] at this
  rw [this, h.length_shape]

theorem pickOffsets_eq (h : UseWf shape sample axes coordinate)
    (hst : KernelStrides shape axes dims) {ps : List (ℕ × ℕ)}
    (hps : ps ∈ cartesian (axes.map ChunkAxis.picks)) :
    pickOffsets (sample * shape.prod) ((dims.zip axes).zip ps) =
      (ravelFrom sample shape (ps.map Prod.fst), chunkOffset axes ps) := by
  have hlen : ps.length = axes.length := by simpa using (mem_cartesian.mp hps).length_eq
  have hdims := hst.length h
  have hzip : (dims.zip axes).length = ps.length := by simp [hdims, hlen]
  have hfst : (ps.map Prod.fst).length = shape.length := by simp [hlen, h.length_shape]
  -- along the destination
  have hdst : (((dims.zip axes).zip ps).map fun p => p.2.1 * u64OfInt p.1.1.dstStride).sum =
      dot (ps.map Prod.fst) (strides shape) := by
    rw [sum_map_zip_mul Prod.fst (fun k : KernelAxis => u64OfInt k.1.dstStride) hzip,
      ← map_u64OfInt_strides h.shape_pos h.shape_prod_lt hst.dst]
    congr 1
    have hfst : (dims.zip axes).map Prod.fst = dims := map_fst_zip hdims.le
    conv_rhs => rw [← hfst, map_map]
    rfl
  -- along the source
  have hsrc : (((dims.zip axes).zip ps).map fun p =>
      (p.2.2 - p.1.2.origin) * u64OfInt p.1.1.srcStride).sum =
      dot (List.zipWith (fun a p => p.2 - a.origin) axes ps) (strides (axes.map (·.inner))) := by
    rw [← map_u64OfInt_strides h.inner_pos (by have := h.chunk_lt; omega) hst.src]
    clear hst hdst hzip h hps hfst
    induction axes generalizing dims ps with
    | nil =>
      obtain rfl := length_eq_zero_iff.mp hdims
      rfl
    | cons a axes ih =>
      obtain ⟨sd, dims, rfl⟩ := exists_cons_of_length_eq_add_one hdims
      obtain ⟨p, ps, rfl⟩ := exists_cons_of_length_eq_add_one hlen
      simp only [zip_cons_cons, map_cons, sum_cons, zipWith_cons_cons, dot_cons]
      rw [ih (Nat.succ.inj hlen) (Nat.succ.inj hdims)]
  rw [pickOffsets, hdst, hsrc, dot_strides hfst, dot_strides (by simp [hlen]),
    ravelFrom_eq _ hfst, chunkOffset]
  rfl

end Offsets

def kernelWrites (shape : List ℕ) (sample : ℕ) (axes : List ChunkAxis) : List (ℤ × ℤ) :=
  (regionWrites shape sample axes).map fun w => (w.1, w.2)

/-! ## Gathered chunks -/

section Gather

variable {indices : List GatherIndex} {shape coordinate : List ℕ} {sample : ℕ}
  {axes : List ChunkAxis} {s : SamplePlan} {gather : List GatherDim}

/-- What dispatch provides along one axis of a gathered chunk: the positions of the span, and
behind each its pick, relative to the chunk. -/
structure GatherAxis (indices : List GatherIndex) (a : ChunkAxis) (x : SampleDim × GatherDim) :
    Prop where
  count : x.2.count = a.span.count
  count_lt : x.2.count < 2 ^ 32
  position : ∀ p < a.span.count, gatherPosition indices x.1 x.2 p =
    ((a.dim.pickAt (a.span.begin_ + p)).2 - a.origin, (a.dim.pickAt (a.span.begin_ + p)).1)

def ChunkAxis.pickOf (x : ChunkAxis × ℕ) : ℕ × ℕ := x.1.dim.pickAt (x.1.span.begin_ + x.2)

theorem cartesian_picks_eq (axes : List ChunkAxis) :
    cartesian (axes.map ChunkAxis.picks) =
      (cartesian ((axes.map fun a => a.span.count).map List.range)).map fun pos =>
        (axes.zip pos).map ChunkAxis.pickOf := by
  have htag := cartesian_tag axes ((axes.map fun a => a.span.count).map List.range) (by simp)
  have hcomp : (fun pos => (axes.zip pos).map ChunkAxis.pickOf) =
      List.map ChunkAxis.pickOf ∘ fun pos => axes.zip pos := rfl
  rw [hcomp, ← map_map, ← htag, map_cartesian, map_map, zipWith_map_right,
    zipWith_self, map_map]
  congr 1
  apply map_congr_left
  intro a _
  rw [ChunkAxis.picks, QueryDim.spanPicks, Function.comp_apply, List.range'_eq_map_range,
    map_map, map_map]
  rfl

theorem gatherLoop_eq (indices : List GatherIndex) {l : List (SampleDim × GatherDim)}
    (hlt : ∀ x ∈ l, x.2.count < 2 ^ 32) (hpos : ∀ x ∈ l, 0 < x.2.count) {dst : ℕ}
    (hdst : dst < 2 ^ 64) (i : ℕ) :
    let ps := (l.zip (digits (l.map (·.2.count)) i).1).map fun x =>
      (x.1.1, gatherPosition indices x.1.1 x.1.2 x.2)
    gatherLoop indices dst i l = ((digits (l.map (·.2.count)) i).2,
      u64 (ps.map fun p => p.2.1 * u64OfInt p.1.srcStride).sum,
      u64 (dst + (ps.map fun p => p.2.2 * u64OfInt p.1.dstStride).sum)) := by
  induction l with
  | nil =>
    show (i, 0, dst) = (i, u64 0, u64 dst)
    rw [u64_of_lt hdst]
    rfl
  | cons x l ih =>
    rw [forall_mem_cons] at hlt hpos
    have hmod : ∀ n, u32 (n % x.2.count) = n % x.2.count := fun n =>
      u32_of_lt ((Nat.mod_lt n hpos.1).trans hlt.1)
    simp only [gatherLoop, ih hlt.2 hpos.2, hmod, digits, map_cons, zip_cons_cons,
      sum_cons, u64_add_u64_left, Prod.mk.injEq, true_and]
    constructor
    · rw [Nat.add_comm]
    · rw [Nat.add_assoc, Nat.add_comm _ (_ * _)]

theorem gatherElements_eq (gather : List GatherDim)
    (h : (gather.map GatherDim.count).prod < 2 ^ 64) :
    gatherElements gather = (gather.map GatherDim.count).prod := by
  have hfold := foldl_mul_mod GatherDim.count gather (show 1 < 2 ^ 64 by decide)
  rw [Nat.one_mul, Nat.mod_eq_of_lt h] at hfold
  exact hfold

theorem gatherSums_eq {l : List (SampleDim × GatherDim)}
    (hrel : List.Forall₂ (GatherAxis indices) axes l) {pos : List ℕ}
    (hpos : List.Forall₂ (fun p a => p < a.span.count) pos axes) (dst : ℕ) :
    let ps := (l.zip pos).map fun x => (x.1.1, gatherPosition indices x.1.1 x.1.2 x.2)
    (dst + (ps.map fun p => p.2.2 * u64OfInt p.1.dstStride).sum,
      (ps.map fun p => p.2.1 * u64OfInt p.1.srcStride).sum) =
      pickOffsets dst (((l.map Prod.fst).zip axes).zip ((axes.zip pos).map ChunkAxis.pickOf)) := by
  have hlists : (l.zip pos).map (fun x => (x.1.1, gatherPosition indices x.1.1 x.1.2 x.2)) =
      (((l.map Prod.fst).zip axes).zip ((axes.zip pos).map ChunkAxis.pickOf)).map fun p =>
        (p.1.1, (p.2.2 - p.1.2.origin, p.2.1)) := by
    induction hrel generalizing pos with
    | nil => simp
    | @cons a x axes l hx _ ih =>
      obtain _ | ⟨hp, hrest⟩ := hpos
      simp only [zip_cons_cons, map_cons, ih hrest, hx.position _ hp]
      rfl
  simp only [hlists, pickOffsets, map_map]
  rfl

theorem UseWf.offsets_lt (h : UseWf shape sample axes coordinate) {ps : List (ℕ × ℕ)}
    (hps : ps ∈ cartesian (axes.map ChunkAxis.picks)) :
    ravelFrom sample shape (ps.map Prod.fst) < 2 ^ 63 ∧ chunkOffset axes ps < 2 ^ 32 := by
  have hin := h.in_sample hps
  have hchunk := h.in_chunk hps
  constructor
  · have hlt := ravel_lt hin
    have hbatch := h.batch_lt
    rw [Nat.add_mul, Nat.one_mul] at hbatch
    rw [ravelFrom_eq _ hin.length_eq]
    omega
  · refine lt_trans (ravel_lt ?_) h.chunk_lt
    clear h hps hin
    induction hchunk with
    | nil => exact .nil
    | @cons a p _ _ hp _ ih => exact .cons (show p.2 - a.origin < a.inner by omega) ih

theorem gatherLoop_pick {l : List (SampleDim × GatherDim)}
    (h : UseWf shape sample axes coordinate)
    (hst : KernelStrides shape axes (l.map Prod.fst))
    (hrel : List.Forall₂ (GatherAxis indices) axes l) {i : ℕ}
    (hi : i < (axes.map fun a => a.span.count).prod) :
    let ps := (axes.zip (digits (axes.map fun a => a.span.count) i).1).map ChunkAxis.pickOf
    (gatherLoop indices (sample * shape.prod) i l).2 =
      (chunkOffset axes ps, ravelFrom sample shape (ps.map Prod.fst)) := by
  intro ps
  have hpos := h.span_count_pos
  have hcounts : l.map (·.2.count) = axes.map fun a => a.span.count :=
    (map_eq_of_forall₂ hrel fun _ _ hx => hx.count.symm).symm
  have hlt : ∀ x ∈ l, x.2.count < 2 ^ 32 ∧ 0 < x.2.count := by
    intro x hx
    have hmem : x.2.count ∈ l.map (·.2.count) := mem_map_of_mem hx
    obtain ⟨d, hd, rfl⟩ := getElem_of_mem hx
    rw [hcounts] at hmem
    exact ⟨(hrel.get (hrel.length_eq ▸ hd) hd).count_lt, hpos _ hmem⟩
  have hdigits : (digits (axes.map fun a => a.span.count) i).1 ∈
      cartesian ((axes.map fun a => a.span.count).map List.range) := by
    rw [← map_digits_range hpos]
    exact mem_map_of_mem (mem_range.mpr hi)
  have hps : ps ∈ cartesian (axes.map ChunkAxis.picks) := by
    rw [cartesian_picks_eq]
    exact mem_map_of_mem hdigits
  have hpositions : List.Forall₂ (fun p a => p < a.span.count)
      (digits (axes.map fun a => a.span.count) i).1 axes := by
    rw [mem_cartesian, map_map, List.forall₂_map_right_iff] at hdigits
    exact hdigits.imp fun p a hp => mem_range.mp hp
  obtain ⟨hdst, hsrc⟩ := h.offsets_lt hps
  have hdst0 : sample * shape.prod < 2 ^ 64 := by
    have := h.batch_lt
    rw [Nat.add_mul] at this
    omega
  have hsums := (gatherSums_eq hrel hpositions (sample * shape.prod)).trans
    (pickOffsets_eq h hst hps)
  rw [Prod.mk.injEq] at hsums
  have hloop := gatherLoop_eq indices (fun x hx => (hlt x hx).1) (fun x hx => (hlt x hx).2) hdst0 i
  rw [hcounts] at hloop
  simp only [hsums.1, hsums.2] at hloop
  rw [hloop, u64_of_lt (hsrc.trans (by decide)), u64_of_lt (hdst.trans (by decide))]

/-- **The threads of a gathered chunk** make the copies of its region. -/
theorem gatherBody_perm (h : UseWf shape sample axes coordinate)
    (hst : KernelStrides shape axes s.dims)
    (hoff : s.sampleDstOffElems = (sample * shape.prod : ℕ)) (hlen : gather.length = s.dims.length)
    (hrel : List.Forall₂ (GatherAxis indices) axes (s.dims.zip gather)) {gridX : ℕ}
    (hgrid : 0 < gridX) :
    ((List.range gridX).flatMap fun x => (List.range kBlockSize).flatMap fun tid =>
      gatherBody indices s gather gridX x tid).Perm (kernelWrites shape sample axes) := by
  have hsnd : (s.dims.zip gather).map Prod.snd = gather := map_snd_zip hlen.le
  have hfst : (s.dims.zip gather).map Prod.fst = s.dims := map_fst_zip hlen.ge
  have hdst : u64OfInt s.sampleDstOffElems = sample * shape.prod := by
    have := h.batch_lt
    rw [Nat.add_mul] at this
    rw [hoff, u64OfInt_natCast (by omega)]
  set l := s.dims.zip gather with hl
  have helements : gatherElements gather = (axes.map fun a => a.span.count).prod := by
    have hgather : gather.map GatherDim.count = axes.map fun a => a.span.count := by
      rw [map_eq_of_forall₂ hrel fun _ _ hx => hx.count.symm, ← hsnd, map_map]
      rfl
    have hprod := h.span_count_prod_lt
    rw [gatherElements_eq gather (by rw [hgather]; omega), hgather]
  -- every index below the number of elements is taken by one thread
  have hthreads : ((List.range gridX).flatMap fun x => (List.range kBlockSize).flatMap fun tid =>
      stepLoop (gatherElements gather) (gridX * kBlockSize) (gatherElements gather)
        (x * kBlockSize + tid)).Perm (List.range (gatherElements gather)) := by
    have := flatMap_stepLoop_perm (Nat.mul_pos hgrid (show 0 < kBlockSize by decide))
      (gatherElements gather)
    rw [range_mul gridX kBlockSize, flatMap_assoc] at this
    simpa only [flatMap_map] using this
  have hmap := hthreads.map fun i =>
    (((gatherLoop indices (u64OfInt s.sampleDstOffElems) i l).2.2 : ℤ),
      ((gatherLoop indices (u64OfInt s.sampleDstOffElems) i l).2.1 : ℤ))
  simp only [map_flatMap] at hmap
  refine List.Perm.trans hmap (List.Perm.of_eq ?_)
  rw [kernelWrites, regionWrites, cartesian_picks_eq, ← map_digits_range h.span_count_pos, helements]
  simp only [map_map]
  apply map_congr_left
  intro i hi
  rw [hdst, gatherLoop_pick h (hfst ▸ hst) hrel (mem_range.mp hi)]
  rfl

end Gather

/-! ## Copied chunks -/

def tileShape (rank : ℕ) : ℕ → List ℕ
  | 0 => []
  | n + 1 => tileT rank (rank - 1 - n) :: tileShape rank n

theorem tileT_pos (rank d : ℕ) : 0 < tileT rank d := by
  unfold tileT kBlockSize
  split_ifs <;> decide

theorem tileT_le (rank d : ℕ) : tileT rank d ≤ kBlockSize := by
  unfold tileT kBlockSize
  split_ifs <;> decide

theorem tileShape_pos (rank n : ℕ) : ∀ m ∈ tileShape rank n, 0 < m := by
  induction n with
  | zero => simp [tileShape]
  | succ n ih => exact forall_mem_cons.mpr ⟨tileT_pos _ _, ih⟩

theorem tileShape_prod {rank n : ℕ} (hrank : 2 ≤ rank) (hn : n + 2 ≤ rank) :
    (tileShape rank (n + 2)).prod = kBlockSize := by
  induction n with
  | zero =>
    have h1 : rank - 1 - 1 + 1 ≠ rank := by omega
    have h2 : rank - 1 - 1 + 2 = rank := by omega
    have h3 : rank - 1 + 1 = rank := by omega
    simp [tileShape, tileT, h1, h2, h3, show rank ≠ 1 by omega, kBlockSize]
  | succ n ih =>
    have h1 : rank - 1 - (n + 2) + 1 ≠ rank := by omega
    have h2 : rank - 1 - (n + 2) + 2 ≠ rank := by omega
    rw [tileShape, prod_cons, ih (by omega)]
    simp [tileT, h1, h2, show rank ≠ 1 by omega]

theorem tileShape_prod_self {rank : ℕ} (hrank : 0 < rank) :
    (tileShape rank rank).prod = kBlockSize := by
  rcases Nat.lt_or_ge rank 2 with h | h
  · obtain rfl : rank = 1 := by omega
    rfl
  · obtain ⟨n, rfl⟩ := Nat.exists_eq_add_of_le' h
    exact tileShape_prod h le_rfl

theorem threadDim_eq {rank n tid : ℕ} (hn : n < rank) (htid : tid < kBlockSize) :
    threadDim rank tid (rank - 1 - n) =
      (digits (tileShape rank n) tid).2 % tileT rank (rank - 1 - n) := by
  rw [digits_snd]
  by_cases h1 : rank = 1
  · obtain rfl : n = 0 := by omega
    subst h1
    simp only [threadDim, tileT, tileShape, if_pos, prod_nil, Nat.div_one]
    exact (Nat.mod_eq_of_lt htid).symm
  · rcases n with _ | _ | n
    · have h2 : rank - 1 - 0 + 1 = rank := by omega
      simp only [threadDim, tileT, h1, h2, if_false, if_true, tileShape, prod_nil, Nat.div_one]
      exact Nat.and_two_pow_sub_one_eq_mod tid 5
    · have h2 : rank - 1 - 1 + 1 ≠ rank := by omega
      have h3 : rank - 1 - 1 + 2 = rank := by omega
      have h4 : rank - 1 - 0 + 1 = rank := by omega
      simp only [threadDim, tileT, h1, h2, h3, h4, if_false, if_true, tileShape, prod_cons,
        prod_nil, Nat.mul_one, Nat.shiftRight_eq_div_pow]
      exact Nat.and_two_pow_sub_one_eq_mod (tid / 2 ^ 5) 3
    · have h2 : rank - 1 - (n + 2) + 1 ≠ rank := by omega
      have h3 : rank - 1 - (n + 2) + 2 ≠ rank := by omega
      simp [threadDim, tileT, h1, h2, h3, Nat.mod_one]

/-- One axis of a copied chunk as the blocks and threads divide it. -/
structure TileAxis where
  dim : SampleDim
  chunk : ℕ
  tile : ℕ
  tiles : ℕ

namespace TileAxis

def intra (x : TileAxis) (p : ℕ × ℕ) : ℕ := u32 (p.1 * x.tile + p.2)

def inBounds (x : TileAxis) (p : ℕ × ℕ) : Bool :=
  decide (x.intra p < x.dim.chunkShape ∧ 0 ≤ dstD x.dim x.chunk (x.intra p) ∧
    dstD x.dim x.chunk (x.intra p) < x.dim.aabbExtent)

def pairs (x : TileAxis) : List (ℕ × ℕ) :=
  (List.range x.tiles).flatMap fun k => (List.range x.tile).map fun t => (k, t)

end TileAxis

def tileAxes (rank : ℕ) : List (SampleDim × ℕ) → List TileAxis
  | [] => []
  | x :: rest =>
    ⟨x.1, x.2, tileT rank (rank - 1 - rest.length),
      ceilDivU32 x.1.chunkShape (tileT rank (rank - 1 - rest.length))⟩ :: tileAxes rank rest

theorem map_dim_tileAxes (rank : ℕ) (l : List (SampleDim × ℕ)) :
    (tileAxes rank l).map TileAxis.dim = l.map Prod.fst := by
  induction l with
  | nil => rfl
  | cons x l ih => rw [tileAxes, map_cons, ih, map_cons]

theorem map_tile_tileAxes (rank : ℕ) (l : List (SampleDim × ℕ)) :
    (tileAxes rank l).map TileAxis.tile = tileShape rank l.length := by
  induction l with
  | nil => rfl
  | cons x l ih => rw [tileAxes, map_cons, ih, length_cons, tileShape]

theorem assembleLoop_eq {rank tid : ℕ} (htid : tid < kBlockSize) (x : ℕ) (dst : ℤ)
    {l : List (SampleDim × ℕ)} (hl : l.length ≤ rank) :
    let tiles := (tileAxes rank l).map TileAxis.tiles
    let ps := (tileAxes rank l).zip ((digits tiles x).1.zip (digits (tileShape rank l.length) tid).1)
    assembleLoop rank tid x dst l =
      { rem := (digits tiles x).2
        inBounds := ps.all fun q => q.1.inBounds q.2
        src := (ps.map fun q => (q.1.intra q.2 : ℤ) * q.1.dim.srcStride).sum
        dst := dst + (ps.map fun q =>
          dstD q.1.dim q.1.chunk (q.1.intra q.2) * q.1.dim.dstStride).sum } := by
  induction l with
  | nil => simp [assembleLoop, tileAxes, digits]
  | cons y l ih =>
    rw [length_cons] at hl
    have hthread := threadDim_eq (show l.length < rank by omega) htid
    simp only [assembleLoop, ih (by omega), tileAxes, map_cons, digits, length_cons,
      tileShape, zip_cons_cons, all_cons, sum_cons, hthread, AssembleState.mk.injEq,
      true_and]
    refine ⟨?_, ?_, ?_⟩
    · exact Bool.and_comm _ _
    · exact Int.add_comm _ _
    · rw [Int.add_assoc, Int.add_comm _ (_ * _)]
      rfl

/-! ### One axis -/

/-- What dispatch provides along one axis of a copied chunk. -/
structure CopyAxis (a : ChunkAxis) (x : SampleDim × ℕ) : Prop where
  interval : a.dim.indices = []
  inner_le : a.inner ≤ 2 ^ 32 - kBlockSize
  chunkShape : x.1.chunkShape = a.inner
  extent : x.1.aabbExtent = a.dim.extent
  base : (x.2 : ℤ) * a.inner - x.1.aabbLoRelative = a.origin - a.dim.lo

theorem ceilDivU32_spec {n t : ℕ} (hn : 0 < n) (hle : n ≤ 2 ^ 32 - kBlockSize) (ht : 0 < t)
    (htle : t ≤ kBlockSize) :
    n ≤ ceilDivU32 n t * t ∧ ceilDivU32 n t * t < n + t ∧ ceilDivU32 n t ≤ n := by
  have hk : kBlockSize = 256 := rfl
  rw [ceilDivU32, u32_of_lt (by omega)]
  have hmod := Nat.mod_lt (n + t - 1) ht
  have hdiv := Nat.div_add_mod (n + t - 1) t
  rw [Nat.mul_comm] at hdiv
  refine ⟨by omega, by omega, ?_⟩
  have hmul := Nat.le_mul_of_pos_right n ht
  rw [← Nat.lt_succ_iff, Nat.div_lt_iff_lt_mul ht, Nat.succ_mul]
  omega

section CopyAxis

variable {a : ChunkAxis} {cell rank d : ℕ} {y : SampleDim × ℕ}

def tileAxis (rank d : ℕ) (y : SampleDim × ℕ) : TileAxis :=
  ⟨y.1, y.2, tileT rank d, ceilDivU32 y.1.chunkShape (tileT rank d)⟩

theorem CopyAxis.dstD_eq (hc : CopyAxis a y) (i : ℕ) :
    dstD y.1 y.2 i = (a.origin : ℤ) + i - a.dim.lo := by
  have := hc.base
  rw [dstD, hc.chunkShape]
  omega

theorem CopyAxis.intra_eq (hc : CopyAxis a y) (hwf : a.Wf cell) {p : ℕ × ℕ}
    (hp : p ∈ (tileAxis rank d y).pairs) :
    (tileAxis rank d y).intra p = p.1 * tileT rank d + p.2 := by
  rw [TileAxis.pairs, mem_flatMap] at hp
  obtain ⟨k, hk, hp⟩ := hp
  obtain ⟨t, ht, rfl⟩ := mem_map.mp hp
  rw [mem_range] at hk ht
  have hspec := ceilDivU32_spec hwf.inner_pos hc.inner_le (tileT_pos rank d) (tileT_le rank d)
  have hle := hc.inner_le
  have htile := tileT_le rank d
  have hk' : k + 1 ≤ ceilDivU32 a.inner (tileT rank d) := by
    rw [← hc.chunkShape]
    exact hk
  have hmul := Nat.mul_le_mul_right (tileT rank d) hk'
  rw [Nat.add_mul, Nat.one_mul] at hmul
  have ht' : t < tileT rank d := ht
  exact u32_of_lt (show k * tileT rank d + t < 2 ^ 32 by omega)

/-- **The places that are in bounds are the picks of the axis.** -/
theorem CopyAxis.picks_eq (hc : CopyAxis a y) (hwf : a.Wf cell) (rank d : ℕ) :
    ((tileAxis rank d y).pairs.filter (tileAxis rank d y).inBounds).map (fun p =>
      ((dstD y.1 y.2 ((tileAxis rank d y).intra p)).toNat, (tileAxis rank d y).intra p + a.origin)) =
      a.picks := by
  set x := tileAxis rank d y with hx
  have hintra : ∀ p ∈ x.pairs, x.intra p = p.1 * tileT rank d + p.2 := fun p hp =>
    hc.intra_eq hwf hp
  -- the places of all tiles are the numbers up to the end of the last tile
  have hplaces : x.pairs.map x.intra = List.range (x.tiles * x.tile) := by
    rw [map_congr_left hintra, TileAxis.pairs, map_flatMap, range_mul x.tiles x.tile]
    simp only [map_map]
    rfl
  have hcover : a.inner ≤ x.tiles * x.tile := by
    have := (ceilDivU32_spec hwf.inner_pos hc.inner_le (tileT_pos rank d) (tileT_le rank d)).1
    rwa [← hc.chunkShape] at this ⊢
  have hbounds : ∀ i : ℕ, (i < y.1.chunkShape ∧ 0 ≤ dstD y.1 y.2 i ∧ dstD y.1 y.2 i < y.1.aabbExtent) ↔
      (a.lo - a.origin ≤ i ∧ i < a.hi - a.origin) := by
    intro i
    have hext : a.dim.extent = a.dim.hi - a.dim.lo := if_pos hc.interval
    have hlt := hwf.lo_lt_hi hc.interval
    rw [hc.dstD_eq, hc.chunkShape, hc.extent, hext]
    rw [hwf.lo_eq, hwf.hi_eq] at hlt ⊢
    omega
  have hfilter : (x.pairs.filter x.inBounds).map x.intra =
      List.range' (a.lo - a.origin) (a.hi - a.lo) := by
    have hcomp : x.inBounds = (fun i => decide (a.lo - a.origin ≤ i ∧ i < a.hi - a.origin)) ∘
        x.intra := by
      funext p
      exact decide_eq_decide.mpr (hbounds (x.intra p))
    have hlt := hwf.lo_lt_hi hc.interval
    have hlo := hwf.lo_eq
    have hhi := hwf.hi_eq
    rw [hcomp, ← filter_map, hplaces, filter_range_interval (by omega) (by omega)]
    congr 1
    omega
  have hcomp : (fun p => ((dstD y.1 y.2 (x.intra p)).toNat, x.intra p + a.origin)) =
      (fun i : ℕ => ((dstD y.1 y.2 i).toNat, i + a.origin)) ∘ x.intra := rfl
  rw [hcomp, ← map_map, hfilter, hwf.picks_interval hc.interval, List.range'_eq_map_range,
    map_map]
  apply map_congr_left
  intro i _
  have hlo := hwf.lo_eq
  simp only [Function.comp_apply, hc.dstD_eq, Prod.mk.injEq]
  constructor <;> omega

end CopyAxis

/-! ### All axes -/

section Copy

variable {shape coordinate : List ℕ} {sample : ℕ} {axes : List ChunkAxis} {s : SamplePlan}
  {chunkD : List ℕ}

/-- The offsets that a thread copies, for the places of its tiles along all axes. -/
def tileCopy (dst : ℤ) (ps : List (TileAxis × (ℕ × ℕ))) : ℤ × ℤ :=
  (dst + (ps.map fun q => dstD q.1.dim q.1.chunk (q.1.intra q.2) * q.1.dim.dstStride).sum,
    (ps.map fun q => (q.1.intra q.2 : ℤ) * q.1.dim.srcStride).sum)

theorem assembleBody_eq {tid : ℕ} (htid : tid < kBlockSize) (x : ℕ)
    (hlen : chunkD.length = s.dims.length) :
    let A := tileAxes s.dims.length (s.dims.zip chunkD)
    let ps := A.zip ((digits (A.map TileAxis.tiles) x).1.zip
      (digits (tileShape s.dims.length s.dims.length) tid).1)
    assembleBody s chunkD x tid =
      if (digits (A.map TileAxis.tiles) x).2 = 0 then
        if ps.all fun q => q.1.inBounds q.2 then [tileCopy s.sampleDstOffElems ps] else []
      else [] := by
  intro A ps
  have hl : (s.dims.zip chunkD).length = s.dims.length := by simp [hlen]
  have hloop := assembleLoop_eq htid x s.sampleDstOffElems (l := s.dims.zip chunkD) hl.le
  rw [hl] at hloop
  simp only [assembleBody, hloop]
  by_cases hrem : (digits (A.map TileAxis.tiles) x).2 = 0 <;>
    by_cases hin : (ps.all fun q => q.1.inBounds q.2) = true <;> simp_all [A, ps, tileCopy]

theorem tileAxes_eq {rank : ℕ} {l : List (SampleDim × ℕ)} (hl : l.length ≤ rank) :
    tileAxes rank l = (l.zipIdx (rank - l.length)).map fun x => tileAxis rank x.2 x.1 := by
  induction l with
  | nil => rfl
  | cons y l ih =>
    rw [length_cons] at hl
    have h1 : rank - 1 - l.length = rank - (l.length + 1) := by omega
    have h2 : rank - l.length = rank - (l.length + 1) + 1 := by omega
    rw [tileAxes, ih (by omega), length_cons, zipIdx_cons, map_cons, h1, h2]
    rfl

theorem assembleBlocksPerChunk_eq {dims : List SampleDim} {chunkD : List ℕ}
    (hlen : chunkD.length = dims.length) (hne : dims ≠ []) (hrank : dims.length ≤ maxRank)
    (hlt : ((tileAxes dims.length (dims.zip chunkD)).map TileAxis.tiles).prod < 2 ^ 32) :
    assembleBlocksPerChunk dims =
      ((tileAxes dims.length (dims.zip chunkD)).map TileAxis.tiles).prod := by
  have hl : (dims.zip chunkD).length = dims.length := by simp [hlen]
  have htiles : (tileAxes dims.length (dims.zip chunkD)).map TileAxis.tiles =
      dims.zipIdx.map fun x => ceilDivU32 x.1.chunkShape (tileT dims.length x.2) := by
    rw [tileAxes_eq hl.le, hl, Nat.sub_self, map_map]
    apply ext_getElem
    · simp [hlen]
    · intro d _ _
      simp [tileAxis]
  have hfold := foldl_mul_mod
    (fun x : SampleDim × ℕ => ceilDivU32 x.1.chunkShape (tileT dims.length x.2)) dims.zipIdx
    (show 1 < 2 ^ 32 by decide)
  rw [Nat.one_mul, ← htiles, Nat.mod_eq_of_lt hlt] at hfold
  have hdims : ¬ (dims.length = 0 ∨ maxRank < dims.length) := by
    rw [length_eq_zero_iff]
    exact not_or.mpr ⟨hne, by omega⟩
  rw [assembleBlocksPerChunk, if_neg hdims]
  exact hfold

/-- What is left of an axis when its tiles are cut down to the places in bounds. -/
structure TiledAxis (a : ChunkAxis) (x : TileAxis) : Prop where
  tiles_pos : 0 < x.tiles
  tiles_le : x.tiles ≤ a.inner
  picks : (x.pairs.filter x.inBounds).map (fun p =>
    ((dstD x.dim x.chunk (x.intra p)).toNat, x.intra p + a.origin)) = a.picks

theorem tiledAxes {rank : ℕ} {l : List (SampleDim × ℕ)}
    (hwf : List.Forall₂ ChunkAxis.Wf axes coordinate) (hrel : List.Forall₂ CopyAxis axes l) :
    List.Forall₂ TiledAxis axes (tileAxes rank l) := by
  induction hrel generalizing coordinate with
  | nil => exact .nil
  | @cons a y axes l hc _ ih =>
    obtain _ | ⟨ha, hwf⟩ := hwf
    set d := rank - 1 - l.length with hd
    have hspec := ceilDivU32_spec ha.inner_pos hc.inner_le (tileT_pos rank d) (tileT_le rank d)
    have hpos := ha.inner_pos
    rw [← hc.chunkShape] at hspec hpos
    refine .cons ⟨?_, ?_, hc.picks_eq ha rank d⟩ (ih hwf)
    · exact Nat.pos_of_mul_pos_right (Nat.lt_of_lt_of_le hpos hspec.1)
    · rw [← hc.chunkShape]
      exact hspec.2.2

theorem tiles_prod_lt {A : List TileAxis} (h : UseWf shape sample axes coordinate)
    (hrel : List.Forall₂ TiledAxis axes A) :
    (∀ n ∈ A.map TileAxis.tiles, 0 < n) ∧ (A.map TileAxis.tiles).prod < 2 ^ 32 := by
  constructor
  · intro n hn
    obtain ⟨x, hx, rfl⟩ := mem_map.mp hn
    obtain ⟨d, hd, rfl⟩ := getElem_of_mem hx
    exact (hrel.get (hrel.length_eq ▸ hd) hd).tiles_pos
  · refine lt_of_le_of_lt (List.Forall₂.prod_le_prod' ?_) h.chunk_lt
    rw [List.forall₂_map_left_iff, List.forall₂_map_right_iff]
    exact hrel.flip.imp fun _ _ hx => hx.tiles_le

def tagInBounds (q : (TileAxis × ChunkAxis) × (ℕ × ℕ)) : Bool := q.1.1.inBounds q.2

def tagPick (q : (TileAxis × ChunkAxis) × (ℕ × ℕ)) : (TileAxis × ChunkAxis) × (ℕ × ℕ) :=
  (q.1, (dstD q.1.1.dim q.1.1.chunk (q.1.1.intra q.2)).toNat, q.1.1.intra q.2 + q.1.2.origin)

theorem cartesian_tagPick {A : List TileAxis} (hrel : List.Forall₂ TiledAxis axes A) :
    ((cartesian ((A.zip axes).map fun b => b.1.pairs.map fun q => (b, q))).filter
      (fun ps => ps.all tagInBounds)).map (List.map tagPick) =
      (cartesian (axes.map ChunkAxis.picks)).map fun ps => (A.zip axes).zip ps := by
  rw [cartesian_filter, map_cartesian]
  have hlen : (A.zip axes).length = (axes.map ChunkAxis.picks).length := by
    simp [hrel.length_eq]
  rw [← cartesian_tag _ _ hlen]
  congr 1
  clear hlen
  induction hrel with
  | nil => rfl
  | @cons a x axes A hx _ ih =>
    simp only [zip_cons_cons, map_cons, zipWith_cons_cons, ih, List.cons.injEq,
      and_true]
    rw [← hx.picks, filter_map, map_map, map_map]
    rfl

theorem KernelStrides.cast {dims : List SampleDim} (h : UseWf shape sample axes coordinate)
    (hst : KernelStrides shape axes dims) {sd : SampleDim} (hsd : sd ∈ dims) :
    (u64OfInt sd.dstStride : ℤ) = sd.dstStride ∧ (u64OfInt sd.srcStride : ℤ) = sd.srcStride := by
  have hone : ∀ {f : SampleDim → ℤ} {shape : List ℕ}, (∀ n ∈ shape, 0 < n) → shape.prod < 2 ^ 63 →
      dims.map f = (strides shape).map Nat.cast → (u64OfInt (f sd) : ℤ) = f sd := by
    intro f shape hpos hprod hf
    have hmem : f sd ∈ (strides shape).map (Nat.cast : ℕ → ℤ) := hf ▸ mem_map_of_mem hsd
    obtain ⟨n, hn, heq⟩ := mem_map.mp hmem
    rw [← heq, u64OfInt_natCast (strides_lt hpos hprod n hn)]
  exact ⟨hone h.shape_pos h.shape_prod_lt hst.dst,
    hone h.inner_pos (h.chunk_lt.trans (by decide)) hst.src⟩

theorem tileCopy_eq {dst : ℕ} {ps : List ((TileAxis × ChunkAxis) × (ℕ × ℕ))}
    (hin : ∀ q ∈ ps, tagInBounds q = true)
    (hcast : ∀ q ∈ ps, (u64OfInt q.1.1.dim.dstStride : ℤ) = q.1.1.dim.dstStride ∧
      (u64OfInt q.1.1.dim.srcStride : ℤ) = q.1.1.dim.srcStride) :
    tileCopy dst (ps.map fun q => (q.1.1, q.2)) =
      (((pickOffsets dst ((ps.map tagPick).map fun q => ((q.1.1.dim, q.1.2), q.2))).1 : ℤ),
        ((pickOffsets dst ((ps.map tagPick).map fun q => ((q.1.1.dim, q.1.2), q.2))).2 : ℤ)) := by
  simp only [tileCopy, pickOffsets, map_map, Nat.cast_add, Nat.cast_list_sum, Prod.mk.injEq,
    add_right_inj]
  constructor
  · congr 1
    apply map_congr_left
    intro q hq
    have hb := of_decide_eq_true (hin q hq)
    simp only [Function.comp_apply, tagPick, Nat.cast_mul, (hcast q hq).1, Int.toNat_of_nonneg hb.2.1]
  · congr 1
    apply map_congr_left
    intro q hq
    simp only [Function.comp_apply, tagPick, Nat.cast_mul, (hcast q hq).2, Nat.add_sub_cancel]

theorem flatMap_blocks_eq {α : Type} {tiles : List ℕ} (hpos : ∀ n ∈ tiles, 0 < n) {gridX : ℕ}
    (hgrid : tiles.prod ≤ gridX) (F : List ℕ → List α) :
    ((List.range gridX).flatMap fun x =>
      if (digits tiles x).2 = 0 then F (digits tiles x).1 else []) =
      (cartesian (tiles.map List.range)).flatMap F := by
  obtain ⟨extra, rfl⟩ := Nat.exists_eq_add_of_le hgrid
  have hprod : 0 < tiles.prod := prod_pos hpos
  have hin : ((List.range tiles.prod).flatMap fun x =>
      if (digits tiles x).2 = 0 then F (digits tiles x).1 else []) =
      (List.range tiles.prod).flatMap fun x => F (digits tiles x).1 := by
    apply flatMap_congr
    intro x hx
    rw [digits_snd, Nat.div_eq_of_lt (mem_range.mp hx), if_pos rfl]
  have hout : (((List.range extra).map (tiles.prod + ·)).flatMap fun x =>
      if (digits tiles x).2 = 0 then F (digits tiles x).1 else []) = [] := by
    rw [flatMap_eq_nil_iff]
    intro x hx
    obtain ⟨k, -, rfl⟩ := mem_map.mp hx
    rw [digits_snd, Nat.add_div_left _ hprod, if_neg (Nat.succ_ne_zero _)]
  rw [range_add, flatMap_append, hin, hout, append_nil, ← map_digits_range hpos,
    flatMap_map]

theorem map_tileCopy_eq {A : List TileAxis} (h : UseWf shape sample axes coordinate)
    (hrel : List.Forall₂ TiledAxis axes A)
    (hst : KernelStrides shape axes (A.map TileAxis.dim)) :
    ((cartesian (A.map TileAxis.pairs)).flatMap fun p =>
      if (A.zip p).all fun q => q.1.inBounds q.2 then
        [tileCopy (sample * shape.prod : ℕ) (A.zip p)] else []) = kernelWrites shape sample axes := by
  set B := A.zip axes with hB
  have hfst : B.map Prod.fst = A := map_fst_zip hrel.length_eq.ge
  have hpairs : A.map TileAxis.pairs = B.map fun b => b.1.pairs := by
    conv_lhs => rw [← hfst, map_map]
    rfl
  have htag : cartesian (B.map fun b => b.1.pairs.map fun q => (b, q)) =
      (cartesian (A.map TileAxis.pairs)).map fun p => B.zip p := by
    rw [← cartesian_tag B _ (by rw [hpairs, length_map]), hpairs, zipWith_map_right,
      zipWith_self]
  have hzip : ∀ p : List (ℕ × ℕ), A.zip p = (B.zip p).map fun q => (q.1.1, q.2) := by
    intro p
    conv_lhs => rw [← hfst, zip_map_left]
    rfl
  -- a product of places that is in bounds copies what its picks stand for
  set copy : List ((TileAxis × ChunkAxis) × (ℕ × ℕ)) → ℤ × ℤ := fun ps =>
    tileCopy (sample * shape.prod : ℕ) (ps.map fun q => (q.1.1, q.2)) with hcopy
  have hcut : ((cartesian (A.map TileAxis.pairs)).flatMap fun p =>
      if (A.zip p).all fun q => q.1.inBounds q.2 then
        [tileCopy (sample * shape.prod : ℕ) (A.zip p)] else []) =
      ((cartesian (B.map fun b => b.1.pairs.map fun q => (b, q))).filter
        (fun ps => ps.all tagInBounds)).map copy := by
    rw [← flatMap_ite, htag, flatMap_map]
    apply flatMap_congr
    intro p _
    simp only [hzip, hcopy, all_map]
    rfl
  set offsets : List ((TileAxis × ChunkAxis) × (ℕ × ℕ)) → ℤ × ℤ := fun ps =>
    let o := pickOffsets (sample * shape.prod) (ps.map fun q => ((q.1.1.dim, q.1.2), q.2))
    ((o.1 : ℤ), (o.2 : ℤ)) with hoffsets
  have hpicks : ((cartesian (B.map fun b => b.1.pairs.map fun q => (b, q))).filter
      (fun ps => ps.all tagInBounds)).map copy =
      (((cartesian (B.map fun b => b.1.pairs.map fun q => (b, q))).filter
        (fun ps => ps.all tagInBounds)).map (List.map tagPick)).map offsets := by
    rw [map_map]
    apply map_congr_left
    intro ps hps
    rw [mem_filter, all_eq_true] at hps
    refine tileCopy_eq hps.2 fun q hq => ?_
    have hmem := mem_cartesian.mp hps.1
    obtain ⟨d, hd, rfl⟩ := getElem_of_mem hq
    have hq' := hmem.get hd (hmem.length_eq ▸ hd)
    simp only [get_eq_getElem, getElem_map] at hq'
    obtain ⟨_, -, heq⟩ := mem_map.mp hq'
    rw [← heq]
    refine hst.cast h (mem_map_of_mem ?_)
    rw [← hfst]
    exact mem_map_of_mem (getElem_mem _)
  rw [hcut, hpicks, cartesian_tagPick hrel, kernelWrites, regionWrites, map_map, map_map]
  apply map_congr_left
  intro ps hps
  have hdims : (B.zip ps).map (fun q => ((q.1.1.dim, q.1.2), q.2)) =
      ((A.map TileAxis.dim).zip axes).zip ps := by
    rw [zip_map_left, zip_map_left]
    rfl
  show offsets (B.zip ps) = _
  rw [hoffsets]
  show (((pickOffsets _ ((B.zip ps).map fun q => ((q.1.1.dim, q.1.2), q.2))).1 : ℤ),
    ((pickOffsets _ ((B.zip ps).map fun q => ((q.1.1.dim, q.1.2), q.2))).2 : ℤ)) = _
  rw [hdims, pickOffsets_eq h hst hps]
  rfl

/-- **The threads of a copied chunk** make the copies of its region. -/
theorem assembleBody_perm (h : UseWf shape sample axes coordinate)
    (hst : KernelStrides shape axes s.dims)
    (hoff : s.sampleDstOffElems = (sample * shape.prod : ℕ)) (hlen : chunkD.length = s.dims.length)
    (hne : s.dims ≠ []) (hrank : s.dims.length ≤ maxRank)
    (hrel : List.Forall₂ CopyAxis axes (s.dims.zip chunkD)) {gridX : ℕ}
    (hgrid : assembleBlocksPerChunk s.dims ≤ gridX) :
    ((List.range gridX).flatMap fun x => (List.range kBlockSize).flatMap fun tid =>
      assembleBody s chunkD x tid).Perm (kernelWrites shape sample axes) := by
  set rank := s.dims.length with hrankdef
  set A := tileAxes rank (s.dims.zip chunkD) with hA
  have htiled : List.Forall₂ TiledAxis axes A := tiledAxes h.axes_wf hrel
  obtain ⟨htiles, hlt⟩ := tiles_prod_lt h htiled
  rw [assembleBlocksPerChunk_eq hlen hne hrank hlt] at hgrid
  have hl : (s.dims.zip chunkD).length = rank := by simp [hlen, hrankdef]
  have hshape : A.map TileAxis.tile = tileShape rank rank := by rw [hA, map_tile_tileAxes, hl]
  have hblock : (tileShape rank rank).prod = kBlockSize :=
    tileShape_prod_self (length_pos_iff.mpr hne)
  -- a thread copies what the digits of its block and of its index stand for
  set F : List (ℕ × ℕ) → List (ℤ × ℤ) := fun p =>
    if (A.zip p).all fun q => q.1.inBounds q.2 then [tileCopy s.sampleDstOffElems (A.zip p)] else []
    with hF
  have hthreads : ((List.range gridX).flatMap fun x => (List.range kBlockSize).flatMap fun tid =>
      assembleBody s chunkD x tid) =
      (cartesian ((A.map TileAxis.tiles).map List.range)).flatMap fun ks =>
        (cartesian ((tileShape rank rank).map List.range)).flatMap fun ts => F (ks.zip ts) := by
    rw [← flatMap_blocks_eq htiles hgrid, ← map_digits_range (tileShape_pos rank rank), hblock]
    apply flatMap_congr
    intro x _
    rw [flatMap_map]
    have hbody : ∀ tid ∈ List.range kBlockSize, assembleBody s chunkD x tid =
        if (digits (A.map TileAxis.tiles) x).2 = 0 then
          F ((digits (A.map TileAxis.tiles) x).1.zip (digits (tileShape rank rank) tid).1)
        else [] := fun tid htid => assembleBody_eq (mem_range.mp htid) x hlen
    rw [flatMap_congr hbody]
    split
    · rfl
    · simp
  have hzip : ((cartesian ((A.map TileAxis.tiles).map List.range)).flatMap fun ks =>
      (cartesian ((tileShape rank rank).map List.range)).flatMap fun ts => F (ks.zip ts)) =
      ((cartesian ((A.map TileAxis.tiles).map List.range)).flatMap fun ks =>
        (cartesian ((tileShape rank rank).map List.range)).map fun ts => ks.zip ts).flatMap F := by
    simp only [flatMap_assoc, flatMap_map]
  have hperm := (cartesian_zip_perm (show ((A.map TileAxis.tiles).map List.range).length =
    ((tileShape rank rank).map List.range).length by simp [← hshape])).flatMap_right F
  have hpairs : List.zipWith (fun l k => l.flatMap fun a => k.map fun b => (a, b))
      ((A.map TileAxis.tiles).map List.range) ((tileShape rank rank).map List.range) =
      A.map TileAxis.pairs := by
    rw [← hshape, map_map, map_map, zipWith_map_left, zipWith_map_right,
      zipWith_self]
    rfl
  rw [hpairs] at hperm
  rw [hthreads, hzip]
  refine hperm.trans (List.Perm.of_eq ?_)
  have hdim : A.map TileAxis.dim = s.dims := by
    rw [hA, map_dim_tileAxes, map_fst_zip hlen.ge]
  rw [hF, hoff]
  exact map_tileCopy_eq h htiled (hdim.symm ▸ hst)

end Copy

end Damacy

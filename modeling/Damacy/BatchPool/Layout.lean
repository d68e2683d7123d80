import Damacy.Executor.CudaBatch

/-!
# The layouts of a batch (`batch_pool/batch_pool.c`)

Three places compute the layout of an output batch: `batch_spec_layout` for the CPU executor and the
checks at creation, `batch_pool_compute_layout` for the slots on the device, and
`dispatch_plan_build` for the strides that the kernels write with. They guard their products in
different orders. `layouts_agree` says that they accept the same shapes and compute the same layout,
in which every element of every sample has a place of its own.
-/

open List ExceptFold RowMajor

namespace Damacy

/-! ## `batch_pool_compute_layout` -/

/-- The layout fields of `struct damacy_batch_pool`. -/
structure BatchPool where
  layoutSet : Bool
  rank : ℕ
  shape : List ℤ
  strides : List ℕ
  nBytes : ℕ
deriving DecidableEq, Repr

def BatchPool.fresh : BatchPool := ⟨false, 0, [], [], 0⟩

/-- The loop of `batch_pool_compute_layout` over the extents: it records them and multiplies them
up. -/
def BatchPool.shapeLoop : BatchPool → ℕ → List ℤ → BatchPool × Except Status ℕ
  | pool, volume, [] => (pool, .ok volume)
  | pool, volume, extent :: rest =>
    if extent ≤ 0 then (pool, .error .inval)
    else if int64Max / u64OfInt extent < volume then (pool, .error .inval)
    else BatchPool.shapeLoop { pool with shape := pool.shape ++ [extent] }
      (volume * u64OfInt extent) rest

/-- `batch_pool_compute_layout`. The rank with the batch axis, `full_rank`, is a `uint8_t`. A call
that fails may leave a part of the layout behind, but not `layout_set`. -/
def BatchPool.computeLayout (pool : BatchPool) (sampleShape : List ℤ) (samplesPerBatch bpe : ℕ) :
    BatchPool × Status :=
  let fullRank := (sampleShape.length + 1) % 2 ^ 8
  if pool.layoutSet then (pool, .ok)
  else if samplesPerBatch = 0 ∨ bpe = 0 then (pool, .inval)
  else if sampleShape.length = 0 then (pool, .inval)
  else if maxRank + 1 < fullRank then (pool, .rank)
  else
    match BatchPool.shapeLoop { pool with shape := [(samplesPerBatch : ℤ)] } 1 sampleShape with
    | (pool, .error e) => (pool, e)
    | (pool, .ok volume) =>
      let pool := { pool with rank := fullRank, strides := layoutStrides pool.shape.tail }
      if int64Max / samplesPerBatch < volume then (pool, .inval)
      else if uint64Max / bpe < samplesPerBatch * volume then (pool, .budget)
      else ({ pool with nBytes := samplesPerBatch * volume * bpe, layoutSet := true }, .ok)

/-! ## The guards -/

section Guards

variable {shape : List ℤ} {elements n : ℕ}

theorem prod_toNat_pos (hpos : ∀ x ∈ shape, 0 < x) : 0 < (shape.map Int.toNat).prod := by
  apply prod_pos
  intro m hm
  obtain ⟨x, hx, rfl⟩ := mem_map.mp hm
  have := hpos x hx
  omega

theorem layoutElements_eq_ok_iff (hlt : ∀ x ∈ shape, x < 2 ^ 63) (hle : elements ≤ int64Max)
    (hpos : 0 < elements) : layoutElements elements shape = .ok n ↔
      (∀ x ∈ shape, 0 < x) ∧ elements * (shape.map Int.toNat).prod ≤ int64Max ∧
        n = elements * (shape.map Int.toNat).prod := by
  induction shape generalizing elements with
  | nil =>
    simp [layoutElements, hle, eq_comm]
  | cons x shape ih =>
    rw [forall_mem_cons] at hlt
    simp only [layoutElements, bind_eq_ok, failIf_eq_ok, exists_const, forall_mem_cons,
      map_cons, prod_cons]
    by_cases hx : 0 < x
    · have hxpos : 0 < x.toNat := by omega
      rw [u64OfInt_of_nonneg hx.le hlt.1, not_or, not_lt, Nat.le_div_iff_mul_le hxpos,
        ← Nat.mul_assoc]
      constructor
      · rintro ⟨⟨-, hmul⟩, hrest⟩
        obtain ⟨hall, hbound, rfl⟩ := (ih hlt.2 hmul (Nat.mul_pos hpos hxpos)).mp hrest
        exact ⟨⟨hx, hall⟩, hbound, rfl⟩
      · rintro ⟨⟨-, hall⟩, hbound, rfl⟩
        have hmul : elements * x.toNat ≤ int64Max :=
          (Nat.le_mul_of_pos_right _ (prod_toNat_pos hall)).trans hbound
        exact ⟨⟨by omega, hmul⟩,
          (ih hlt.2 hmul (Nat.mul_pos hpos hxpos)).mpr ⟨hall, hbound, rfl⟩⟩
    · constructor
      · rintro ⟨hguard, -⟩
        exact absurd (.inl (not_lt.mp hx)) hguard
      · rintro ⟨⟨hx', -⟩, -⟩
        exact absurd hx' hx

theorem shapeLoop_snd (pool : BatchPool) (volume : ℕ) (shape : List ℤ) :
    (pool.shapeLoop volume shape).2 = layoutElements volume shape := by
  induction shape generalizing pool volume with
  | nil => rfl
  | cons extent rest ih =>
    unfold BatchPool.shapeLoop layoutElements
    by_cases hle : extent ≤ 0
    · simp [failIf, hle]
      rfl
    · by_cases hlt : int64Max / u64OfInt extent < volume
      · simp [failIf, hle, hlt]
        rfl
      · simp only [hle, hlt, if_false, or_self, failIf]
        exact ih _ _

theorem shapeLoop_fst {pool : BatchPool} {volume : ℕ} (h : layoutElements volume shape = .ok n) :
    (pool.shapeLoop volume shape).1 = { pool with shape := pool.shape ++ shape } := by
  induction shape generalizing pool volume with
  | nil => simp [BatchPool.shapeLoop]
  | cons extent rest ih =>
    simp only [layoutElements, bind_eq_ok, failIf_eq_ok, exists_const, not_or] at h
    obtain ⟨⟨hle, hlt⟩, hrest⟩ := h
    rw [BatchPool.shapeLoop, if_neg hle, if_neg hlt, ih hrest, append_assoc]
    rfl

theorem layoutElements_error {e : Status} (h : layoutElements elements shape = .error e) :
    e = .inval := by
  induction shape generalizing elements with
  | nil => cases h
  | cons extent rest ih =>
    rw [layoutElements, bind_eq_error] at h
    rcases h with h | ⟨-, -, h⟩
    · rw [failIf] at h
      split at h <;> cases h
      rfl
    · exact ih h

end Guards

/-! ## The layouts agree -/

section Agree

variable {spec : BatchSpec}

def BatchSpec.elements (spec : BatchSpec) : ℕ := spec.samplesPerBatch * spec.shape.prod

/-- What all guards come to: the extents are positive, the elements are counted by an `int64_t` and
the bytes by a `size_t`. -/
structure BatchSpec.Fits (spec : BatchSpec) : Prop where
  samples : 0 < spec.samplesPerBatch ∧ spec.samplesPerBatch ≤ 65535
  rank : 0 < spec.sampleShape.length ∧ spec.sampleShape.length ≤ maxRank
  pos : ∀ x ∈ spec.sampleShape, 0 < x
  elements_le : spec.elements ≤ int64Max
  bytes_le : spec.elements ≤ uint64Max / damacyDtypeBpe spec.dtype

theorem damacyDtypeBpe_pos (dtype : OutDtype) : 0 < damacyDtypeBpe dtype := by
  cases dtype <;> decide

theorem batchSpecLayout_eq_ok_iff (hlt : ∀ x ∈ spec.sampleShape, x < 2 ^ 63) {layout : BatchLayout} :
    batchSpecLayout spec = .ok layout ↔ spec.Fits ∧
      layout = ⟨spec.samplesPerBatch :: spec.sampleShape, layoutStrides spec.sampleShape,
        spec.elements * damacyDtypeBpe spec.dtype⟩ := by
  simp only [batchSpecLayout, bind_eq_ok, failIf_eq_ok, exists_const, pure_eq_ok, Except.ok.injEq,
    not_or, not_lt]
  constructor
  · rintro ⟨⟨hs, hs', hr, hr'⟩, n, hn, hbytes, rfl⟩
    have hpos : 0 < spec.samplesPerBatch := Nat.pos_of_ne_zero hs
    obtain ⟨hall, hle, rfl⟩ := (layoutElements_eq_ok_iff hlt
      (hs'.trans (by decide)) hpos).mp hn
    exact ⟨⟨⟨hpos, hs'⟩, ⟨Nat.pos_of_ne_zero hr, hr'⟩, hall, hle, hbytes⟩, rfl⟩
  · rintro ⟨h, rfl⟩
    refine ⟨⟨h.samples.1.ne', h.samples.2, h.rank.1.ne', h.rank.2⟩, spec.elements, ?_, h.bytes_le,
      rfl⟩
    exact (layoutElements_eq_ok_iff hlt (h.samples.2.trans (by decide)) h.samples.1).mpr
      ⟨h.pos, h.elements_le, rfl⟩

theorem BatchSpec.Fits.computeLayout_eq (h : spec.Fits) (hlt : ∀ x ∈ spec.sampleShape, x < 2 ^ 63) :
    BatchPool.fresh.computeLayout spec.sampleShape spec.samplesPerBatch
      (damacyDtypeBpe spec.dtype) = (⟨true, spec.sampleShape.length + 1,
        spec.samplesPerBatch :: spec.sampleShape, layoutStrides spec.sampleShape,
        spec.elements * damacyDtypeBpe spec.dtype⟩, .ok) := by
  have hrank : spec.sampleShape.length ≤ 31 := h.rank.2
  have hfull : (spec.sampleShape.length + 1) % 2 ^ 8 = spec.sampleShape.length + 1 :=
    Nat.mod_eq_of_lt (by omega)
  have hvolume : spec.shape.prod ≤ int64Max :=
    (Nat.le_mul_of_pos_left _ h.samples.1).trans h.elements_le
  have hloop : layoutElements 1 spec.sampleShape = .ok spec.shape.prod :=
    (layoutElements_eq_ok_iff hlt (by decide) Nat.one_pos).mpr
      ⟨h.pos, by rwa [Nat.one_mul], (Nat.one_mul _).symm⟩
  have hrun : BatchPool.shapeLoop { BatchPool.fresh with shape := [(spec.samplesPerBatch : ℤ)] } 1
      spec.sampleShape = ({ BatchPool.fresh with
        shape := [(spec.samplesPerBatch : ℤ)] ++ spec.sampleShape }, .ok spec.shape.prod) :=
    Prod.ext (shapeLoop_fst hloop) ((shapeLoop_snd _ _ _).trans hloop)
  have helements : ¬ int64Max / spec.samplesPerBatch < spec.shape.prod := by
    rw [not_lt, Nat.le_div_iff_mul_le h.samples.1, Nat.mul_comm]
    exact h.elements_le
  have hargs : ¬ (spec.samplesPerBatch = 0 ∨ damacyDtypeBpe spec.dtype = 0) :=
    not_or.mpr ⟨h.samples.1.ne', (damacyDtypeBpe_pos spec.dtype).ne'⟩
  have hmax : ¬ maxRank + 1 < spec.sampleShape.length + 1 := by
    have := h.rank.2
    omega
  have hbytes : ¬ uint64Max / damacyDtypeBpe spec.dtype < spec.samplesPerBatch * spec.shape.prod :=
    not_lt.mpr h.bytes_le
  rw [BatchPool.computeLayout, hfull, if_neg hargs, if_neg h.rank.1.ne', if_neg hmax, hrun]
  simp only [if_neg helements, if_neg hbytes]
  rfl

theorem fits_of_computeLayout (hlt : ∀ x ∈ spec.sampleShape, x < 2 ^ 63)
    (hsamples : spec.samplesPerBatch ≤ 65535) (hrank : spec.sampleShape.length < 255)
    (h : (BatchPool.fresh.computeLayout spec.sampleShape spec.samplesPerBatch
      (damacyDtypeBpe spec.dtype)).2 = .ok) : spec.Fits := by
  have hfull : (spec.sampleShape.length + 1) % 2 ^ 8 = spec.sampleShape.length + 1 :=
    Nat.mod_eq_of_lt (by omega)
  have hsnd := shapeLoop_snd { BatchPool.fresh with shape := [(spec.samplesPerBatch : ℤ)] } 1
    spec.sampleShape
  rw [BatchPool.computeLayout, hfull] at h
  simp only [BatchPool.fresh, Bool.false_eq_true, if_false] at h hsnd
  split at h
  · cases h
  rename_i hargs
  split at h
  · cases h
  rename_i hlen
  split at h
  · cases h
  rename_i hmax
  have hpos : 0 < spec.samplesPerBatch := Nat.pos_of_ne_zero fun h0 => hargs (.inl h0)
  split at h
  · rename_i pool e heq
    rw [heq] at hsnd
    have he : e = .inval := layoutElements_error hsnd.symm
    rw [he] at h
    cases h
  · rename_i pool volume heq
    rw [heq] at hsnd
    obtain ⟨hall, -, rfl⟩ := (layoutElements_eq_ok_iff hlt (by decide) Nat.one_pos).mp hsnd.symm
    rw [Nat.one_mul] at h
    split at h
    · cases h
    rename_i helements
    split at h
    · cases h
    rename_i hbytes
    rw [not_lt, Nat.le_div_iff_mul_le hpos, Nat.mul_comm] at helements
    exact ⟨⟨hpos, hsamples⟩, ⟨Nat.pos_of_ne_zero hlen, by omega⟩, hall, helements,
      not_lt.mp hbytes⟩

/-! ## Offsets -/

/-- The layout that `batch_spec_layout` computes, seen from the other two places and from the
elements of the batch. -/
structure LayoutAgrees (spec : BatchSpec) (layout : BatchLayout) : Prop where
  /-- The pool computes the same layout. -/
  pool : BatchPool.fresh.computeLayout spec.sampleShape spec.samplesPerBatch
    (damacyDtypeBpe spec.dtype) =
      (⟨true, spec.sampleShape.length + 1, layout.shape, layout.strides, layout.bytes⟩, .ok)
  /-- So does dispatch. -/
  dispatch : dispatchStrides spec.sampleShape = layout.strides.map Nat.cast
  /-- The strides are row-major. -/
  strides : layout.strides = RowMajor.strides (spec.samplesPerBatch :: spec.shape)
  bytes : layout.bytes = spec.samplesPerBatch * spec.shape.prod * damacyDtypeBpe spec.dtype
  /-- No product overflows: the elements, every stride, the bytes. -/
  elements_le : spec.samplesPerBatch * spec.shape.prod ≤ int64Max
  strides_le : ∀ s ∈ layout.strides, s ≤ int64Max
  bytes_le : layout.bytes ≤ uint64Max
  /-- Every element of every sample has an offset inside the batch. -/
  offset_lt : ∀ sample < spec.samplesPerBatch, ∀ o, List.Forall₂ (· < ·) o spec.shape →
    layout.offset sample o < layout.bytes / damacyDtypeBpe spec.dtype
  /-- No two elements share one. -/
  offset_inj : ∀ sample < spec.samplesPerBatch, ∀ o, List.Forall₂ (· < ·) o spec.shape →
    ∀ sample' < spec.samplesPerBatch, ∀ o', List.Forall₂ (· < ·) o' spec.shape →
    layout.offset sample o = layout.offset sample' o' → sample = sample' ∧ o = o'

theorem strides_le_prod {shape : List ℕ} (hpos : ∀ n ∈ shape, 0 < n) :
    ∀ s ∈ strides shape, s ≤ shape.prod := by
  induction shape with
  | nil => simp [strides]
  | cons n shape ih =>
    rw [forall_mem_cons] at hpos
    have hle : shape.prod ≤ n * shape.prod := Nat.le_mul_of_pos_left _ hpos.1
    rw [strides, prod_cons, forall_mem_cons]
    exact ⟨hle, fun s hs => (ih hpos.2 s hs).trans hle⟩

theorem BatchSpec.Fits.layoutAgrees (h : spec.Fits) (hlt : ∀ x ∈ spec.sampleShape, x < 2 ^ 63) :
    LayoutAgrees spec ⟨spec.samplesPerBatch :: spec.sampleShape, layoutStrides spec.sampleShape,
      spec.elements * damacyDtypeBpe spec.dtype⟩ := by
  have hbpe := damacyDtypeBpe_pos spec.dtype
  have hstrides : layoutStrides spec.sampleShape = strides (spec.samplesPerBatch :: spec.shape) :=
    layoutStrides_eq hlt h.pos
  have hshape : ∀ n ∈ spec.samplesPerBatch :: spec.shape, 0 < n := by
    rw [forall_mem_cons]
    refine ⟨h.samples.1, fun n hn => ?_⟩
    obtain ⟨x, hx, rfl⟩ := mem_map.mp hn
    have := h.pos x hx
    omega
  -- an offset is the row-major number of a coordinate of the batch
  have hoffset : ∀ sample o, List.Forall₂ (· < ·) o spec.shape →
      BatchLayout.offset ⟨spec.samplesPerBatch :: spec.sampleShape,
        layoutStrides spec.sampleShape, spec.elements * damacyDtypeBpe spec.dtype⟩ sample o =
      ravel (spec.samplesPerBatch :: spec.shape) (sample :: o) := by
    intro sample o ho
    rw [BatchLayout.offset, hstrides, ← dot_strides (by simpa using ho.length_eq), strides, dot_cons]
    rfl
  refine ⟨h.computeLayout_eq hlt, ?_, hstrides, rfl, h.elements_le, fun s hs => ?_, ?_, ?_, ?_⟩
  · rw [dispatchStrides_eq h.pos, hstrides]
    rfl
  · rw [hstrides] at hs
    exact (strides_le_prod hshape s hs).trans h.elements_le
  · exact (Nat.le_div_iff_mul_le hbpe).mp h.bytes_le
  · intro sample hsample o ho
    rw [hoffset sample o ho, Nat.mul_div_cancel _ hbpe]
    exact ravel_lt (.cons hsample ho)
  · intro sample hsample o ho sample' hsample' o' ho' heq
    rw [hoffset sample o ho, hoffset sample' o' ho'] at heq
    exact List.cons.inj (ravel_inj (.cons hsample ho) (.cons hsample' ho') heq)

/-- **The three layouts agree.** An extent is an `int64_t`; the rank is a `uint8_t` that leaves room
for the batch axis. -/
theorem layouts_agree (hshape : ∀ x ∈ spec.sampleShape, InInt64 x)
    (hsamples : spec.samplesPerBatch ≤ 65535) (hrank : spec.sampleShape.length < 255) :
    ((∃ layout, batchSpecLayout spec = .ok layout) ↔
      (BatchPool.fresh.computeLayout spec.sampleShape spec.samplesPerBatch
        (damacyDtypeBpe spec.dtype)).2 = .ok) ∧
    ∀ layout, batchSpecLayout spec = .ok layout → LayoutAgrees spec layout := by
  have hlt : ∀ x ∈ spec.sampleShape, x < 2 ^ 63 := fun x hx => (hshape x hx).2
  refine ⟨⟨?_, fun h => ?_⟩, fun layout h => ?_⟩
  · rintro ⟨layout, h⟩
    rw [((batchSpecLayout_eq_ok_iff hlt).mp h).1.computeLayout_eq hlt]
  · exact ⟨_, (batchSpecLayout_eq_ok_iff hlt).mpr
      ⟨fits_of_computeLayout hlt hsamples hrank h, rfl⟩⟩
  · obtain ⟨hfits, rfl⟩ := (batchSpecLayout_eq_ok_iff hlt).mp h
    exact hfits.layoutAgrees hlt

theorem layouts_agree_volume :
    (BatchPool.fresh.computeLayout [4, 3, 5] 2 2).2 = .ok ∧
      LayoutAgrees ⟨.bf16, 2, [4, 3, 5]⟩ ⟨[2, 4, 3, 5], [60, 15, 5, 1], 240⟩ := by
  have hagree := layouts_agree (show ∀ x ∈ (⟨.bf16, 2, [4, 3, 5]⟩ : BatchSpec).sampleShape,
    InInt64 x by decide) (by decide) (by decide)
  exact ⟨hagree.1.mp ⟨_, rfl⟩, hagree.2 _ (by decide +kernel)⟩

end Agree

end Damacy

import Damacy.Dtype.Convert

/-!
# Array metadata and shard indexes (`zarr/zarr_metadata.h`, `zarr/zarr_shard_index.h`)

The parsed description of an array, the number of inner chunks per shard, the entries of a shard
index, and the path of a shard.
-/

namespace Damacy

/-- `enum compression_codec`. -/
inductive Codec
  | none | zstd | bloscLz4 | bloscZstd | fill
deriving DecidableEq, Repr

structure ZarrDim where
  shape : ℕ
  innerChunkShape : ℕ
  shardShape : ℕ
  shape_lt : shape < 2 ^ 64 := by decide
  innerChunkShape_lt : innerChunkShape < 2 ^ 64 := by decide
  shardShape_lt : shardShape < 2 ^ 64 := by decide
deriving DecidableEq

/-- `struct zarr_metadata`, as far as plans are concerned; the fill value is a bit pattern. -/
structure ZarrMetadata where
  dtype : Dtype
  dims : List ZarrDim
  innerCodec : Codec
  fillValue : ℕ
deriving DecidableEq

/-- The loop of `zarr_metadata_inner_per_shard`, with the product so far. -/
def innerPerShardLoop : ℕ → List ZarrDim → Option (List ℕ × ℕ)
  | total, [] => some ([], total)
  | total, d :: rest =>
    if d.innerChunkShape = 0 ∨ d.shardShape % d.innerChunkShape ≠ 0 then none
    else
      let per := d.shardShape / d.innerChunkShape
      if per ≠ 0 ∧ uint64Max / per < total then none
      else (innerPerShardLoop (total * per) rest).map fun r => (per :: r.1, r.2)

/-- `zarr_metadata_inner_per_shard`: inner chunks per shard along each axis and in total. -/
def zarrMetadataInnerPerShard (metadata : ZarrMetadata) : Option (List ℕ × ℕ) :=
  innerPerShardLoop 1 metadata.dims

/-- `struct zarr_shard_entry`. -/
structure ShardEntry where
  offset : ℕ
  nbytes : ℕ
deriving DecidableEq, Repr

/-- `ZARR_SHARD_EMPTY_OFFSET` and `ZARR_SHARD_EMPTY_NBYTES`. -/
def zarrShardEmpty : ℕ := 0xFFFFFFFFFFFFFFFF

def decimal (n : ℕ) : CString := (Nat.toDigits 10 n).map fun c => c.toNat.toUInt8

def slash : UInt8 := 0x2F

def strbufJoinPath (pre suffix : CString) : CString :=
  if pre = [] then suffix
  else if pre.getLast? = some slash then pre ++ suffix else pre ++ slash :: suffix

/-- `strbuf_join_path(prefix, "c")`. -/
def joinPathC (uri : CString) : CString := strbufJoinPath uri [0x63]

/-- `zarr_shard_path_build`: the array's uri, `c`, and the coordinates of the shard. -/
def zarrShardPathBuild (uri : CString) (shardCoord : List ℕ) : CString :=
  joinPathC uri ++ shardCoord.flatMap fun c => slash :: decimal c

/-! ## Inner chunks per shard -/

/-- One axis of an array whose shards are divided into whole inner chunks. -/
def ZarrDim.per (d : ZarrDim) : ℕ := d.shardShape / d.innerChunkShape

theorem innerPerShardLoop_spec {total t : ℕ} {dims : List ZarrDim} {per : List ℕ}
    (h : innerPerShardLoop total dims = some (per, t)) :
    (∀ d ∈ dims, 0 < d.innerChunkShape ∧ d.innerChunkShape ∣ d.shardShape) ∧
      per = dims.map ZarrDim.per ∧ t = total * per.prod := by
  induction dims generalizing total per t with
  | nil =>
    simp only [innerPerShardLoop, Option.some.injEq, Prod.mk.injEq] at h
    obtain ⟨rfl, rfl⟩ := h
    simp
  | cons d rest ih =>
    simp only [innerPerShardLoop] at h
    split at h
    · cases h
    · rename_i hd
      split at h
      · cases h
      · obtain ⟨⟨per', t'⟩, hrest, heq⟩ := Option.map_eq_some_iff.mp h
        obtain ⟨hdvd, rfl, rfl⟩ := ih hrest
        obtain ⟨rfl, rfl⟩ : ZarrDim.per d :: rest.map ZarrDim.per = per ∧ _ = t := by
          simpa [ZarrDim.per] using heq
        refine ⟨List.forall_mem_cons.mpr ⟨⟨by omega, ?_⟩, hdvd⟩, rfl, ?_⟩
        · exact Nat.dvd_of_mod_eq_zero (by omega)
        · rw [List.prod_cons, Nat.mul_assoc]
          rfl

theorem zarrMetadataInnerPerShard_spec {metadata : ZarrMetadata} {per : List ℕ} {total : ℕ}
    (h : zarrMetadataInnerPerShard metadata = some (per, total)) :
    (∀ d ∈ metadata.dims, 0 < d.innerChunkShape ∧ d.innerChunkShape ∣ d.shardShape) ∧
      per = metadata.dims.map ZarrDim.per ∧ total = per.prod := by
  simpa using innerPerShardLoop_spec h

end Damacy

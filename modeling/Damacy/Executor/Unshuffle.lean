import Mathlib.Data.FinEnum
import Mathlib.Tactic.IntervalCases
import Damacy.Types
import Damacy.Lib.Blocks

/-!
# Reading shuffled chunks (`load_unshuffled`, `load_bitunshuffled` of `assemble.cu`)

Blosc may shuffle the blocks of a chunk before it compresses them. The GPU does not undo this for the
whole chunk: the copy kernel gathers the bytes, or the bits, of each element that it copies. A chunk
is the list of its bytes here, and a read outside of it is a failure, so `load_shuffled` also says
that the gathers stay inside the chunk.
-/

open List Blocks

namespace Damacy

/-! ## Blosc's shuffles -/

def nBlocks (blocksize n : ℕ) : ℕ := (n + blocksize - 1) / blocksize

/-- The byte shuffle: in every block, byte `t` of all elements comes before byte `t + 1`. -/
def byteShuffle (typesize blocksize : ℕ) (chunk : List UInt8) : List UInt8 :=
  mapBlocks (transpose typesize) blocksize (nBlocks blocksize chunk.length) chunk

def bitAt (b : UInt8) (k : ℕ) : Bool := b.toBitVec.getLsbD k

def packBits (f : ℕ → Bool) : UInt8 := .ofBitVec (BitVec.iunfoldr (fun k s => (s, f k)) ()).2

/-- The bits of one block of `n` elements, plane by plane: plane `8 * t + k` holds bit `k` of byte `t`
of every element, eight elements to the byte. A number of elements that does not fill its last byte
is left as it is. -/
def bitShuffleBlock (typesize : ℕ) (l : List UInt8) : List UInt8 :=
  let n := l.length / typesize
  if n % 8 ≠ 0 then l
  else
    ((List.range (typesize * n)).map fun p =>
      let plane := p / (n / 8)
      packBits fun m => bitAt (l.getD ((8 * (p % (n / 8)) + m) * typesize + plane / 8) 0)
        (plane % 8)) ++ l.drop (typesize * n)

def bitShuffle (typesize blocksize : ℕ) (chunk : List UInt8) : List UInt8 :=
  mapBlocks (bitShuffleBlock typesize) blocksize (nBlocks blocksize chunk.length) chunk

/-! ## The loads -/

/-- Where an element lies in a chunk: the start of its block, the number of elements of the block, and
the element's number in it. -/
structure ElemPlace where
  block : ℕ
  elemsPerBlock : ℕ
  within : ℕ
deriving DecidableEq

def elemPlace (elemIdx typesize blocksize chunkBytes : ℕ) : ElemPlace :=
  let elemByte := u64 (elemIdx * typesize)
  let blockIdx := elemByte / blocksize
  let block := u64 (blockIdx * blocksize)
  let blockBytes := u32 (min blocksize (u64Sub chunkBytes block))
  { block
    elemsPerBlock := blockBytes / typesize
    within := u32 (u64Sub elemByte block) / typesize }

/-- `load_unshuffled`, up to the conversion of the element's bytes. -/
def loadUnshuffled (chunk : List UInt8) (elemIdx typesize blocksize chunkBytes : ℕ) :
    Option (List UInt8) :=
  let p := elemPlace elemIdx typesize blocksize chunkBytes
  ((List.range 8).filter (· < typesize)).mapM fun t =>
    chunk[p.block + u32 (u32 (t * p.elemsPerBlock) + p.within)]?

/-- The inner loop of `load_bitunshuffled`: byte `bb` of an element from its eight planes. -/
def gatherBits (chunk : List UInt8) (block bytesPerPlane eByte eBit bb : ℕ) : Option UInt8 :=
  (List.range 8).foldlM (fun out bp => do
    let plane ← chunk[block + u64 (u64 (u32 (u32 (bb * 8) + bp) * bytesPerPlane) + eByte)]?
    return out ||| (((plane >>> UInt8.ofNat eBit) &&& 1) <<< UInt8.ofNat bp)) 0

/-- `load_bitunshuffled`, up to the conversion of the element's bytes. -/
def loadBitunshuffled (chunk : List UInt8) (elemIdx typesize blocksize chunkBytes : ℕ) :
    Option (List UInt8) :=
  let p := elemPlace elemIdx typesize blocksize chunkBytes
  if p.elemsPerBlock % 8 ≠ 0 then
    (List.range typesize).mapM fun t => chunk[p.block + u32 (p.within * typesize) + t]?
  else
    ((List.range 8).takeWhile (· < typesize)).mapM fun bb =>
      gatherBits chunk p.block (p.elemsPerBlock >>> 3) (p.within >>> 3) (p.within &&& 7) bb

/-! ## Bits -/

theorem bitAt_packBits (f : ℕ → Bool) {k : ℕ} (h : k < 8) : bitAt (packBits f) k = f k :=
  BitVec.iunfoldr_getLsbD (fun _ => ()) ⟨k, h⟩ fun _ => rfl

theorem shiftRight_and_one (b : UInt8) {k : ℕ} (h : k < 8) :
    (b >>> UInt8.ofNat k) &&& 1 = if bitAt b k then 1 else 0 := by
  rw [bitAt]
  interval_cases k <;> revert b <;> decide +kernel

theorem foldl_bits (b : UInt8) : (List.range 8).foldl (fun (out : UInt8) bp =>
    out ||| ((if bitAt b bp then 1 else 0) <<< UInt8.ofNat bp)) 0 = b := by
  revert b
  decide +kernel

/-! ## The place of an element -/

section Place

variable {typesize blocksize e : ℕ} {chunk : List UInt8}

/-- What the shuffles and the loads are given: elements of one to eight bytes, blocks of whole
elements, a chunk of whole elements, sizes of 32 bits, and an element of the chunk. -/
structure ShuffleArgs (typesize blocksize : ℕ) (chunk : List UInt8) (e : ℕ) : Prop where
  typesize_pos : 0 < typesize
  typesize_le : typesize ≤ 8
  blocksize_pos : 0 < blocksize
  blocksize_dvd : typesize ∣ blocksize
  blocksize_lt : blocksize < 2 ^ 32
  length_dvd : typesize ∣ chunk.length
  length_lt : chunk.length < 2 ^ 32
  elem_lt : e < chunk.length / typesize

/-- The block of an element, with its number of elements and the element's number in it. -/
structure ShuffleArgs.Split (typesize blocksize : ℕ) (chunk : List UInt8) (e j n w : ℕ) : Prop where
  place : elemPlace e typesize blocksize chunk.length = ⟨j * blocksize, n, w⟩
  block_lt : j < nBlocks blocksize chunk.length
  length_block : (block blocksize j chunk).length = n * typesize
  within_lt : w < n
  elem_eq : j * blocksize + w * typesize = e * typesize
  length_lt : n * typesize < 2 ^ 32

theorem ShuffleArgs.split (h : ShuffleArgs typesize blocksize chunk e) :
    ∃ j n w, ShuffleArgs.Split typesize blocksize chunk e j n w := by
  have htpos := h.typesize_pos
  have hbpos := h.blocksize_pos
  have hlen := h.length_lt
  have helem : e * typesize < chunk.length :=
    (Nat.lt_div_iff_mul_lt' h.length_dvd e).mp h.elem_lt |>.trans_eq' (Nat.mul_comm _ _)
  -- the quotient by the size of a block, in bytes
  set j := e * typesize / blocksize with hj
  have hjle : j * blocksize ≤ e * typesize := Nat.div_mul_le_self _ _
  have hrem : e * typesize - j * blocksize < blocksize := by
    have := Nat.div_add_mod (e * typesize) blocksize
    have := Nat.mod_lt (e * typesize) hbpos
    rw [Nat.mul_comm blocksize, ← hj] at *
    omega
  have hjdvd : typesize ∣ j * blocksize := h.blocksize_dvd.mul_left j
  have hndvd : typesize ∣ min blocksize (chunk.length - j * blocksize) := by
    rcases Nat.le_total blocksize (chunk.length - j * blocksize) with hle | hle
    · rw [Nat.min_eq_left hle]
      exact h.blocksize_dvd
    · rw [Nat.min_eq_right hle]
      exact Nat.dvd_sub h.length_dvd hjdvd
  have hwdvd : typesize ∣ e * typesize - j * blocksize :=
    Nat.dvd_sub (Nat.dvd_mul_left _ _) hjdvd
  have hbytes := h.blocksize_lt
  refine ⟨j, min blocksize (chunk.length - j * blocksize) / typesize,
    (e * typesize - j * blocksize) / typesize, ?_, ?_, ?_, ?_, ?_, ?_⟩
  · have h1 : u64 (e * typesize) = e * typesize := u64_of_lt (by omega)
    have h2 : u64 (j * blocksize) = j * blocksize := u64_of_lt (by omega)
    have h3 : u64Sub chunk.length (j * blocksize) = chunk.length - j * blocksize :=
      u64Sub_of_le (by omega) (by omega)
    have h4 : u64Sub (e * typesize) (j * blocksize) = e * typesize - j * blocksize :=
      u64Sub_of_le hjle (by omega)
    simp only [elemPlace, h1, ← hj, h2, h3, h4]
    rw [u32_of_lt (by omega), u32_of_lt (by omega)]
  · rw [nBlocks, ← Nat.succ_le_iff, Nat.le_div_iff_mul_le hbpos, Nat.succ_mul]
    omega
  · rw [Blocks.length_block, Nat.div_mul_cancel hndvd]
  · refine Nat.div_lt_div_of_lt_of_dvd hndvd ?_
    omega
  · rw [Nat.div_mul_cancel hwdvd]
    omega
  · rw [Nat.div_mul_cancel hndvd]
    omega

end Place

/-! ## Reading a list of bytes -/

theorem mapM_eq_some_map {α β : Type} {f : α → Option β} {g : α → β} {l : List α}
    (h : ∀ a ∈ l, f a = some (g a)) : l.mapM f = some (l.map g) := by
  induction l with
  | nil => rfl
  | cons a l ih =>
    rw [forall_mem_cons] at h
    rw [mapM_cons, h.1, ih h.2]
    rfl

theorem foldlM_eq_some_foldl {α β : Type} {f : β → α → Option β} {g : β → α → β} {l : List α}
    (h : ∀ a ∈ l, ∀ b, f b a = some (g b a)) (init : β) :
    l.foldlM f init = some (l.foldl g init) := by
  induction l generalizing init with
  | nil => rfl
  | cons a l ih =>
    rw [forall_mem_cons] at h
    rw [foldlM_cons, h.1, foldl_cons]
    exact ih h.2 _

def elemBytes (typesize : ℕ) (chunk : List UInt8) (e : ℕ) : List UInt8 :=
  (chunk.drop (e * typesize)).take typesize

section Loads

variable {typesize blocksize e : ℕ} {chunk : List UInt8}

theorem ShuffleArgs.exists_byte (h : ShuffleArgs typesize blocksize chunk e) {t : ℕ}
    (ht : t < typesize) : chunk[e * typesize + t]? = some (chunk.getD (e * typesize + t) 0) := by
  have hlt : e * typesize + t < chunk.length := by
    have hle : (e + 1) * typesize ≤ chunk.length :=
      (Nat.le_div_iff_mul_le h.typesize_pos).mp h.elem_lt
    rw [Nat.succ_mul] at hle
    omega
  rw [List.getD, getElem?_eq_getElem hlt, Option.getD_some]

theorem ShuffleArgs.map_bytes (h : ShuffleArgs typesize blocksize chunk e) :
    ((List.range typesize).map fun t => chunk.getD (e * typesize + t) 0) =
      elemBytes typesize chunk e := by
  apply ext_getElem?
  intro t
  rw [elemBytes, getElem?_map]
  by_cases ht : t < typesize
  · rw [getElem?_range ht, getElem?_take_of_lt ht, getElem?_drop, h.exists_byte ht]
    rfl
  · rw [getElem?_eq_none (by simpa using ht), getElem?_take_eq_none (by omega)]
    rfl

theorem ShuffleArgs.mapM_bytes (h : ShuffleArgs typesize blocksize chunk e) {f : ℕ → Option UInt8}
    (hf : ∀ t < typesize, f t = chunk[e * typesize + t]?) :
    (List.range typesize).mapM f = some (elemBytes typesize chunk e) := by
  rw [← h.map_bytes]
  refine mapM_eq_some_map fun t ht => ?_
  have ht' := mem_range.mp ht
  rw [hf t ht', h.exists_byte ht']

theorem filter_range_eight (h : typesize ≤ 8) :
    (List.range 8).filter (· < typesize) = List.range typesize ∧
      (List.range 8).takeWhile (· < typesize) = List.range typesize := by
  interval_cases typesize <;> decide

theorem ShuffleArgs.Split.getElem?_mapBlocks {j n w i : ℕ} {f : List UInt8 → List UInt8}
    (hs : ShuffleArgs.Split typesize blocksize chunk e j n w) (hf : ∀ l, (f l).length = l.length)
    (hi : i < n * typesize) :
    (mapBlocks f blocksize (nBlocks blocksize chunk.length) chunk)[j * blocksize + i]? =
      (f (block blocksize j chunk))[i]? :=
  Blocks.getElem?_mapBlocks hf hs.block_lt (by rwa [hs.length_block])

theorem ShuffleArgs.Split.getElem?_block {j n w t : ℕ}
    (hs : ShuffleArgs.Split typesize blocksize chunk e j n w) (ht : t < typesize) :
    (block blocksize j chunk)[w * typesize + t]? = chunk[e * typesize + t]? := by
  have hlt : w * typesize + t < n * typesize := by
    calc w * typesize + t < w * typesize + typesize := by omega
      _ = (w + 1) * typesize := by ring
      _ ≤ n * typesize := Nat.mul_le_mul_right _ hs.within_lt
  have hsize : w * typesize + t < blocksize := by
    have := hs.length_block
    rw [Blocks.length_block] at this
    omega
  rw [Blocks.getElem?_block _ hsize, ← hs.elem_eq, Nat.add_assoc]

theorem loadUnshuffled_byteShuffle (h : ShuffleArgs typesize blocksize chunk e) :
    loadUnshuffled (byteShuffle typesize blocksize chunk) e typesize blocksize chunk.length =
      some (elemBytes typesize chunk e) := by
  obtain ⟨j, n, w, hs⟩ := h.split
  rw [loadUnshuffled, hs.place, (filter_range_eight h.typesize_le).1]
  refine h.mapM_bytes fun t ht => ?_
  have hwithin := hs.within_lt
  have hlt : t * n + w < n * typesize := by
    calc t * n + w < t * n + n := by omega
      _ = n * (t + 1) := by ring
      _ ≤ n * typesize := Nat.mul_le_mul_left _ ht
  have hbound := hs.length_lt
  dsimp only
  rw [u32_of_lt (show t * n < 2 ^ 32 by omega), u32_of_lt (by omega), byteShuffle,
    hs.getElem?_mapBlocks (length_transpose typesize) hlt,
    getElem?_transpose hs.length_block ht hs.within_lt, hs.getElem?_block ht]

theorem length_bitShuffleBlock (typesize : ℕ) (l : List UInt8) :
    (bitShuffleBlock typesize l).length = l.length := by
  have := Nat.mul_div_le l.length typesize
  rw [bitShuffleBlock]
  split
  · rfl
  · simp only [length_append, length_map, length_range, length_drop]
    omega

theorem getElem?_bitShuffleBlock {typesize n t k i : ℕ} {l : List UInt8}
    (hlen : l.length = n * typesize) (hn : n % 8 = 0) (ht : t < typesize) (hk : k < 8)
    (hi : i < n / 8) :
    (bitShuffleBlock typesize l)[(8 * t + k) * (n / 8) + i]? =
      some (packBits fun m => bitAt (l.getD ((8 * i + m) * typesize + t) 0) k) := by
  have hquot : l.length / typesize = n := by rw [hlen, Nat.mul_div_cancel _ (by omega)]
  have hlt : (8 * t + k) * (n / 8) + i < typesize * n := by
    calc (8 * t + k) * (n / 8) + i < (8 * t + k) * (n / 8) + n / 8 := by omega
      _ = (8 * t + k + 1) * (n / 8) := by ring
      _ ≤ (8 * typesize) * (n / 8) := Nat.mul_le_mul_right _ (by omega)
      _ = typesize * (8 * (n / 8)) := by ring
      _ = typesize * n := by rw [Nat.mul_div_cancel' (Nat.dvd_of_mod_eq_zero hn)]
  have hmod : ((8 * t + k) * (n / 8) + i) % (n / 8) = i := by
    rw [Nat.mul_comm, Nat.mul_add_mod, Nat.mod_eq_of_lt hi]
  have hdiv : ((8 * t + k) * (n / 8) + i) / (n / 8) = 8 * t + k := by
    rw [Nat.mul_comm, Nat.mul_add_div (by omega), Nat.div_eq_of_lt hi, Nat.add_zero]
  have hplane : (8 * t + k) / 8 = t ∧ (8 * t + k) % 8 = k := by omega
  rw [bitShuffleBlock]
  simp only [hquot, hn, ne_eq, not_true_eq_false, if_false]
  rw [getElem?_append_left (by simpa using hlt), getElem?_map, getElem?_range hlt,
    Option.map_some, hmod, hdiv, hplane.1, hplane.2]

theorem loadBitunshuffled_bitShuffle (h : ShuffleArgs typesize blocksize chunk e) :
    loadBitunshuffled (bitShuffle typesize blocksize chunk) e typesize blocksize chunk.length =
      some (elemBytes typesize chunk e) := by
  obtain ⟨j, n, w, hs⟩ := h.split
  have hwithin := hs.within_lt
  have hbound := hs.length_lt
  have hlen := hs.length_block
  rw [loadBitunshuffled, hs.place]
  dsimp only
  by_cases hn : n % 8 = 0
  · rw [if_neg (by simpa using hn), (filter_range_eight h.typesize_le).2]
    refine h.mapM_bytes fun t ht => ?_
    have hi : w / 8 < n / 8 := by omega
    rw [h.exists_byte ht, ← foldl_bits (chunk.getD (e * typesize + t) 0), gatherBits]
    refine foldlM_eq_some_foldl (fun k hk out => ?_) 0
    have hk' := mem_range.mp hk
    -- plane `8 * t + k` lies inside the block
    have hlt : (8 * t + k) * (n / 8) + w / 8 < n * typesize := by
      calc (8 * t + k) * (n / 8) + w / 8 < (8 * t + k) * (n / 8) + n / 8 := by omega
        _ = (8 * t + k + 1) * (n / 8) := by ring
        _ ≤ (8 * typesize) * (n / 8) := Nat.mul_le_mul_right _ (by omega)
        _ = 8 * (n / 8) * typesize := by ring
        _ = n * typesize := by rw [Nat.mul_div_cancel' (Nat.dvd_of_mod_eq_zero hn)]
    have hbyte : (block blocksize j chunk).getD ((8 * (w / 8) + w % 8) * typesize + t) 0 =
        chunk.getD (e * typesize + t) 0 := by
      rw [Nat.div_add_mod, List.getD, List.getD, hs.getElem?_block ht]
    have htle := h.typesize_le
    have hread : (bitShuffle typesize blocksize chunk)[j * blocksize +
        u64 (u64 (u32 (u32 (t * 8) + k) * (n >>> 3)) + w >>> 3)]? = some (packBits fun m =>
          bitAt ((block blocksize j chunk).getD ((8 * (w / 8) + m) * typesize + t) 0) k) := by
      have hshift : ∀ x : ℕ, x >>> 3 = x / 8 := fun x => Nat.shiftRight_eq_div_pow x 3
      rw [hshift, hshift, u32_of_lt (show t * 8 < 2 ^ 32 by omega), u32_of_lt (by omega),
        Nat.mul_comm t 8, u64_of_lt (show (8 * t + k) * (n / 8) < 2 ^ 64 by omega),
        u64_of_lt (by omega), bitShuffle, hs.getElem?_mapBlocks (length_bitShuffleBlock typesize) hlt]
      exact getElem?_bitShuffleBlock hlen hn ht hk' hi
    have hmask : w &&& 7 = w % 8 := Nat.and_two_pow_sub_one_eq_mod w 3
    have hmod : w % 8 < 8 := Nat.mod_lt _ (by decide)
    rw [hread, Option.bind_eq_bind, Option.bind_some, hmask, shiftRight_and_one _ hmod,
      bitAt_packBits _ hmod, hbyte]
    rfl
  · rw [if_pos hn]
    refine h.mapM_bytes fun t ht => ?_
    have hlt : w * typesize + t < n * typesize := by
      calc w * typesize + t < w * typesize + typesize := by omega
        _ = (w + 1) * typesize := by ring
        _ ≤ n * typesize := Nat.mul_le_mul_right _ hwithin
    have hsame : bitShuffleBlock typesize (block blocksize j chunk) = block blocksize j chunk := by
      rw [bitShuffleBlock, hlen, Nat.mul_div_cancel _ h.typesize_pos, if_pos hn]
    rw [u32_of_lt (by omega), Nat.add_assoc, bitShuffle,
      hs.getElem?_mapBlocks (length_bitShuffleBlock typesize) hlt, hsame, hs.getElem?_block ht]

/-- **The gathers undo the shuffles.** For elements of one to eight bytes, blocks of whole elements, a
chunk of whole elements and every element of it, also in a shorter last block: the byte gather on a
byte-shuffled chunk and the bit gather on a bit-shuffled chunk both return the element's bytes. -/
theorem load_shuffled (h : ShuffleArgs typesize blocksize chunk e) :
    loadUnshuffled (byteShuffle typesize blocksize chunk) e typesize blocksize chunk.length =
        some (elemBytes typesize chunk e) ∧
      loadBitunshuffled (bitShuffle typesize blocksize chunk) e typesize blocksize chunk.length =
        some (elemBytes typesize chunk e) :=
  ⟨loadUnshuffled_byteShuffle h, loadBitunshuffled_bitShuffle h⟩

end Loads

/-- A chunk of twelve elements of two bytes in blocks of eight elements: the last block has four
elements, which are bytes shuffled but not bits. -/
theorem load_shuffled_tail :
    let chunk : List UInt8 := (List.range 24).map UInt8.ofNat
    loadUnshuffled (byteShuffle 2 16 chunk) 9 2 16 24 = some [18, 19] ∧
      loadBitunshuffled (bitShuffle 2 16 chunk) 9 2 16 24 = some [18, 19] := by
  intro chunk
  have h : ShuffleArgs 2 16 chunk 9 :=
    ⟨by decide, by decide, by decide, by decide, by decide, by decide, by decide, by decide⟩
  exact load_shuffled h

end Damacy

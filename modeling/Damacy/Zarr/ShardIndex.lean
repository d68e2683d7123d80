import Damacy.Zarr.ChunkKey
import Damacy.Util.Crc32c
import Damacy.Lib.LittleEndian

/-!
# The index of a shard (`zarr/zarr_shard_index.c`)

The index of a shard with `n` inner chunks is a table of `n` pairs of 64-bit numbers and its
CRC-32C, all little-endian. `zarrShardIndexParse_exact` says that the parser accepts exactly the
encodings of tables (`encodeShardIndex`) and returns the table. `zarrShardIndexParse_burst` says that
an index which is damaged within 32 consecutive bits is not accepted.
-/

open List

namespace Damacy

def loadLeU64 (p : List UInt8) : ℕ := LittleEndian.load 8 p

def loadLeU32 (p : List UInt8) : ℕ :=
  (p.getD 0 0).toNat ||| (p.getD 1 0).toNat <<< 8 ||| (p.getD 2 0).toNat <<< 16 |||
    (p.getD 3 0).toNat <<< 24

/-- The loop of `zarr_shard_index_parse` over the table. -/
def shardEntries (nEntries : ℕ) (p : List UInt8) : List ShardEntry :=
  (List.range nEntries).map fun i =>
    ⟨loadLeU64 (p.drop (i * 16)), loadLeU64 (p.drop (i * 16 + 8))⟩

/-- `zarr_shard_index_parse`; a `NULL` buffer is `none`, and `hasEntries` says whether there is room
for the entries. -/
def zarrShardIndexParse (buf : Option (List UInt8)) (nEntries : ℕ) (hasEntries : Bool) :
    Option (List ShardEntry) :=
  match buf with
  | none => none
  | some p =>
    if !hasEntries then none
    else if p.length ≠ zarrShardIndexSize nEntries then none
    else if loadLeU32 (p.drop (nEntries * 16)) ≠ (crc32c (p.take (nEntries * 16))).toNat then none
    else some (shardEntries nEntries p)

/-! ## The encoding -/

def encodeEntry (e : ShardEntry) : List UInt8 :=
  LittleEndian.bytes 8 e.offset ++ LittleEndian.bytes 8 e.nbytes

def encodeChecksum (table : List UInt8) : List UInt8 :=
  LittleEndian.bytes 4 (crc32cBitwise table).toNat

def encodeShardIndex (entries : List ShardEntry) : List UInt8 :=
  entries.flatMap encodeEntry ++ encodeChecksum (entries.flatMap encodeEntry)

def ShardEntry.Fits (e : ShardEntry) : Prop := e.offset < 2 ^ 64 ∧ e.nbytes < 2 ^ 64

variable {n : ℕ} {buf : List UInt8} {entries : List ShardEntry}

@[simp] theorem length_encodeEntry (e : ShardEntry) : (encodeEntry e).length = 16 := by
  simp [encodeEntry]

@[simp] theorem length_encodeChecksum (table : List UInt8) : (encodeChecksum table).length = 4 := by
  simp [encodeChecksum]

theorem length_flatMap_encodeEntry (entries : List ShardEntry) :
    (entries.flatMap encodeEntry).length = 16 * entries.length := by
  induction entries with
  | nil => rfl
  | cons e entries ih =>
    rw [flatMap_cons, length_append, length_encodeEntry, ih, length_cons]
    omega

theorem encodeEntry_inj {e e' : ShardEntry} (he : e.Fits) (he' : e'.Fits)
    (h : encodeEntry e = encodeEntry e') : e = e' := by
  obtain ⟨hoffset, hnbytes⟩ := append_inj h (by simp)
  have hvalue : ∀ {a b : ℕ}, a < 2 ^ 64 → b < 2 ^ 64 →
      LittleEndian.bytes 8 a = LittleEndian.bytes 8 b → a = b := by
    intro a b ha hb hab
    rw [← LittleEndian.value_bytes_of_lt (n := 8) (v := a) ha, hab,
      LittleEndian.value_bytes_of_lt (n := 8) hb]
  cases e
  cases e'
  rw [ShardEntry.mk.injEq]
  exact ⟨hvalue he.1 he'.1 hoffset, hvalue he.2 he'.2 hnbytes⟩

theorem flatMap_encodeEntry_inj {a b : List ShardEntry} (ha : ∀ e ∈ a, e.Fits) (hb : ∀ e ∈ b, e.Fits)
    (h : a.flatMap encodeEntry = b.flatMap encodeEntry) : a = b := by
  induction a generalizing b with
  | nil =>
    have hlen := congrArg List.length h
    rw [length_flatMap_encodeEntry, length_flatMap_encodeEntry, length_nil] at hlen
    exact (length_eq_zero_iff.mp (by omega)).symm
  | cons e a ih =>
    cases b with
    | nil =>
      have hlen := congrArg List.length h
      rw [length_flatMap_encodeEntry, length_flatMap_encodeEntry, length_cons] at hlen
      exact absurd hlen (by simp)
    | cons e' b =>
      rw [flatMap_cons, flatMap_cons] at h
      obtain ⟨hhead, htail⟩ := append_inj h (by simp)
      rw [forall_mem_cons] at ha hb
      rw [encodeEntry_inj ha.1 hb.1 hhead, ih ha.2 hb.2 htail]

/-! ## What is read -/

theorem loadLeU64_drop {k : ℕ} (hk : k + 8 ≤ buf.length) :
    loadLeU64 (buf.drop k) = LittleEndian.value ((buf.drop k).take 8) :=
  LittleEndian.load_eq (by rw [length_drop]; omega)

theorem loadLeU32_eq {p : List UInt8} (hp : p.length = 4) : loadLeU32 p = LittleEndian.value p := by
  have hload : loadLeU32 p = LittleEndian.load 4 p := by
    simp [loadLeU32, LittleEndian.load, range_succ]
  rw [hload, LittleEndian.load_eq hp.ge, take_of_length_le hp.le]

theorem bytes_loadLeU64 {k : ℕ} (hk : k + 8 ≤ buf.length) :
    LittleEndian.bytes 8 (loadLeU64 (buf.drop k)) = (buf.drop k).take 8 := by
  have hlen : ((buf.drop k).take 8).length = 8 := by
    rw [length_take, length_drop]
    omega
  have hbytes := LittleEndian.bytes_value ((buf.drop k).take 8)
  rwa [hlen, ← loadLeU64_drop hk] at hbytes

theorem shardEntries_fits (hlen : n * 16 ≤ buf.length) : ∀ e ∈ shardEntries n buf, e.Fits := by
  intro e he
  obtain ⟨i, hi, rfl⟩ := mem_map.mp he
  have hi' := mem_range.mp hi
  have hlt : ∀ {k}, k + 8 ≤ buf.length → loadLeU64 (buf.drop k) < 2 ^ 64 := by
    intro k hk
    rw [loadLeU64_drop hk]
    refine (LittleEndian.value_lt _).trans_le ?_
    exact Nat.pow_le_pow_right (by decide) (length_take_le 8 _)
  exact ⟨hlt (by omega), hlt (by omega)⟩

theorem flatMap_encodeEntry_shardEntries (hlen : n * 16 ≤ buf.length) :
    (shardEntries n buf).flatMap encodeEntry = buf.take (n * 16) := by
  induction n with
  | zero => simp [shardEntries]
  | succ n ih =>
    have hentries : shardEntries (n + 1) buf = shardEntries n buf ++
        [⟨loadLeU64 (buf.drop (n * 16)), loadLeU64 (buf.drop (n * 16 + 8))⟩] := by
      simp [shardEntries, range_succ]
    have hentry : encodeEntry ⟨loadLeU64 (buf.drop (n * 16)), loadLeU64 (buf.drop (n * 16 + 8))⟩ =
        (buf.drop (n * 16)).take 16 := by
      rw [encodeEntry, bytes_loadLeU64 (by omega), bytes_loadLeU64 (by omega),
        ← drop_drop, ← take_add]
    rw [hentries, flatMap_append, ih (by omega), flatMap_singleton, hentry,
      ← take_add, Nat.succ_mul]

theorem crc32c_toNat_lt (data : List UInt8) : (crc32c data).toNat < 256 ^ 4 := (crc32c data).isLt

theorem zarrShardIndexParse_eq_some (hn : 16 * n + 4 < 2 ^ 64) :
    zarrShardIndexParse (some buf) n true = some entries ↔
      buf.length = 16 * n + 4 ∧ buf.drop (16 * n) = encodeChecksum (buf.take (16 * n)) ∧
        entries = shardEntries n buf := by
  have hsize : zarrShardIndexSize n = 16 * n + 4 := by
    rw [zarrShardIndexSize, Nat.mul_comm, u64_of_lt hn]
  rw [zarrShardIndexParse, if_neg (by decide), hsize, Nat.mul_comm n 16]
  by_cases hlen : buf.length = 16 * n + 4
  · have hfoot : (buf.drop (16 * n)).length = 4 := by rw [length_drop]; omega
    have hfooter : loadLeU32 (buf.drop (16 * n)) = (crc32c (buf.take (16 * n))).toNat ↔
        buf.drop (16 * n) = encodeChecksum (buf.take (16 * n)) := by
      rw [loadLeU32_eq hfoot, encodeChecksum, crc32cBitwise_eq_feedBits, ← crc32c_eq_feedBits]
      constructor
      · intro h
        rw [← h, ← hfoot, LittleEndian.bytes_value]
      · intro h
        rw [h, LittleEndian.value_bytes_of_lt (crc32c_toNat_lt _)]
    rw [if_neg (not_not.mpr hlen)]
    split
    · rename_i hne
      exact ⟨fun h => absurd h.symm (Option.some_ne_none _), fun h => absurd (hfooter.mpr h.2.1) hne⟩
    · rename_i heq
      rw [not_not, hfooter] at heq
      rw [Option.some.injEq]
      exact ⟨fun h => ⟨hlen, heq, h.symm⟩, fun h => h.2.2.symm⟩
  · rw [if_pos hlen]
    exact ⟨fun h => absurd h.symm (Option.some_ne_none _), fun h => absurd h.1 hlen⟩

theorem zarrShardIndexParse_encode (hn : 16 * n + 4 < 2 ^ 64) :
    zarrShardIndexParse (some buf) n true = some entries ↔
      entries.length = n ∧ (∀ e ∈ entries, e.Fits) ∧ buf = encodeShardIndex entries := by
  rw [zarrShardIndexParse_eq_some hn]
  constructor
  · rintro ⟨hlen, hfoot, rfl⟩
    have htable : (shardEntries n buf).flatMap encodeEntry = buf.take (n * 16) :=
      flatMap_encodeEntry_shardEntries (by omega)
    refine ⟨by simp [shardEntries], shardEntries_fits (by omega), ?_⟩
    rw [encodeShardIndex, htable, Nat.mul_comm n 16, ← hfoot, take_append_drop]
  · rintro ⟨rfl, hfits, rfl⟩
    have hlen := length_flatMap_encodeEntry entries
    have htake : (encodeShardIndex entries).take (16 * entries.length) =
        entries.flatMap encodeEntry := take_left' hlen
    have hlength : (encodeShardIndex entries).length = 16 * entries.length + 4 := by
      rw [encodeShardIndex, length_append, hlen, length_encodeChecksum]
    refine ⟨hlength, ?_, ?_⟩
    · rw [htake]
      exact drop_left' hlen
    · refine flatMap_encodeEntry_inj hfits (shardEntries_fits (by omega)) ?_
      rw [flatMap_encodeEntry_shardEntries (by omega), Nat.mul_comm, htake]

/-- The parser of an index with `n` entries is the inverse of the encoding. -/
structure ShardIndexExact (n : ℕ) : Prop where
  /-- It accepts the tables with their checksum. -/
  accepts : ∀ buf, (zarrShardIndexParse (some buf) n true).isSome ↔
    buf.length = 16 * n + 4 ∧
      buf.drop (16 * n) = LittleEndian.bytes 4 (crc32cBitwise (buf.take (16 * n))).toNat
  /-- It returns the numbers of the table. -/
  entry : ∀ buf entries, zarrShardIndexParse (some buf) n true = some entries →
    entries.length = n ∧ ∀ i < n, entries[i]? =
      some ⟨LittleEndian.value ((buf.drop (16 * i)).take 8),
        LittleEndian.value ((buf.drop (16 * i + 8)).take 8)⟩
  /-- It returns the entries of their encoding. -/
  encode : ∀ entries : List ShardEntry, entries.length = n → (∀ e ∈ entries, e.Fits) →
    zarrShardIndexParse (some (encodeShardIndex entries)) n true = some entries
  /-- There is no other encoding of them. -/
  unique : ∀ buf buf' entries, zarrShardIndexParse (some buf) n true = some entries →
    zarrShardIndexParse (some buf') n true = some entries → buf = buf'

/-- **The shard index is read exactly.** -/
theorem zarrShardIndexParse_exact {n : ℕ} (hn : 16 * n + 4 < 2 ^ 64) : ShardIndexExact n where
  accepts := by
    intro buf
    rw [Option.isSome_iff_exists]
    simp only [zarrShardIndexParse_eq_some hn, encodeChecksum]
    exact ⟨fun ⟨_, hlen, hfoot, _⟩ => ⟨hlen, hfoot⟩, fun h => ⟨_, h.1, h.2, rfl⟩⟩
  entry := by
    intro buf entries h
    obtain ⟨hlen, -, rfl⟩ := (zarrShardIndexParse_eq_some hn).mp h
    refine ⟨by simp [shardEntries], fun i hi => ?_⟩
    rw [shardEntries, getElem?_map, getElem?_range hi, Option.map_some,
      loadLeU64_drop (by omega), loadLeU64_drop (by omega), Nat.mul_comm i 16]
  encode := fun entries hlen hfits => (zarrShardIndexParse_encode hn).mpr ⟨hlen, hfits, rfl⟩
  unique := by
    intro buf buf' entries h h'
    rw [((zarrShardIndexParse_encode hn).mp h).2.2, ((zarrShardIndexParse_encode hn).mp h').2.2]

/-- The index of a stored chunk and of a missing one. -/
theorem zarrShardIndexParse_exact_two : ShardIndexExact 2 ∧
    zarrShardIndexParse (some (encodeShardIndex [⟨0, 100⟩, ⟨2 ^ 64 - 1, 2 ^ 64 - 1⟩])) 2 true =
      some [⟨0, 100⟩, ⟨2 ^ 64 - 1, 2 ^ 64 - 1⟩] := by
  have hexact : ShardIndexExact 2 := zarrShardIndexParse_exact (by decide)
  refine ⟨hexact, hexact.encode _ rfl ?_⟩
  rw [forall_mem_cons, forall_mem_singleton]
  exact ⟨⟨by decide, by decide⟩, by decide, by decide⟩

/-! ## Damage -/

theorem crcBits_bytes {w : ℕ} (k : ℕ) (v : BitVec w) :
    crcBits (LittleEndian.bytes k v.toNat) = Crc.lowBits (8 * k) v := by
  induction k with
  | zero => rfl
  | succ k ih =>
    have hlast : byteBits (UInt8.ofNat (v.toNat >>> (8 * k))) =
        (List.range 8).map fun i => v.getLsbD (8 * k + i) := by
      unfold byteBits
      apply map_congr_left
      intro i hi
      have hi' := mem_range.mp hi
      change (BitVec.ofNat 8 (v.toNat >>> (8 * k))).getLsbD i = _
      rw [BitVec.getLsbD_ofNat, Nat.testBit_shiftRight, decide_eq_true hi', Bool.true_and]
      rfl
    rw [LittleEndian.bytes, range_succ, map_append, crcBits, flatMap_append]
    change crcBits (LittleEndian.bytes k v.toNat) ++ _ = _
    rw [ih, map_singleton, flatMap_singleton, hlast, Crc.lowBits, Crc.lowBits,
      Nat.mul_succ, range_add, map_append, map_map]
    rfl

theorem feedBits_accepted (hn : 16 * n + 4 < 2 ^ 64)
    (h : zarrShardIndexParse (some buf) n true = some entries) :
    Crc.feedBits crc32cPolynomial 0xFFFFFFFF#32 (crcBits buf) =
      (Crc.shift crc32cPolynomial)^[32] 0xFFFFFFFF#32 := by
  obtain ⟨-, -, rfl⟩ := (zarrShardIndexParse_encode hn).mp h
  set table := entries.flatMap encodeEntry
  set register := Crc.feedBits crc32cPolynomial 0xFFFFFFFF#32 (crcBits table)
  have hcrc : crc32cBitwise table = register ^^^ 0xFFFFFFFF#32 := crc32cBitwise_eq_feedBits table
  have hbits : crcBits (encodeShardIndex entries) =
      crcBits table ++ Crc.lowBits 32 (crc32cBitwise table) := by
    rw [encodeShardIndex, crcBits, flatMap_append]
    exact congrArg (crcBits table ++ ·) (crcBits_bytes 4 (crc32cBitwise table))
  rw [hbits, Crc.feedBits_append, Crc.feedBits_word, hcrc, ← BitVec.xor_assoc, BitVec.xor_self,
    BitVec.zero_xor]

theorem byteBits_inj {b c : UInt8} (h : byteBits b = byteBits c) : b = c := by
  apply UInt8.toBitVec_inj.mp
  apply BitVec.eq_of_getLsbD_eq
  intro i hi
  exact map_inj_left.mp h i (mem_range.mpr hi)

@[simp] theorem length_byteBits (b : UInt8) : (byteBits b).length = 8 := by simp [byteBits]

theorem length_crcBits (data : List UInt8) : (crcBits data).length = 8 * data.length := by
  induction data with
  | nil => rfl
  | cons b data ih =>
    rw [crcBits, flatMap_cons, length_append, length_byteBits, length_cons]
    rw [crcBits] at ih
    omega

theorem crcBits_inj {a b : List UInt8} (hlen : a.length = b.length) (h : crcBits a = crcBits b) :
    a = b := by
  induction a generalizing b with
  | nil => exact (length_eq_zero_iff.mp hlen.symm).symm
  | cons x a ih =>
    cases b with
    | nil => exact absurd hlen (Nat.succ_ne_zero _)
    | cons y b =>
      rw [crcBits, crcBits, flatMap_cons, flatMap_cons] at h
      obtain ⟨hhead, htail⟩ := append_inj h (by simp)
      rw [byteBits_inj hhead, ih (Nat.succ.inj hlen) htail]

theorem take_window_drop {α : Type*} (l : List α) (k m : ℕ) :
    l.take k ++ (l.drop k).take m ++ l.drop (k + m) = l := by
  rw [append_assoc, ← drop_drop, take_append_drop, take_append_drop]

/-- The bits in which two byte strings differ are within 32 consecutive ones. -/
def DifferWithin32 (buf buf' : List UInt8) : Prop :=
  ∃ k, ∀ i, (crcBits buf)[i]? ≠ (crcBits buf')[i]? → k ≤ i ∧ i < k + 32

/-- **An index that is damaged within 32 bits is rejected.** -/
theorem zarrShardIndexParse_burst {n : ℕ} (hn : 16 * n + 4 < 2 ^ 64) {buf buf' : List UInt8}
    {entries : List ShardEntry} (h : zarrShardIndexParse (some buf) n true = some entries)
    (hlen : buf'.length = buf.length) (hne : buf' ≠ buf) (hburst : DifferWithin32 buf buf') :
    zarrShardIndexParse (some buf') n true = none := by
  by_contra hsome
  obtain ⟨entries', h'⟩ := Option.ne_none_iff_exists'.mp hsome
  have hlength : buf.length = 16 * n + 4 := ((zarrShardIndexParse_eq_some hn).mp h).1
  obtain ⟨k, hk⟩ := hburst
  have hbits : (crcBits buf).length = 8 * buf.length := length_crcBits buf
  have hbits' : (crcBits buf').length = 8 * buf.length := by rw [length_crcBits, hlen]
  -- a window of exactly 32 bits inside the index
  obtain ⟨j, hj, hwindow⟩ : ∃ j, j + 32 ≤ 8 * buf.length ∧
      ∀ i, i < j ∨ j + 32 ≤ i → (crcBits buf)[i]? = (crcBits buf')[i]? := by
    refine ⟨min k (8 * buf.length - 32), by omega, fun i hi => ?_⟩
    by_contra hdiff
    have hin := hk i hdiff
    have hlt : i < 8 * buf.length := by
      by_contra hge
      rw [getElem?_eq_none (by omega), getElem?_eq_none (by omega)] at hdiff
      exact hdiff rfl
    omega
  have htake : (crcBits buf).take j = (crcBits buf').take j := by
    apply ext_getElem?
    intro i
    rw [getElem?_take, getElem?_take]
    split
    · exact hwindow i (.inl ‹_›)
    · rfl
  have hdrop : (crcBits buf).drop (j + 32) = (crcBits buf').drop (j + 32) := by
    apply ext_getElem?
    intro i
    rw [getElem?_drop, getElem?_drop]
    exact hwindow _ (.inr (Nat.le_add_right _ _))
  have hmid : ((crcBits buf).drop j).take 32 ≠ ((crcBits buf').drop j).take 32 := by
    intro heq
    refine hne (crcBits_inj hlen ?_)
    rw [← take_window_drop (crcBits buf') j 32, ← htake, ← heq, ← hdrop, take_window_drop]
  refine @Crc.feedBits_ne_of_burst _ _ crc32cPolynomial_msb 0xFFFFFFFF#32
    ((crcBits buf).take j) _ _ ((crcBits buf).drop (j + 32))
    (by rw [length_take, length_drop]; omega)
    (by rw [length_take, length_drop]; omega) hmid ?_
  rw [take_window_drop, feedBits_accepted hn h, htake, hdrop, take_window_drop,
    feedBits_accepted hn h']

/-- One flipped bit of an index with one entry. -/
theorem zarrShardIndexParse_burst_flipped :
    DifferWithin32 (encodeShardIndex [⟨0, 100⟩]) ((encodeShardIndex [⟨0, 100⟩]).set 15 0x80) ∧
      zarrShardIndexParse (some ((encodeShardIndex [⟨0, 100⟩]).set 15 0x80)) 1 true = none := by
  have hburst : DifferWithin32 (encodeShardIndex [⟨0, 100⟩])
      ((encodeShardIndex [⟨0, 100⟩]).set 15 0x80) := by
    have hinside : ∀ i < 160, (crcBits (encodeShardIndex [⟨0, 100⟩]))[i]? ≠
        (crcBits ((encodeShardIndex [⟨0, 100⟩]).set 15 0x80))[i]? → 120 ≤ i ∧ i < 120 + 32 := by
      decide +kernel
    refine ⟨120, fun i hi => ?_⟩
    rcases Nat.lt_or_ge i 160 with hlt | hge
    · exact hinside i hlt hi
    · rw [getElem?_eq_none (by rwa [length_crcBits]),
        getElem?_eq_none (by rwa [length_crcBits, length_set])] at hi
      exact absurd rfl hi
  have haccepted : zarrShardIndexParse (some (encodeShardIndex [⟨0, 100⟩])) 1 true =
      some [⟨0, 100⟩] := by decide +kernel
  exact ⟨hburst, zarrShardIndexParse_burst (by decide) haccepted (by simp) (by decide +kernel) hburst⟩

end Damacy

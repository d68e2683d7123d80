import Damacy.Zarr.Describe

/-!
# Which codec pipelines are accepted

`Supported` states the pipelines that the reader can apply: the chain of an array is one sharding
codec, or `bytes` and a compressor at most; the same holds inside a shard, and the index of a shard
is stored with `bytes` and `crc32c`. `parse_inner_codec` returns at the first compressor, the sharding
codec is found wherever it stands, and `index_codecs` and `endian` are never read: an accepted
document is supported exactly when there is nothing in the places that the parser does not look at
(`ignoresNothing`).
-/

open List JsonText

namespace Damacy

/-! ## Supported pipelines -/

/-- Whether a value is an object whose configuration has a text under a key. -/
def Value.configuredAs (v : Value) (key text : CString) : Bool :=
  (Value.getPath v [cstr "configuration", key]).any fun w => Value.isText w text

/-- Whether the elements of a data type can be read in the order that a `bytes` codec leaves. -/
def littleEndian (dtype : Dtype) (v : Value) : Bool :=
  dtypeBpe dtype = 1 || Value.configuredAs v (cstr "endian") (cstr "little")

def isBytes (v : Value) : Bool := Value.hasName v (cstr "bytes")

def isCompressor (v : Value) : Bool :=
  Value.hasName v (cstr "zstd") ||
    (Value.hasName v (cstr "blosc") && (Value.configuredAs v (cstr "cname") (cstr "zstd") ||
      Value.configuredAs v (cstr "cname") (cstr "lz4") ||
      Value.configuredAs v (cstr "cname") (cstr "lz4hc")))

def SupportedChain (dtype : Dtype) (chain : List Value) : Prop :=
  ∃ bytes compressor, chain = bytes ++ compressor ∧ bytes.length ≤ 1 ∧ compressor.length ≤ 1 ∧
    (∀ c ∈ bytes, isBytes c = true ∧ littleEndian dtype c = true) ∧
    ∀ c ∈ compressor, isCompressor c = true

def supportedIndex (sharding : Value) : Bool :=
  ((Value.getPath sharding [cstr "configuration", cstr "index_codecs"]).bind Value.elems).any
    fun chain =>
      match chain with
      | [b, c] => isBytes b && littleEndian .u64 b && Value.hasName c (cstr "crc32c")
      | _ => false

def isSharding (v : Value) : Bool := Value.hasName v (cstr "sharding_indexed")

def innerChain (sharding : Value) : Option (List Value) :=
  (Value.getPath sharding [cstr "configuration", cstr "codecs"]).bind Value.elems

def topChain (v : Value) : Option (List Value) := (Value.get v (cstr "codecs")).bind Value.elems

def Supported (dtype : Dtype) (v : Value) : Prop :=
  ∃ chain, topChain v = some chain ∧
    (SupportedChain dtype chain ∨
      ∃ sharding inner, chain = [sharding] ∧ isSharding sharding = true ∧
        innerChain sharding = some inner ∧ SupportedChain dtype inner ∧
        supportedIndex sharding = true)

/-- There is one `bytes` codec at most, it is little-endian where that matters, and nothing follows
the codec after it. -/
def chainIgnoresNothing (dtype : Dtype) (chain : List Value) : Bool :=
  (chain.takeWhile isBytes).length ≤ 1 && (chain.takeWhile isBytes).all (littleEndian dtype) &&
    (chain.dropWhile isBytes).length ≤ 1

def ignoresNothing (dtype : Dtype) (v : Value) : Bool :=
  (topChain v).any fun chain =>
    match chain.find? isSharding with
    | none => chainIgnoresNothing dtype chain
    | some sharding => chain.length = 1 && supportedIndex sharding &&
      (innerChain sharding).any (chainIgnoresNothing dtype)

/-! ## Chains -/

variable {dtype : Dtype} {chain : List Value} {c : Value}

theorem isText_inj {n : Value} {a b : CString} (ha : Value.isText n a = true)
    (hb : Value.isText n b = true) : a = b := by
  cases n with
  | null | bool b | number n | array gap elems | object gap members => cases ha
  | string s =>
    simp only [Value.isText, Bool.and_eq_true, decide_eq_true_eq] at ha hb
    exact ha.2.symm.trans hb.2

theorem hasName_inj {a b : CString} (ha : Value.hasName c a = true) (hb : Value.hasName c b = true) :
    a = b := by
  rw [Value.hasName] at ha hb
  cases hget : Value.get c (cstr "name") with
  | none =>
    rw [hget] at ha
    cases ha
  | some n =>
    rw [hget, Option.any_some] at ha hb
    exact isText_inj ha hb

theorem isBytes_of_isCompressor (h : isCompressor c = true) : isBytes c = false := by
  rw [← Bool.not_eq_true]
  intro hbytes
  simp only [isCompressor, Bool.or_eq_true, Bool.and_eq_true] at h
  rcases h with h | ⟨h, -⟩ <;> exact absurd (hasName_inj hbytes h) (by decide)

theorem isSharding_of_isBytes (h : isBytes c = true) : isSharding c = false := by
  rw [← Bool.not_eq_true]
  exact fun hsharding => absurd (hasName_inj h hsharding) (by decide)

theorem isSharding_of_isCompressor (h : isCompressor c = true) : isSharding c = false := by
  rw [← Bool.not_eq_true]
  intro hsharding
  simp only [isCompressor, Bool.or_eq_true, Bool.and_eq_true] at h
  rcases h with h | ⟨h, -⟩ <;> exact absurd (hasName_inj hsharding h) (by decide)

theorem isCompressor_of_bloscCodec {codec : Codec} (hname : Value.hasName c (cstr "blosc") = true)
    (h : bloscCodec c = some codec) : isCompressor c = true := by
  rw [bloscCodec] at h
  simp only [isCompressor, hname, Value.configuredAs, Bool.true_and, Bool.or_eq_true]
  cases hget : Value.getPath c [cstr "configuration", cstr "cname"] with
  | none =>
    rw [hget] at h
    cases h
  | some cname =>
    simp only [hget, Option.bind_eq_bind, Option.bind_some] at h
    simp only [Option.any_some]
    split at h
    · rename_i hlz4
      rw [Bool.or_eq_true] at hlz4
      tauto
    · split at h
      · tauto
      · cases h

theorem isCompressor_of_chainCodec {codec : Codec} (h : chainCodec chain = some codec) :
    ∀ c ∈ (chain.dropWhile isBytes).head?, isCompressor c = true := by
  induction chain with
  | nil => exact fun c hc => nomatch hc
  | cons v chain ih =>
    rw [chainCodec] at h
    cases hget : Value.get v (cstr "name") with
    | none =>
      rw [hget] at h
      cases h
    | some name =>
      have hname : ∀ text, Value.hasName v text = Value.isText name text := fun text => by
        rw [Value.hasName, hget, Option.any_some]
      simp only [hget, Option.bind_eq_bind, Option.bind_some, ← hname] at h
      rw [dropWhile_cons, isBytes]
      by_cases hbytes : Value.hasName v (cstr "bytes") = true
      · rw [if_pos hbytes] at h ⊢
        exact ih h
      · rw [if_neg hbytes] at h ⊢
        intro c hc
        obtain rfl : v = c := Option.some.inj hc
        split at h
        · rename_i hzstd
          rw [isCompressor, hzstd, Bool.true_or]
        · split at h
          · rename_i hblosc
            exact isCompressor_of_bloscCodec hblosc h
          · cases h

theorem supportedChain_iff {codec : Codec} (h : chainCodec chain = some codec) :
    SupportedChain dtype chain ↔ chainIgnoresNothing dtype chain = true := by
  simp only [chainIgnoresNothing, Bool.and_eq_true, decide_eq_true_eq, all_eq_true]
  constructor
  · rintro ⟨bytes, compressor, rfl, hbytes, hcompressor, hallBytes, hallCompressor⟩
    have hstop : compressor.takeWhile isBytes = [] ∧ compressor.dropWhile isBytes = compressor := by
      cases compressor with
      | nil => exact ⟨rfl, rfl⟩
      | cons v compressor =>
        have hv := isBytes_of_isCompressor (hallCompressor v mem_cons_self)
        rw [takeWhile_cons, dropWhile_cons, hv]
        exact ⟨rfl, rfl⟩
    have hall : ∀ c ∈ bytes, isBytes c = true := fun c hc => (hallBytes c hc).1
    rw [takeWhile_append_of_pos hall, dropWhile_append_of_pos hall, hstop.1, hstop.2,
      append_nil]
    exact ⟨⟨hbytes, fun c hc => (hallBytes c hc).2⟩, hcompressor⟩
  · rintro ⟨⟨hbytes, hlittle⟩, hrest⟩
    refine ⟨_, _, takeWhile_append_dropWhile.symm, hbytes, hrest, fun c hc => ?_, fun c hc => ?_⟩
    · exact ⟨mem_takeWhile_imp hc, hlittle c hc⟩
    · -- the rest is empty or the compressor alone
      refine isCompressor_of_chainCodec h c ?_
      generalize chain.dropWhile isBytes = rest at hrest hc
      cases rest with
      | nil => cases hc
      | cons v rest =>
        rw [length_cons] at hrest
        obtain rfl : rest = [] := length_eq_zero_iff.mp (by omega)
        rw [mem_singleton.mp hc]
        exact rfl

/-! ## Documents -/

theorem SupportedChain.find_sharding (h : SupportedChain dtype chain) :
    chain.find? isSharding = none := by
  obtain ⟨bytes, compressor, rfl, -, -, hbytes, hcompressor⟩ := h
  rw [find?_eq_none]
  intro c hc
  rw [Bool.not_eq_true]
  rcases mem_append.mp hc with hc | hc
  · exact isSharding_of_isBytes (hbytes c hc).1
  · exact isSharding_of_isCompressor (hcompressor c hc)

theorem readSharding_some {sharding : Value} {rank : ℕ} {codec : ChunkCodec}
    (h : readSharding sharding rank = some codec) :
    ∃ inner, innerChain sharding = some inner ∧ chainCodec inner = some codec.innerCodec := by
  rw [readSharding] at h
  simp only [Option.bind_eq_bind, Option.bind_eq_some_iff] at h
  obtain ⟨_, -, _, -, _, -, codecs, hcodecs, inner, hinner, innerCodec, hcodec, heq⟩ := h
  obtain rfl := Option.some.inj heq
  exact ⟨inner, by rw [innerChain, hcodecs, Option.bind_some, hinner], hcodec⟩

theorem readChunkCodec_some {v : Value} {shardShape : List ℕ} {codec : ChunkCodec}
    (h : readChunkCodec v shardShape = some codec) :
    ∃ chain, topChain v = some chain ∧
      match chain.find? isSharding with
      | none => chainCodec chain = some codec.innerCodec
      | some sharding => ∃ inner, innerChain sharding = some inner ∧
        chainCodec inner = some codec.innerCodec := by
  rw [readChunkCodec] at h
  simp only [Option.bind_eq_bind, Option.bind_eq_some_iff] at h
  obtain ⟨codecs, hcodecs, chain, hchain, h⟩ := h
  refine ⟨chain, by rw [topChain, hcodecs, Option.bind_some, hchain], ?_⟩
  rw [show (fun c => Value.hasName c (cstr "sharding_indexed")) = isSharding from rfl] at h
  cases hfind : chain.find? isSharding with
  | none =>
    rw [hfind] at h
    obtain ⟨innerCodec, hcodec, rfl⟩ := Option.map_eq_some_iff.mp h
    exact hcodec
  | some sharding =>
    rw [hfind] at h
    exact readSharding_some h

theorem readArray_codecs {ops : DoubleOps} {v : Value} {m : ParsedMetadata}
    (h : readArray ops v = some m) :
    ∃ shardShape codec, readChunkCodec v shardShape = some codec := by
  rw [readArray] at h
  simp only [Option.bind_eq_bind, Option.bind_eq_some_iff] at h
  obtain ⟨_, -, _, -, _, -, _, -, _, -, _, -, _, -, _, -, _, -, _, -, shardShape, -, _, -, codec,
    hcodec, -⟩ := h
  exact ⟨shardShape, codec, hcodec⟩

theorem supported_iff_of_readArray {ops : DoubleOps} {v : Value} {m : ParsedMetadata}
    (h : readArray ops v = some m) (dtype : Dtype) :
    Supported dtype v ↔ ignoresNothing dtype v = true := by
  obtain ⟨shardShape, codec, hcodec⟩ := readArray_codecs h
  obtain ⟨chain, hchain, hread⟩ := readChunkCodec_some hcodec
  simp only [Supported, ignoresNothing, hchain, Option.any_some, Option.some.injEq, exists_eq_left']
  cases hfind : chain.find? isSharding with
  | none =>
    rw [hfind] at hread
    dsimp only
    rw [← supportedChain_iff hread]
    refine or_iff_left ?_
    rintro ⟨sharding, inner, rfl, hsharding, -⟩
    exact find?_eq_none.mp hfind sharding mem_cons_self hsharding
  | some sharding =>
    rw [hfind] at hread
    obtain ⟨inner, hinner, hread⟩ := hread
    simp only [hinner, Option.any_some, Bool.and_eq_true, decide_eq_true_eq,
      ← supportedChain_iff hread]
    constructor
    · rintro (hplain | ⟨other, inner', rfl, hother, hinner', hsupported, hindex⟩)
      · rw [hplain.find_sharding] at hfind
        cases hfind
      · rw [find?_cons, hother] at hfind
        obtain rfl := Option.some.inj hfind
        obtain rfl := Option.some.inj (hinner.symm.trans hinner')
        exact ⟨⟨rfl, hindex⟩, hsupported⟩
    · rintro ⟨⟨hone, hindex⟩, hsupported⟩
      obtain ⟨only, rfl⟩ := length_eq_one_iff.mp hone
      have hmem := mem_singleton.mp (mem_of_find?_eq_some hfind)
      subst hmem
      have hsharding := find?_some hfind
      exact .inr ⟨sharding, inner, rfl, hsharding, hinner, hsupported, hindex⟩

/-- **An accepted document has only codecs that the reader applies exactly when there is nothing in
the places that the parser does not look at.** -/
theorem zarrMetadataParse_supported_iff {ops : DoubleOps} {v : Value} {src : List UInt8}
    {m : ParsedMetadata} (h : Document v src) (haccept : zarrMetadataParse ops src = some m) :
    Supported m.dtype v ↔ ignoresNothing m.dtype v = true := by
  rw [zarrMetadataParse_eq_readArray ops h] at haccept
  exact supported_iff_of_readArray haccept m.dtype

theorem zarrMetadataParse_supported_iff_sample :
    (∀ ops, zarrMetadataParse ops (sampleDocument (plainBody "uint8") sampleCodecs).render =
      some sampleArray.metadata) ∧
      Supported .u8 (sampleDocument (plainBody "uint8") sampleCodecs) := by
  have haccept : ∀ ops, zarrMetadataParse ops
      (sampleDocument (plainBody "uint8") sampleCodecs).render = some sampleArray.metadata := by
    intro ops
    rw [zarrMetadataParse_eq_readArray ops (document_render _)]
    rfl
  refine ⟨haccept, ?_⟩
  have hiff := zarrMetadataParse_supported_iff (document_render _)
    (haccept ⟨fun _ => none, id, 0, 0, id⟩)
  exact hiff.mpr (by decide)

def checkedCodecs : List Value := sampleCodecs ++ [plainObject [("name", plainString "crc32c")]]

/-- **A `crc32c` codec behind the compressor is ignored**: the document is accepted. -/
theorem zarrMetadataParse_checkedCodecs :
    (∀ ops, zarrMetadataParse ops (sampleDocument (plainBody "uint8") checkedCodecs).render =
      some sampleArray.metadata) ∧
      ¬ Supported .u8 (sampleDocument (plainBody "uint8") checkedCodecs) := by
  have hread : ∀ ops, readArray ops (sampleDocument (plainBody "uint8") checkedCodecs) =
      some sampleArray.metadata := fun _ => rfl
  refine ⟨fun ops => ?_, ?_⟩
  · rw [zarrMetadataParse_eq_readArray ops (document_render _), hread]
  · rw [supported_iff_of_readArray (hread ⟨fun _ => none, id, 0, 0, id⟩)]
    decide

end Damacy

import Damacy.Zarr.CodecSupport

/-!
# Chunk keys and missing shards (`prefetch/shard_index.c`)

A `zarr.json` says under which key a chunk of the grid is stored: `chunk_key_encoding` has a name,
`default` or `v2`, and a separator. The parser does not read it, and `zarr_shard_path_build` always
writes the keys of the default encoding with `/`. A shard whose file is not found under that path is
taken to be absent, and its elements become the fill value.
-/

open List JsonText

namespace Damacy

/-! ## Chunk keys -/

inductive KeyEncodingName
  | default | v2
deriving DecidableEq

inductive KeySeparator
  | slash | dot
deriving DecidableEq

/-- A `chunk_key_encoding`. -/
structure ChunkKeyEncoding where
  name : KeyEncodingName
  separator : KeySeparator
deriving DecidableEq

/-- The texts in a document. -/
def KeyEncodingName.text : KeyEncodingName → CString
  | default => cstr "default"
  | v2 => cstr "v2"

@[inherit_doc KeyEncodingName.text]
def KeySeparator.text : KeySeparator → CString
  | slash => cstr "/"
  | dot => cstr "."

def KeySeparator.byte : KeySeparator → UInt8
  | slash => 0x2F
  | dot => 0x2E

def KeyEncodingName.defaultSeparator : KeyEncodingName → KeySeparator
  | default => .slash
  | v2 => .dot

def separated (sep : UInt8) (coord : List ℕ) : CString := coord.flatMap fun c => sep :: decimal c

def ChunkKeyEncoding.key (encoding : ChunkKeyEncoding) (coord : List ℕ) : CString :=
  match encoding.name, coord with
  | .default, coord => 0x63 :: separated encoding.separator.byte coord
  | .v2, [] => cstr "0"
  | .v2, c :: coord => decimal c ++ separated encoding.separator.byte coord

def Value.Says (v : Value) (text : CString) : Prop := ∃ s, v = .string s ∧ Spells s text

def HasKeyEncoding (v : Value) (encoding : ChunkKeyEncoding) : Prop :=
  ∃ e name, Value.get v (cstr "chunk_key_encoding") = some e ∧
    Value.get e (cstr "name") = some name ∧ Value.Says name encoding.name.text ∧
    match Value.getPath e [cstr "configuration", cstr "separator"] with
    | some sep => Value.Says sep encoding.separator.text
    | none => encoding.separator = encoding.name.defaultSeparator

/-! ## Paths and shards -/

/-- `enum store_stat_result`, with the size of the file. -/
inductive StoreStat
  | ok (fileNBytes : ℕ)
  | notFound
  | error
deriving DecidableEq

/-- What `shard_index_stat_done` does next. -/
inductive StatDone
  | error (status : Status)
  | entries (entries : List ShardEntry)
  | readFooter (offset nbytes : ℕ)
deriving DecidableEq

def zarrShardIndexSize (nEntries : ℕ) : ℕ := u64 (nEntries * 16 + 4)

/-- `shard_index_stat_done`, with the outcome of the allocation. -/
def shardIndexStatDone (metadata : ParsedMetadata) (nInnerPerShard : ℕ) (allocated : Bool) :
    StoreStat → StatDone
  | .notFound => .error .notfound
  | .error => .error .io
  | .ok fileNBytes =>
    if fileNBytes = 0 then .error .decode
    else if !allocated then .error .oom
    else if !metadata.sharded then
      .entries (⟨0, fileNBytes⟩ :: List.replicate (nInnerPerShard - 1) ⟨0, 0⟩)
    else if fileNBytes < zarrShardIndexSize nInnerPerShard then .error .decode
    else
      .readFooter
        (if metadata.indexLocationEnd then fileNBytes - zarrShardIndexSize nInnerPerShard else 0)
        (zarrShardIndexSize nInnerPerShard)

section

variable (metadata : ParsedMetadata) (nInnerPerShard : ℕ) (allocated : Bool)
  (stat : CString → StoreStat)

/-- The planner takes a shard as missing (`prepared_plan_build`). -/
def shardMissing (uri : CString) (coord : List ℕ) : Bool :=
  shardIndexStatDone metadata nInnerPerShard allocated (stat (zarrShardPathBuild uri coord)) =
    .error .notfound

def hasChunk (uri : CString) (encoding : ChunkKeyEncoding) (coord : List ℕ) : Prop :=
  stat (strbufJoinPath uri (encoding.key coord)) ≠ .notFound

theorem shardMissing_iff (uri : CString) (coord : List ℕ) :
    shardMissing metadata nInnerPerShard allocated stat uri coord = true ↔
      stat (zarrShardPathBuild uri coord) = .notFound := by
  rw [shardMissing, decide_eq_true_eq]
  cases stat (zarrShardPathBuild uri coord) with
  | notFound => simp [shardIndexStatDone]
  | error => simp [shardIndexStatDone]
  | ok n =>
    simp only [shardIndexStatDone, reduceCtorEq, iff_false]
    split_ifs <;> simp

end

theorem separated_length (sep sep' : UInt8) (coord : List ℕ) :
    (separated sep coord).length = (separated sep' coord).length := by
  simp [separated, length_flatMap]

theorem zarrShardPathBuild_eq (uri : CString) (coord : List ℕ) :
    zarrShardPathBuild uri coord = strbufJoinPath uri (0x63 :: separated slash coord) := by
  rw [zarrShardPathBuild, joinPathC, strbufJoinPath, strbufJoinPath, separated]
  split_ifs <;> simp

theorem strbufJoinPath_inj (uri a b : CString) :
    strbufJoinPath uri a = strbufJoinPath uri b ↔ a = b := by
  rw [strbufJoinPath, strbufJoinPath]
  split_ifs <;> simp

theorem key_eq_iff (encoding : ChunkKeyEncoding) {coord : List ℕ} (hcoord : coord ≠ []) :
    0x63 :: separated slash coord = encoding.key coord ↔ encoding = ⟨.default, .slash⟩ := by
  obtain ⟨name, separator⟩ := encoding
  obtain ⟨c, coord, rfl⟩ := exists_cons_of_ne_nil hcoord
  cases name with
  | default =>
    cases separator with
    | slash => exact iff_of_true rfl rfl
    | dot =>
      refine iff_of_false (fun h => ?_) (by decide)
      have hbyte := congrArg (fun l => l[1]?) h
      exact absurd hbyte (by simp [ChunkKeyEncoding.key, separated, slash, KeySeparator.byte])
  | v2 =>
    refine iff_of_false (fun h => ?_) (by simp)
    have hlen := congrArg List.length h
    have hrest := separated_length slash separator.byte coord
    simp only [ChunkKeyEncoding.key, separated, flatMap_cons, length_cons,
      length_append] at hlen hrest
    omega

/-! ## The rank of an accepted document -/

theorem readUints_length {v : Value} {ns : List ℕ} (h : readUints v = some ns) : 0 < ns.length := by
  rw [readUints] at h
  simp only [Option.bind_eq_bind, Option.bind_eq_some_iff] at h
  obtain ⟨_, -, ns', -, h⟩ := h
  split at h
  · rename_i hlen
    obtain rfl := Option.some.inj h
    exact hlen.1
  · cases h

theorem zarrDims_length {shape inner shard : List ℕ} (hinner : inner.length = shape.length)
    (hshard : shard.length = shape.length) : (zarrDims shape inner shard).length = shape.length := by
  induction shape generalizing inner shard with
  | nil => rfl
  | cons n shape ih =>
    obtain ⟨c, inner, rfl⟩ := exists_cons_of_length_eq_add_one hinner
    obtain ⟨s, shard, rfl⟩ := exists_cons_of_length_eq_add_one hshard
    simp only [length_cons, Nat.add_right_cancel_iff] at hinner hshard
    rw [zarrDims, length_cons, ih hinner hshard, length_cons]

theorem readChunkCodec_length {v : Value} {shardShape : List ℕ} {codec : ChunkCodec}
    (h : readChunkCodec v shardShape = some codec) :
    codec.innerChunkShape.length = shardShape.length := by
  rw [readChunkCodec] at h
  simp only [Option.bind_eq_bind, Option.bind_eq_some_iff] at h
  obtain ⟨_, -, chain, -, h⟩ := h
  split at h
  · rw [readSharding] at h
    simp only [Option.bind_eq_bind, Option.bind_eq_some_iff] at h
    obtain ⟨_, -, inner, -, _, hguard, _, -, _, -, _, -, heq⟩ := h
    obtain rfl := Option.some.inj heq
    simpa using hguard
  · obtain ⟨_, -, rfl⟩ := Option.map_eq_some_iff.mp h
    rfl

theorem readArray_rank {ops : DoubleOps} {v : Value} {m : ParsedMetadata}
    (h : readArray ops v = some m) : 0 < m.dims.length := by
  rw [readArray] at h
  simp only [Option.bind_eq_bind, Option.bind_eq_some_iff] at h
  obtain ⟨_, -, _, -, _, -, _, -, _, -, shape, hshape, _, -, _, -, _, -, _, -, shardShape, -, _, hrank,
    codec, hcodec, _, -, heq⟩ := h
  obtain rfl := Option.some.inj heq
  have hshard : shardShape.length = shape.length := by simpa using hrank
  have hinner := (readChunkCodec_length hcodec).trans hshard
  rw [zarrDims_length hinner hshard]
  exact readUints_length hshape

/-! ## The result -/

/-- **The path of a shard is that of its chunk key, and a shard that is taken as missing is not in
the array, exactly when the document has the default encoding with `/`.** -/
theorem zarrShardPathBuild_key_iff {ops : DoubleOps} {v : Value} {src : List UInt8}
    {m : ParsedMetadata} {encoding : ChunkKeyEncoding} (h : Document v src)
    (haccept : zarrMetadataParse ops src = some m) (_hencoding : HasKeyEncoding v encoding)
    (uri : CString) {coord : List ℕ} (hcoord : coord.length = m.dims.length) (nInnerPerShard : ℕ)
    (allocated : Bool) :
    (zarrShardPathBuild uri coord = strbufJoinPath uri (encoding.key coord) ∧
      ∀ stat, shardMissing m nInnerPerShard allocated stat uri coord = true →
        ¬ hasChunk stat uri encoding coord) ↔ encoding = ⟨.default, .slash⟩ := by
  rw [zarrMetadataParse_eq_readArray ops h] at haccept
  have hne : coord ≠ [] := ne_nil_of_length_pos (hcoord ▸ readArray_rank haccept)
  rw [zarrShardPathBuild_eq, strbufJoinPath_inj, key_eq_iff encoding hne, and_iff_left_iff_imp]
  intro hdefault stat hmissing hchunk
  rw [shardMissing_iff, zarrShardPathBuild_eq, (key_eq_iff encoding hne).mpr hdefault] at hmissing
  exact hchunk hmissing

def keyedDocument (name separator : String) : Value :=
  plainObject (sampleMembers (plainBody "uint8") sampleCodecs ++
    [("chunk_key_encoding", plainObject [("name", plainString name),
      ("configuration", plainObject [("separator", plainString separator)])])])

theorem hasKeyEncoding_keyedDocument :
    HasKeyEncoding (keyedDocument "default" "/") ⟨.default, .slash⟩ ∧
      HasKeyEncoding (keyedDocument "default" ".") ⟨.default, .dot⟩ := by
  have hsays : ∀ text : String, (plainBody text).bytes = cstr text →
      Value.Says (plainString text) (cstr text) := fun text h =>
    ⟨plainBody text, rfl, h ▸ spells_plain _ (plainBody_escaped text)⟩
  constructor
  · exact ⟨_, _, rfl, rfl, hsays "default" (by decide), hsays "/" (by decide)⟩
  · exact ⟨_, _, rfl, rfl, hsays "default" (by decide), hsays "." (by decide)⟩

theorem zarrMetadataParse_keyedDocument (ops : DoubleOps) :
    zarrMetadataParse ops (keyedDocument "default" "/").render = some sampleArray.metadata ∧
      zarrMetadataParse ops (keyedDocument "default" ".").render = some sampleArray.metadata := by
  constructor <;> rw [zarrMetadataParse_eq_readArray ops (document_render _)] <;> rfl

theorem zarrShardPathBuild_key_iff_slash :
    zarrShardPathBuild (cstr "a") [1] =
      strbufJoinPath (cstr "a") (ChunkKeyEncoding.key ⟨.default, .slash⟩ [1]) := by
  have hrank : [1].length = sampleArray.metadata.dims.length := rfl
  have hiff := zarrShardPathBuild_key_iff (document_render _)
    (zarrMetadataParse_keyedDocument ⟨fun _ => none, id, 0, 0, id⟩).1
    hasKeyEncoding_keyedDocument.1 (cstr "a") hrank 1 true
  exact (hiff.mpr rfl).1

/-- **A chunk stored under `a/c.1` is taken as missing**: the path is `a/c/1` although the document
has the separator `.`. -/
theorem zarrShardPathBuild_dot :
    HasKeyEncoding (keyedDocument "default" ".") ⟨.default, .dot⟩ ∧
      (∀ ops, zarrMetadataParse ops (keyedDocument "default" ".").render =
        some sampleArray.metadata) ∧
      (let stat := fun path => if path = cstr "a/c.1" then .ok 2 else .notFound
      shardMissing sampleArray.metadata 1 true stat (cstr "a") [1] = true ∧
        hasChunk stat (cstr "a") ⟨.default, .dot⟩ [1]) := by
  refine ⟨hasKeyEncoding_keyedDocument.2, fun ops => (zarrMetadataParse_keyedDocument ops).2, ?_⟩
  exact ⟨by decide, by rw [hasChunk]; decide⟩

end Damacy

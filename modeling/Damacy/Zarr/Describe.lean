import Damacy.Zarr.Document
import Damacy.Lib.JsonString

/-!
# Documents that describe an array

`Describes` says when a JSON value describes an array: it has the members that a `zarr.json` needs,
each exactly once and under a plainly written key, in any order and among any others. How its strings
may be written is a parameter: with escapes (`Spells`) or without (`PlainText`). The reader compares
spans of text, so it knows a name only in its plain form.
-/

open List JsonText

namespace Damacy

/-! ## Arrays -/

inductive Layout
  | chunks
  | shards (indexAtEnd : Bool)
deriving DecidableEq

def Dtype.InRange (dtype : Dtype) (z : ℤ) : Prop :=
  if dtype.isSigned then -(2 : ℤ) ^ (8 * dtypeBpe dtype - 1) ≤ z ∧ z < 2 ^ (8 * dtypeBpe dtype - 1)
  else dtype.isUnsigned = true ∧ 0 ≤ z ∧ z < 2 ^ (8 * dtypeBpe dtype)

/-- An array that the reader supports, with elements of an integer type. -/
structure ArrayDescription where
  dtype : Dtype
  fill : ℤ
  fill_inRange : dtype.InRange fill
  dims : List ZarrDim
  rank_pos : 0 < dims.length
  rank_le : dims.length ≤ maxRank
  divides : ∀ d ∈ dims, 0 < d.innerChunkShape ∧ d.innerChunkShape ∣ d.shardShape
  codec : Codec
  codec_ne_fill : codec ≠ .fill
  layout : Layout
  unsharded : layout = .chunks → ∀ d ∈ dims, d.innerChunkShape = d.shardShape

def ArrayDescription.metadata (a : ArrayDescription) : ParsedMetadata where
  dtype := a.dtype
  dims := a.dims
  innerCodec := a.codec
  fillValue := patternOf (8 * dtypeBpe a.dtype) a.fill
  sharded := a.layout ≠ .chunks
  indexLocationEnd := a.layout ≠ .shards false

def zarrDtypeName : Dtype → CString
  | .u8 => cstr "uint8"
  | .u16 => cstr "uint16"
  | .u32 => cstr "uint32"
  | .u64 => cstr "uint64"
  | .i8 => cstr "int8"
  | .i16 => cstr "int16"
  | .i32 => cstr "int32"
  | .i64 => cstr "int64"
  | .f16 => cstr "float16"
  | .f32 => cstr "float32"
  | .f64 => cstr "float64"

/-! ## Texts -/

def PlainText (s : StringBody) (text : CString) : Prop := s.escaped = false ∧ s.bytes = text

/-- A string with an ASCII text, with or without escapes. -/
inductive Spells : StringBody → CString → Prop
  | nil : Spells [] []
  | plain {b : UInt8} {ge : 0x20 ≤ b} {ne_quote : b ≠ 0x22} {ne_backslash : b ≠ 0x5C}
      {s : StringBody} {text : CString} (h : Spells s text) :
      Spells (.plain b ge ne_quote ne_backslash :: s) (b :: text)
  | escape {b : UInt8} {simple : isSimpleEscape b = true} {s : StringBody} {text : CString}
      (h : Spells s text) : Spells (.escape b simple :: s) (escapeValue b :: text)
  | unicode {a b c d : UInt8} {hex : ∀ x ∈ [a, b, c, d], isHexDigit x = true} {s : StringBody}
      {text : CString} (ascii : hexCode a b c d < 0x80) (h : Spells s text) :
      Spells (.unicode a b c d hex :: s) ((hexCode a b c d).toUInt8 :: text)

structure IsInt (n : Number) (z : ℤ) : Prop where
  frac : n.frac = none
  exp : n.exp = none
  negative : n.negative = decide (z < 0)
  digits : digitsValue n.int.bytes = z.natAbs

/-! ## Documents -/

/-- The keys of an object are written without escapes, and none of them twice. -/
structure PlainKeys (members : List (Member Value)) : Prop where
  unescaped : ∀ m ∈ members, m.key.escaped = false
  nodup : (members.map fun m => m.key.bytes).Nodup

inductive Field : Value → CString → Value → Prop
  | mk {gap : Ws} {members : List (Member Value)} {m : Member Value} (keys : PlainKeys members)
      (mem : m ∈ members) : Field (.object gap members) m.key.bytes m.value

/-- An object with plain keys has no member with a key. -/
inductive NoField : Value → CString → Prop
  | mk {gap : Ws} {members : List (Member Value)} {key : CString} (keys : PlainKeys members)
      (absent : ∀ m ∈ members, m.key.bytes ≠ key) : NoField (.object gap members) key

inductive Extents : Value → List ℕ → Prop
  | mk {gap : Ws} {elems : List (Padded Value)} {ns : List ℕ}
      (h : List.Forall₂ (fun e n => ∃ num, e.value = .number num ∧ IsInt num (n : ℕ)) elems ns) :
      Extents (.array gap elems) ns

section

-- how a string writes a text
variable (spells : StringBody → CString → Prop)

def TextField (v : Value) (key text : CString) : Prop :=
  ∃ s, Field v key (.string s) ∧ spells s text

def BloscEntry (v : Value) (cname : CString) : Prop :=
  TextField spells v (cstr "name") (cstr "blosc") ∧
    ∃ configuration, Field v (cstr "configuration") configuration ∧
      TextField spells configuration (cstr "cname") cname

def CompressorEntries : Codec → List Value → Prop
  | .none, entries => entries = []
  | .zstd, entries => ∃ v, entries = [v] ∧ TextField spells v (cstr "name") (cstr "zstd")
  | .bloscZstd, entries => ∃ v, entries = [v] ∧ BloscEntry spells v (cstr "zstd")
  | .bloscLz4, entries =>
    ∃ v, entries = [v] ∧ (BloscEntry spells v (cstr "lz4") ∨ BloscEntry spells v (cstr "lz4hc"))
  | .fill, _ => False

def ChainEntries (codec : Codec) (entries : List Value) : Prop :=
  ∃ bytes compressor, entries = bytes ++ compressor ∧ bytes.length ≤ 1 ∧
    (∀ v ∈ bytes, TextField spells v (cstr "name") (cstr "bytes")) ∧
    CompressorEntries spells codec compressor

def ChainField (v : Value) (codec : Codec) : Prop :=
  ∃ gap elems, Field v (cstr "codecs") (.array gap elems) ∧
    ChainEntries spells codec (elems.map Padded.value)

/-- The place of a shard's index; it is the end unless something else is said. -/
def IndexLocationField (v : Value) (indexAtEnd : Bool) : Prop :=
  if indexAtEnd then
    TextField spells v (cstr "index_location") (cstr "end") ∨ NoField v (cstr "index_location")
  else TextField spells v (cstr "index_location") (cstr "start")

def ShardingEntry (a : ArrayDescription) (indexAtEnd : Bool) (v : Value) : Prop :=
  TextField spells v (cstr "name") (cstr "sharding_indexed") ∧
    ∃ configuration, Field v (cstr "configuration") configuration ∧
      (∃ w, Field configuration (cstr "chunk_shape") w ∧
        Extents w (a.dims.map ZarrDim.innerChunkShape)) ∧
      ChainField spells configuration a.codec ∧ IndexLocationField spells configuration indexAtEnd

structure Describes (a : ArrayDescription) (v : Value) : Prop where
  nodeType : TextField spells v (cstr "node_type") (cstr "array")
  zarrFormat : ∃ n, Field v (cstr "zarr_format") (.number n) ∧ IsInt n 3
  shape : ∃ w, Field v (cstr "shape") w ∧ Extents w (a.dims.map ZarrDim.shape)
  dataType : TextField spells v (cstr "data_type") (zarrDtypeName a.dtype)
  fillValue : ∃ n, Field v (cstr "fill_value") (.number n) ∧ IsInt n a.fill
  chunkGrid : ∃ grid configuration w, Field v (cstr "chunk_grid") grid ∧
    Field grid (cstr "configuration") configuration ∧
    Field configuration (cstr "chunk_shape") w ∧ Extents w (a.dims.map ZarrDim.shardShape)
  codecs : match a.layout with
    | .chunks => ChainField spells v a.codec
    | .shards indexAtEnd => ∃ gap e, Field v (cstr "codecs") (.array gap [e]) ∧
      ShardingEntry spells a indexAtEnd e.value

end

/-! ## Members -/

theorem memberHasKey_iff {members : List (Member Value)} (keys : PlainKeys members)
    {m : Member Value} (hm : m ∈ members) (key : CString) :
    memberHasKey key m = true ↔ m.key.bytes = key := by
  rw [memberHasKey, keys.unescaped m hm]
  simp

theorem find_member {members : List (Member Value)} (keys : PlainKeys members) {m : Member Value}
    (hm : m ∈ members) : members.find? (memberHasKey m.key.bytes) = some m := by
  rw [find?_eq_some_iff_append]
  refine ⟨(memberHasKey_iff keys hm _).mpr rfl, ?_⟩
  obtain ⟨before, after, rfl⟩ := append_of_mem hm
  refine ⟨before, after, rfl, fun x hx => ?_⟩
  rw [Bool.not_eq_true', ← Bool.not_eq_true,
    memberHasKey_iff keys (mem_append_left _ hx)]
  -- a member with the same key before it would be there twice
  intro heq
  have hnodup := keys.nodup
  rw [map_append, map_cons, nodup_append] at hnodup
  exact hnodup.2.2 _ (mem_map_of_mem hx) _ mem_cons_self heq

theorem Field.get {v w : Value} {key : CString} (h : Field v key w) : Value.get v key = some w := by
  cases h with
  | mk keys mem => rw [Value.get, find_member keys mem, Option.map_some]

theorem NoField.get {v : Value} {key : CString} (h : NoField v key) : Value.get v key = none := by
  cases h with
  | @mk gap members key keys absent =>
    have hnone : members.find? (memberHasKey key) = none :=
      find?_eq_none.mpr fun m hm h => absent m hm ((memberHasKey_iff keys hm key).mp h)
    rw [Value.get, hnone, Option.map_none]

theorem isText_of_plain {s : StringBody} {text other : CString} (h : PlainText s text) :
    Value.isText (.string s) other = decide (text = other) := by
  rw [Value.isText, h.1, h.2]
  rfl

/-! ## Numbers -/

section

variable {n : Number} {z : ℤ}

theorem IsInt.isFloat (h : IsInt n z) : n.isFloat = false := by
  rw [Number.isFloat, h.frac, h.exp]
  rfl

theorem IsInt.intValue (h : IsInt n z) : n.intValue = z := by
  have hvalue : n.int.value = z.natAbs := h.digits
  rw [Number.intValue, h.negative, hvalue]
  by_cases hz : z < 0
  · rw [if_pos (decide_eq_true hz)]
    omega
  · rw [if_neg (by simpa using hz)]
    omega

theorem jsonAsUint_number {k : ℕ} (h : IsInt n (k : ℤ)) (hk : k < 2 ^ 64) :
    jsonAsUint (valueNode (.number n)) = .ok k := by
  have hvalue : n.int.value = k := h.digits.trans (Int.natAbs_natCast k)
  have hneg : n.negative = false := by rw [h.negative]; simp
  rw [jsonAsUint_eq h.isFloat hneg, hvalue, if_pos hk]

theorem jsonAsInt_number (h : IsInt n z) (hlo : -2 ^ 63 ≤ z) (hhi : z < 2 ^ 63) :
    jsonAsInt (valueNode (.number n)) = .ok z := by
  rw [jsonAsInt_eq h.isFloat, h.intValue, if_pos ⟨hlo, hhi⟩]

end

/-! ## What a description is read as -/

theorem readUints_extents {v : Value} {ns : List ℕ} (h : Extents v ns) (hlt : ∀ n ∈ ns, n < 2 ^ 64)
    (hpos : 0 < ns.length) (hle : ns.length ≤ maxRank) : readUints v = some ns := by
  obtain ⟨h⟩ := h
  rename_i gap elems
  have hmap : (elems.map Padded.value).mapM (fun e => (jsonAsUint (valueNode e)).toOption) =
      some ns := by
    clear hpos hle
    induction h with
    | nil => rfl
    | @cons e n elems ns hhead htail ih =>
      obtain ⟨num, hnum, hint⟩ := hhead
      rw [forall_mem_cons] at hlt
      rw [map_cons, mapM_cons, hnum, jsonAsUint_number hint hlt.1, ih hlt.2]
      rfl
  rw [readUints, Value.elems]
  simp only [Option.bind_eq_bind, Option.bind_some, hmap]
  rw [if_pos ⟨hpos, hle⟩]

theorem TextField.get {v : Value} {key text : CString} (h : TextField PlainText v key text) :
    ∃ s, Value.get v key = some (.string s) ∧ PlainText s text := by
  obtain ⟨s, hfield, htext⟩ := h
  exact ⟨s, hfield.get, htext⟩

theorem Field.getPath {v w : Value} {key : CString} (h : Field v key w) (path : List CString) :
    Value.getPath v (key :: path) = Value.getPath w path := by
  rw [Value.getPath, h.get, Option.bind_some]

theorem dtypeFromZarrString_name (dtype : Dtype) :
    dtypeFromZarrString (zarrDtypeName dtype) = some dtype := by
  cases dtype <;> decide

theorem parseDataType_name {s : StringBody} {dtype : Dtype} (h : PlainText s (zarrDtypeName dtype)) :
    parseDataType (valueNode (.string s)) = some dtype := by
  rw [parseDataType, valueNode, h.1, h.2]
  exact dtypeFromZarrString_name dtype

theorem parseFillValue_number (ops : DoubleOps) {dtype : Dtype} {n : Number} {z : ℤ}
    (hrange : dtype.InRange z) (h : IsInt n z) :
    parseFillValue ops (valueNode (.number n)) dtype = some (patternOf (8 * dtypeBpe dtype) z) := by
  have hunsigned : 0 ≤ z → z < 2 ^ 64 →
      (jsonAsUint (valueNode (.number n))).toOption = some z.toNat := by
    intro hlo hhi
    rw [jsonAsUint_number (k := z.toNat) (by rwa [Int.toNat_of_nonneg hlo]) (by omega)]
    rfl
  have hsigned : -2 ^ 63 ≤ z → z < 2 ^ 63 →
      (jsonAsInt (valueNode (.number n))).toOption = some z := by
    intro hlo hhi
    rw [jsonAsInt_number h hlo hhi]
    rfl
  rw [Dtype.InRange] at hrange
  cases dtype with
  | u8 | u16 | u32 | u64 =>
    simp only [Dtype.isSigned, Dtype.isUnsigned, dtypeBpe, Bool.false_eq_true, if_false] at hrange
    rw [parseFillValue, hunsigned (by omega) (by omega), Option.map_some]
    simp only [packLe, patternOf, dtypeBpe, Option.some.injEq]
    omega
  | i8 | i16 | i32 | i64 =>
    simp only [Dtype.isSigned, dtypeBpe, if_true] at hrange
    rw [parseFillValue, hsigned (by omega) (by omega), Option.map_some]
    simp only [packLe, patternOf, u64OfInt, dtypeBpe, Option.some.injEq]
    omega
  | f16 | f32 | f64 =>
    simp [Dtype.isSigned, Dtype.isUnsigned] at hrange

theorem zarrDims_map (dims : List ZarrDim) :
    zarrDims (dims.map ZarrDim.shape) (dims.map ZarrDim.innerChunkShape)
      (dims.map ZarrDim.shardShape) = dims := by
  induction dims with
  | nil => rfl
  | cons d dims ih =>
    have hd : ZarrDim.of d.shape d.innerChunkShape d.shardShape = d := by
      simp only [ZarrDim.of, u64_of_lt d.shape_lt, u64_of_lt d.innerChunkShape_lt,
        u64_of_lt d.shardShape_lt]
    rw [map_cons, map_cons, map_cons, zarrDims, ih, hd]

theorem bloscCodec_entry {v : Value} {cname : CString} (h : BloscEntry PlainText v cname) :
    bloscCodec v =
      if cname = cstr "lz4" ∨ cname = cstr "lz4hc" then some .bloscLz4
      else if cname = cstr "zstd" then some .bloscZstd
      else none := by
  obtain ⟨-, configuration, hconf, hcname⟩ := h
  obtain ⟨s, hget, htext⟩ := hcname.get
  rw [bloscCodec, hconf.getPath, Value.getPath, hget]
  simp only [Option.bind_some, Value.getPath, Option.bind_eq_bind, isText_of_plain htext,
    Bool.or_eq_true, decide_eq_true_eq]

theorem chainCodec_cons {v : Value} {name : CString} (chain : List Value)
    (h : TextField PlainText v (cstr "name") name) :
    chainCodec (v :: chain) =
      if name = cstr "bytes" then chainCodec chain
      else if name = cstr "zstd" then some .zstd
      else if name = cstr "blosc" then bloscCodec v
      else none := by
  obtain ⟨s, hget, htext⟩ := h.get
  rw [chainCodec, hget]
  simp only [Option.bind_some, Option.bind_eq_bind, isText_of_plain htext, decide_eq_true_eq]

theorem chainCodec_entries {codec : Codec} {entries : List Value}
    (h : ChainEntries PlainText codec entries) : chainCodec entries = some codec := by
  obtain ⟨bytes, compressor, rfl, -, hbytes, hcompressor⟩ := h
  have hskip : chainCodec (bytes ++ compressor) = chainCodec compressor := by
    induction bytes with
    | nil => rfl
    | cons v bytes ih =>
      rw [forall_mem_cons] at hbytes
      rw [cons_append, chainCodec_cons _ hbytes.1, if_pos rfl, ih hbytes.2]
  rw [hskip]
  cases codec with
  | none => rw [show compressor = [] from hcompressor, chainCodec]
  | zstd =>
    obtain ⟨v, rfl, hname⟩ := hcompressor
    rw [chainCodec_cons _ hname, if_neg (by decide), if_pos rfl]
  | bloscZstd =>
    obtain ⟨v, rfl, hblosc⟩ := hcompressor
    rw [chainCodec_cons _ hblosc.1, if_neg (by decide), if_neg (by decide), if_pos rfl,
      bloscCodec_entry hblosc]
    decide
  | bloscLz4 =>
    obtain ⟨v, rfl, hblosc | hblosc⟩ := hcompressor
    all_goals
      rw [chainCodec_cons _ hblosc.1, if_neg (by decide), if_neg (by decide), if_pos rfl,
        bloscCodec_entry hblosc]
      decide
  | fill => exact hcompressor.elim

theorem ChainEntries.find_sharding {codec : Codec} {entries : List Value}
    (h : ChainEntries PlainText codec entries) :
    (entries.find? fun c => Value.hasName c (cstr "sharding_indexed")) = none := by
  have hother : ∀ {v : Value} {name : CString}, TextField PlainText v (cstr "name") name →
      name ≠ cstr "sharding_indexed" → ¬ Value.hasName v (cstr "sharding_indexed") = true := by
    intro v name hname hne
    obtain ⟨s, hget, htext⟩ := hname.get
    rw [Value.hasName, hget, Option.any_some, isText_of_plain htext, decide_eq_true_eq]
    exact hne
  obtain ⟨bytes, compressor, rfl, -, hbytes, hcompressor⟩ := h
  rw [find?_eq_none]
  intro v hv
  rcases mem_append.mp hv with hv | hv
  · exact hother (hbytes v hv) (by decide)
  · cases codec with
    | none =>
      rw [show compressor = [] from hcompressor] at hv
      cases hv
    | zstd =>
      obtain ⟨w, rfl, hname⟩ := hcompressor
      rw [mem_singleton.mp hv]
      exact hother hname (by decide)
    | bloscZstd =>
      obtain ⟨w, rfl, hblosc⟩ := hcompressor
      rw [mem_singleton.mp hv]
      exact hother hblosc.1 (by decide)
    | bloscLz4 =>
      obtain ⟨w, rfl, hblosc⟩ := hcompressor
      rw [mem_singleton.mp hv]
      exact hother (hblosc.elim (·.1) (·.1)) (by decide)
    | fill => exact hcompressor.elim

theorem readSharding_entry {a : ArrayDescription} {indexAtEnd : Bool} {v : Value}
    (h : ShardingEntry PlainText a indexAtEnd v) :
    readSharding v a.dims.length =
      some ⟨a.dims.map ZarrDim.innerChunkShape, a.codec, true, indexAtEnd⟩ := by
  obtain ⟨-, configuration, hconf, ⟨w, hshape, hextents⟩, ⟨gap, elems, hcodecs, hchain⟩, hloc⟩ := h
  have hread : readUints w = some (a.dims.map ZarrDim.innerChunkShape) := by
    refine readUints_extents hextents ?_ ?_ ?_
    · exact forall_mem_map.mpr fun d _ => d.innerChunkShape_lt
    · rw [length_map]; exact a.rank_pos
    · rw [length_map]; exact a.rank_le
  have hlocation : (!(Value.getPath v [cstr "configuration", cstr "index_location"]).any
      fun n => Value.isText n (cstr "start")) = indexAtEnd := by
    rw [hconf.getPath, Value.getPath]
    cases indexAtEnd with
    | false =>
      obtain ⟨s, hget, htext⟩ := hloc.get
      simp only [hget, Option.bind_some, Value.getPath, Option.any_some, isText_of_plain htext]
      rfl
    | true =>
      rcases hloc with hend | hno
      · obtain ⟨s, hget, htext⟩ := hend.get
        simp only [hget, Option.bind_some, Value.getPath, Option.any_some, isText_of_plain htext]
        decide
      · simp only [hno.get, Option.bind_none, Option.any_none, Bool.not_false]
  have hshapePath : Value.getPath v [cstr "configuration", cstr "chunk_shape"] = some w := by
    rw [hconf.getPath, hshape.getPath, Value.getPath]
  have hcodecsPath : Value.getPath v [cstr "configuration", cstr "codecs"] =
      some (.array gap elems) := by
    rw [hconf.getPath, hcodecs.getPath, Value.getPath]
  rw [readSharding]
  simp only [hlocation, hshapePath, hcodecsPath, Value.elems, Option.bind_eq_bind, Option.bind_some,
    hread, length_map, chainCodec_entries hchain]
  rfl

theorem readChunkCodec_describes {a : ArrayDescription} {v : Value} (h : Describes PlainText a v) :
    readChunkCodec v (a.dims.map ZarrDim.shardShape) =
      some ⟨a.dims.map ZarrDim.innerChunkShape, a.codec, a.metadata.sharded,
        a.metadata.indexLocationEnd⟩ := by
  have hcodecs := h.codecs
  rw [readChunkCodec, ArrayDescription.metadata]
  cases hlayout : a.layout with
  | chunks =>
    rw [hlayout] at hcodecs
    obtain ⟨gap, elems, hfield, hchain⟩ := hcodecs
    have hinner : a.dims.map ZarrDim.shardShape = a.dims.map ZarrDim.innerChunkShape :=
      map_congr_left fun d hd => (a.unsharded hlayout d hd).symm
    simp only [hfield.get, Value.elems, Option.bind_eq_bind, Option.bind_some, hchain.find_sharding,
      chainCodec_entries hchain, Option.map_some, hinner]
    rfl
  | shards indexAtEnd =>
    rw [hlayout] at hcodecs
    obtain ⟨gap, e, hfield, hentry⟩ := hcodecs
    obtain ⟨s, hget, htext⟩ := hentry.1.get
    have hname : Value.hasName e.value (cstr "sharding_indexed") = true := by
      rw [Value.hasName, hget, Option.any_some, isText_of_plain htext]
      rfl
    simp only [hfield.get, Value.elems, Option.bind_eq_bind, Option.bind_some, map_cons,
      map_nil, find?_cons, hname, length_map, readSharding_entry hentry]
    cases indexAtEnd <;> rfl

theorem readArray_describes (ops : DoubleOps) {a : ArrayDescription} {v : Value}
    (h : Describes PlainText a v) : readArray ops v = some a.metadata := by
  obtain ⟨nodeType, hnode, hnodeText⟩ := h.nodeType.get
  obtain ⟨format, hformat, hthree⟩ := h.zarrFormat
  obtain ⟨shape, hshape, hshapeExtents⟩ := h.shape
  obtain ⟨dataType, hdtype, hdtypeText⟩ := h.dataType.get
  obtain ⟨fill, hfill, hfillInt⟩ := h.fillValue
  obtain ⟨grid, configuration, w, hgrid, hconf, hchunk, hgridExtents⟩ := h.chunkGrid
  have hread : ∀ {w : Value} (f : ZarrDim → ℕ), (∀ d, f d < 2 ^ 64) → Extents w (a.dims.map f) →
      readUints w = some (a.dims.map f) := by
    intro w f hlt hw
    refine readUints_extents hw (forall_mem_map.mpr fun d _ => hlt d) ?_ ?_
    · rw [length_map]; exact a.rank_pos
    · rw [length_map]; exact a.rank_le
  have hdivides : a.dims.all ZarrDim.divides = true := by
    rw [all_eq_true]
    intro d hd
    obtain ⟨hpos, hdvd⟩ := a.divides d hd
    simp [ZarrDim.divides, hpos.ne', Nat.mod_eq_zero_of_dvd hdvd]
  have hgridPath : Value.getPath v [cstr "chunk_grid", cstr "configuration", cstr "chunk_shape"] =
      some w := by
    rw [hgrid.getPath, hconf.getPath, hchunk.getPath, Value.getPath]
  rw [readArray]
  simp only [hnode, hformat.get, hshape.get, hdtype, readFill, hfill.get, hgridPath,
    Option.bind_eq_bind, Option.bind_some, isText_of_plain hnodeText,
    jsonAsInt_number hthree (by decide) (by decide), Except.toOption,
    hread _ ZarrDim.shape_lt hshapeExtents, parseDataType_name hdtypeText,
    parseFillValue_number ops a.fill_inRange hfillInt, hread _ ZarrDim.shardShape_lt hgridExtents,
    length_map, readChunkCodec_describes h, zarrDims_map, hdivides]
  rfl

/-! ## A document -/

def plainBody (text : String) : StringBody :=
  (cstr text).filterMap fun b =>
    if h : 0x20 ≤ b ∧ b ≠ 0x22 ∧ b ≠ 0x5C then some (.plain b h.1 h.2.1 h.2.2) else none

def plainString (text : String) : Value := .string (plainBody text)

def plainObject (members : List (String × Value)) : Value :=
  .object noWs (members.map fun m => ⟨noWs, plainBody m.1, noWs, noWs, m.2, noWs⟩)

def plainArray (elems : List Value) : Value := .array noWs (elems.map fun v => ⟨noWs, v, noWs⟩)

def digit (d : Fin 10) : Number where
  negative := false
  int := ⟨[0x30 + d.val.toUInt8], cons_ne_nil _ _,
    forall_mem_singleton.mpr (by revert d; decide)⟩
  leading := by revert d; decide
  frac := none
  exp := none

/-- The members of a `zarr.json` for an array of four elements in chunks of two. -/
def sampleMembers (dataType : StringBody) (codecs : List Value) : List (String × Value) :=
  [("zarr_format", .number (digit 3)), ("node_type", plainString "array"),
    ("shape", plainArray [.number (digit 4)]), ("data_type", .string dataType),
    ("fill_value", .number (digit 0)),
    ("chunk_grid", plainObject [("name", plainString "regular"),
      ("configuration", plainObject [("chunk_shape", plainArray [.number (digit 2)])])]),
    ("codecs", plainArray codecs)]

def sampleDocument (dataType : StringBody) (codecs : List Value) : Value :=
  plainObject (sampleMembers dataType codecs)

def sampleCodecs : List Value :=
  [plainObject [("name", plainString "bytes")], plainObject [("name", plainString "zstd")]]

def digitDim (shape chunk : Fin 10) : ZarrDim :=
  ⟨shape, chunk, chunk, by omega, by omega, by omega⟩

def sampleArray : ArrayDescription where
  dtype := .u8
  fill := 0
  fill_inRange := by simp [Dtype.InRange, Dtype.isSigned, Dtype.isUnsigned]
  dims := [digitDim 4 2]
  rank_pos := by decide
  rank_le := by decide
  divides := by decide
  codec := .zstd
  codec_ne_fill := by decide
  layout := .chunks
  unsharded := by decide

theorem plainBody_escaped (text : String) : (plainBody text).escaped = false := by
  rw [StringBody.escaped, any_eq_false]
  intro item hitem
  obtain ⟨b, -, hb⟩ := mem_filterMap.mp hitem
  split at hb
  · obtain rfl := Option.some.inj hb
    exact Bool.false_ne_true
  · cases hb

theorem field_plainObject {members : List (String × Value)} (keys : List String)
    (hkeys : members.map Prod.fst = keys) (hnodup : (keys.map fun k => (plainBody k).bytes).Nodup)
    {i : ℕ} {key : String} {v : Value} (hmem : members[i]? = some (key, v))
    (hkey : (plainBody key).bytes = cstr key) : Field (plainObject members) (cstr key) v := by
  have hplain : PlainKeys (members.map fun m => ⟨noWs, plainBody m.1, noWs, noWs, m.2, noWs⟩) := by
    constructor
    · exact forall_mem_map.mpr fun m _ => plainBody_escaped m.1
    · rw [← hkeys, map_map] at hnodup
      rwa [map_map]
  rw [← hkey]
  exact .mk hplain (m := ⟨noWs, plainBody key, noWs, noWs, v, noWs⟩)
    (mem_map.mpr ⟨(key, v), mem_of_getElem? hmem, rfl⟩)

theorem isInt_digit (d : Fin 10) : IsInt (digit d) (d.val : ℤ) where
  frac := rfl
  exp := rfl
  negative := by revert d; decide
  digits := by revert d; decide

theorem describes_sampleDocument {spells : StringBody → CString → Prop} {dataType : StringBody}
    (hspells : ∀ s : StringBody, s.escaped = false → spells s s.bytes)
    (hdataType : spells dataType (cstr "uint8")) :
    Describes spells sampleArray (sampleDocument dataType sampleCodecs) := by
  have htext : ∀ text : String, (plainBody text).bytes = cstr text →
      spells (plainBody text) (cstr text) := fun text h => h ▸ hspells _ (plainBody_escaped text)
  have hextent : ∀ d : Fin 10, Extents (plainArray [.number (digit d)]) [d.val] := fun d =>
    .mk (.cons ⟨digit d, rfl, isInt_digit d⟩ .nil)
  have hname : ∀ name : String, (plainBody name).bytes = cstr name →
      TextField spells (plainObject [("name", plainString name)]) (cstr "name") (cstr name) :=
    fun name h => ⟨plainBody name,
      field_plainObject (i := 0) ["name"] rfl (by decide) rfl (by decide), htext name h⟩
  have hfield : ∀ {i : ℕ} {key : String} {v : Value},
      (sampleMembers dataType sampleCodecs)[i]? = some (key, v) →
      (plainBody key).bytes = cstr key → Field (sampleDocument dataType sampleCodecs) (cstr key) v :=
    field_plainObject ["zarr_format", "node_type", "shape", "data_type", "fill_value", "chunk_grid",
      "codecs"] rfl (by decide)
  constructor
  · exact ⟨plainBody "array", hfield (i := 1) rfl (by decide), htext _ (by decide)⟩
  · exact ⟨digit 3, hfield (i := 0) rfl (by decide), isInt_digit 3⟩
  · exact ⟨_, hfield (i := 2) rfl (by decide), hextent 4⟩
  · exact ⟨dataType, hfield (i := 3) rfl (by decide), hdataType⟩
  · exact ⟨digit 0, hfield (i := 4) rfl (by decide), isInt_digit 0⟩
  · exact ⟨_, _, _, hfield (i := 5) rfl (by decide),
      field_plainObject (i := 1) ["name", "configuration"] rfl (by decide) rfl (by decide),
      field_plainObject (i := 0) ["chunk_shape"] rfl (by decide) rfl (by decide), hextent 2⟩
  · refine ⟨noWs, _, hfield (i := 6) rfl (by decide), [_], [_], rfl, le_rfl, ?_, _, rfl, ?_⟩
    · exact forall_mem_singleton.mpr (hname "bytes" (by decide))
    · exact hname "zstd" (by decide)

theorem spells_plain (s : StringBody) (h : s.escaped = false) : Spells s s.bytes := by
  induction s with
  | nil => exact .nil
  | cons item s ih =>
    rw [StringBody.escaped, any_cons, Bool.or_eq_false_iff] at h
    cases item with
    | plain b ge ne_quote ne_backslash => exact .plain (ih h.2)
    | escape b simple => cases h.1
    | unicode a b c d hex => cases h.1

/-! ## The result -/

/-- **Every plainly written document that describes an array is read as that array.** -/
theorem zarrMetadataParse_describes (ops : DoubleOps) {a : ArrayDescription} {v : Value}
    {src : List UInt8} (h : Describes PlainText a v) (hsrc : Document v src) :
    zarrMetadataParse ops src = some a.metadata := by
  rw [zarrMetadataParse_eq_readArray ops hsrc, readArray_describes ops h]

theorem zarrMetadataParse_sampleDocument :
    Describes PlainText sampleArray (sampleDocument (plainBody "uint8") sampleCodecs) ∧
      ∀ ops, zarrMetadataParse ops (sampleDocument (plainBody "uint8") sampleCodecs).render =
        some sampleArray.metadata := by
  have h : Describes PlainText sampleArray (sampleDocument (plainBody "uint8") sampleCodecs) :=
    describes_sampleDocument (fun s hs => ⟨hs, rfl⟩) ⟨plainBody_escaped _, by decide⟩
  exact ⟨h, fun ops => zarrMetadataParse_describes ops h (document_render _)⟩

def escapedUint8 : StringBody := plainBody "uint" ++ [.unicode 0x30 0x30 0x33 0x38 (by simp; decide)]

/-- **A data type written with an escape is not known.** -/
theorem zarrMetadataParse_escapedUint8 :
    Describes Spells sampleArray (sampleDocument escapedUint8 sampleCodecs) ∧
      ∀ ops, zarrMetadataParse ops (sampleDocument escapedUint8 sampleCodecs).render = none := by
  have hspells : Spells escapedUint8 (cstr "uint8") :=
    .plain (.plain (.plain (.plain (.unicode (by decide) .nil))))
  refine ⟨describes_sampleDocument spells_plain hspells, fun ops => ?_⟩
  rw [zarrMetadataParse_eq_readArray ops (document_render _)]
  rfl

end Damacy

import Damacy.Util.Json
import Damacy.Zarr.Metadata

/-!
# Reading `zarr.json` (`zarr/zarr_metadata.c`)

`zarr_metadata_parse` reads an array's description with one query per field over the same text.
Every failure returns the same error, so the functions here return an `Option`. What the C library
does with floating-point literals is a parameter; the encodings that the code writes out itself (half
precision, little-endian bytes) are written out here.
-/

open JsonText

namespace Damacy

def cstr (s : String) : CString := s.toUTF8.data.toList

/-- The `double` operations of the platform, on bit patterns: `strtod` on the whole of a buffer,
the conversion to `float`, `NAN`, `INFINITY` and the negation. -/
structure DoubleOps where
  strtod : List UInt8 → Option ℕ
  toFloat : ℕ → ℕ
  nan : ℕ
  infinity : ℕ
  neg : ℕ → ℕ

/-- `struct zarr_metadata` with the two fields that the shard index needs. -/
structure ParsedMetadata extends ZarrMetadata where
  sharded : Bool
  indexLocationEnd : Bool
deriving DecidableEq

/-- `json_resolve` where the caller does not look at the error. -/
def resolve (src : List UInt8) (path : List JsonQuery) : Option JsonNode :=
  (jsonResolve src path).toOption

/-! ## Arrays of numbers -/

/-- The loop of `read_uint_array`, with room for so many numbers more. -/
def readUintLoop : (room : ℕ) → JsonIter → Option (List ℕ)
  | room, it =>
    match jsonIterNext it with
    | (.error .notFound, _) => some []
    | (.error _, _) => none
    | (.ok v, it) =>
      match room with
      | 0 => none
      | room + 1 =>
        match jsonAsUint v with
        | .error _ => none
        | .ok n => (readUintLoop room it).map (n :: ·)

def readUintArray (arr : JsonNode) (maxRank : ℕ) : Option (List ℕ) :=
  if arr.type ≠ .array then none
  else (readUintLoop maxRank (jsonIterInit arr.s [.iter])).filter (· ≠ [])

/-! ## Data types and fill values -/

/-- The table of `dtype_from_zarr_string`. -/
def zarrDtypes : List (CString × Dtype) :=
  [(cstr "uint8", .u8), (cstr "uint16", .u16), (cstr "uint32", .u32), (cstr "uint64", .u64),
    (cstr "int8", .i8), (cstr "int16", .i16), (cstr "int32", .i32), (cstr "int64", .i64),
    (cstr "float16", .f16), (cstr "float32", .f32), (cstr "float64", .f64)]

def dtypeFromZarrString (s : List UInt8) : Option Dtype :=
  (zarrDtypes.find? fun entry => entry.1 = s).map Prod.snd

def parseDataType (n : JsonNode) : Option Dtype :=
  if n.type ≠ .string ∨ n.flag = .strEscaped then none else dtypeFromZarrString n.s

/-- `pack_le` of the low `n` bytes, as the number that they spell. -/
def packLe (v n : ℕ) : ℕ := v % 2 ^ (8 * n)

def floatToHalfBits (bits : ℕ) : ℕ :=
  let sign := ((bits >>> 31) &&& 1) <<< 15
  let exponent := (bits >>> 23) &&& 0xFF
  let mantissa := bits &&& 0x7FFFFF
  if exponent = 0xFF then sign ||| 31 <<< 10 ||| (if mantissa = 0 then 0 else 0x200)
  else if bits &&& 0x7FFFFFFF = 0 then sign
  else if 15 + 127 < exponent then sign ||| 31 <<< 10
  else if exponent < 127 - 14 then sign
  else sign ||| (exponent + 15 - 127) <<< 10 ||| (mantissa + 0x1000) >>> 13

def packDouble (ops : DoubleOps) (dt : Dtype) (v : ℕ) : Option ℕ :=
  match dt with
  | .f16 => some (floatToHalfBits (ops.toFloat v))
  | .f32 => some (ops.toFloat v)
  | .f64 => some v
  | _ => none

def parseFloatSpecial (ops : DoubleOps) (n : JsonNode) (dt : Dtype) : Option ℕ :=
  if n.type ≠ .string ∨ n.flag = .strEscaped then none
  else
    let negative := n.s.head? = some 0x2D
    let s := if negative ∨ n.s.head? = some 0x2B then n.s.tail else n.s
    let v :=
      if s = cstr "NaN" then some ops.nan
      else if s = cstr "Infinity" then some ops.infinity
      else none
    v.bind fun v => packDouble ops dt (if negative then ops.neg v else v)

def jsonAsDouble (ops : DoubleOps) (n : JsonNode) : Option ℕ :=
  if n.type ≠ .number ∨ fitsBuffer n.s = false then none else ops.strtod n.s

/-- `parse_fill_value`: an unreadable number is tried as a special name for half precision only,
where it cannot be one either. -/
def parseFillValue (ops : DoubleOps) (n : JsonNode) (dt : Dtype) : Option ℕ :=
  match dt with
  | .u8 | .u16 | .u32 | .u64 => (jsonAsUint n).toOption.map fun v => packLe v (dtypeBpe dt)
  | .i8 | .i16 | .i32 | .i64 =>
    (jsonAsInt n).toOption.map fun v => packLe (u64OfInt v) (dtypeBpe dt)
  | .f16 =>
    match jsonAsDouble ops n with
    | some v => packDouble ops dt v
    | none => parseFloatSpecial ops n dt
  | .f32 | .f64 =>
    if n.type = .number then (jsonAsDouble ops n).bind (packDouble ops dt)
    else parseFloatSpecial ops n dt

/-! ## Codecs -/

def resolveBloscCname (codecObj : JsonNode) : Option Codec := do
  let cname ← resolve codecObj.s [.key (cstr "configuration"), .key (cstr "cname")]
  if jsonStrEq cname (cstr "lz4") || jsonStrEq cname (cstr "lz4hc") then some .bloscLz4
  else if jsonStrEq cname (cstr "zstd") then some .bloscZstd
  else none

/-- The loop of `parse_inner_codec`. -/
def parseInnerLoop : (fuel : ℕ) → JsonIter → Option Codec
  | 0, _ => none
  | fuel + 1, it =>
    match jsonIterNext it with
    | (.error .notFound, _) => some .none
    | (.error _, _) => none
    | (.ok c, it) =>
      if c.type ≠ .object then none
      else
        match resolve c.s [.key (cstr "name")] with
        | none => none
        | some name =>
          if jsonStrEq name (cstr "bytes") then parseInnerLoop fuel it
          else if jsonStrEq name (cstr "zstd") then some .zstd
          else if jsonStrEq name (cstr "blosc") then resolveBloscCname c
          else none

def parseInnerCodec (codecsArr : JsonNode) : Option Codec :=
  if codecsArr.type ≠ .array then none
  else parseInnerLoop codecsArr.s.length (jsonIterInit codecsArr.s [.iter])

/-- What the codecs say about the chunks of an array. -/
structure ChunkCodec where
  innerChunkShape : List ℕ
  innerCodec : Codec
  sharded : Bool
  indexLocationEnd : Bool

def shardingPath : List JsonQuery :=
  [.key (cstr "codecs"), .iter,
    .whereEq [.key (cstr "name")] (cstr "sharding_indexed") .string]

/-- Whether the index stands at the end of a shard, as it does by default. -/
def parseIndexLocation (sharding : JsonNode) : Bool :=
  match resolve sharding.s [.key (cstr "configuration"), .key (cstr "index_location")] with
  | some n => !jsonStrEq n (cstr "start")
  | none => true

/-- The configuration of a `sharding_indexed` codec. -/
def parseSharding (sharding : JsonNode) (rank : ℕ) : Option ChunkCodec := do
  let shape ← resolve sharding.s [.key (cstr "configuration"), .key (cstr "chunk_shape")]
  let innerChunkShape ← readUintArray shape maxRank
  guard (innerChunkShape.length = rank)
  let codecs ← resolve sharding.s [.key (cstr "configuration"), .key (cstr "codecs")]
  let innerCodec ← parseInnerCodec codecs
  some ⟨innerChunkShape, innerCodec, true, parseIndexLocation sharding⟩

/-- Without a sharding codec a chunk of the grid is a shard with one inner chunk. -/
def parseUnsharded (src : List UInt8) (shardShape : List ℕ) : Option ChunkCodec := do
  let codecs ← resolve src [.key (cstr "codecs")]
  let innerCodec ← parseInnerCodec codecs
  some ⟨shardShape, innerCodec, false, true⟩

def parseChunkCodec (src : List UInt8) (shardShape : List ℕ) : Option ChunkCodec :=
  match jsonResolve src shardingPath with
  | .ok sharding => parseSharding sharding shardShape.length
  | .error .notFound => parseUnsharded src shardShape
  | .error _ => none

/-! ## The document -/

def ZarrDim.of (shape innerChunkShape shardShape : ℕ) : ZarrDim :=
  ⟨u64 shape, u64 innerChunkShape, u64 shardShape, Nat.mod_lt _ (by decide),
    Nat.mod_lt _ (by decide), Nat.mod_lt _ (by decide)⟩

def zarrDims : (shape innerChunkShape shardShape : List ℕ) → List ZarrDim
  | n :: shape, c :: inner, s :: shard => ZarrDim.of n c s :: zarrDims shape inner shard
  | _, _, _ => []

def ZarrDim.divides (d : ZarrDim) : Bool :=
  d.innerChunkShape ≠ 0 && d.shardShape % d.innerChunkShape = 0

def readFillValue (ops : DoubleOps) (src : List UInt8) (dtype : Dtype) : Option ℕ :=
  match resolve src [.key (cstr "fill_value")] with
  | some n => parseFillValue ops n dtype
  | none => some 0

def zarrMetadataParse (ops : DoubleOps) (src : List UInt8) : Option ParsedMetadata := do
  let nodeType ← resolve src [.key (cstr "node_type")]
  guard (jsonStrEq nodeType (cstr "array"))
  let zarrFormat ← resolve src [.key (cstr "zarr_format")]
  guard ((jsonAsInt zarrFormat).toOption = some 3)
  let shapeNode ← resolve src [.key (cstr "shape")]
  let shape ← readUintArray shapeNode maxRank
  let dataType ← resolve src [.key (cstr "data_type")]
  let dtype ← parseDataType dataType
  let fillValue ← readFillValue ops src dtype
  let gridNode ← resolve src
    [.key (cstr "chunk_grid"), .key (cstr "configuration"), .key (cstr "chunk_shape")]
  let shardShape ← readUintArray gridNode maxRank
  guard (shardShape.length = shape.length)
  let codec ← parseChunkCodec src shardShape
  let dims := zarrDims shape codec.innerChunkShape shardShape
  guard (dims.all ZarrDim.divides)
  some ⟨⟨dtype, dims, codec.innerCodec, fillValue⟩, codec.sharded, codec.indexLocationEnd⟩

end Damacy

import Mathlib.Data.List.Find
import Damacy.Util.JsonBody
import Damacy.Util.JsonResolve
import Damacy.Zarr.Parse

/-!
# `zarr.json` as a value

On a well-formed document the queries of `zarr_metadata_parse` read one value, so the parser is a
function of that value (`readArray`), whatever the text around it looks like. Both directions of the
results about documents start here: what a document that describes an array is read as, and what an
accepted document must have said.
-/

open List JsonText

namespace Damacy

/-! ## Reading a value -/

def Value.get (v : Value) (key : CString) : Option Value :=
  match v with
  | .object _ members => (members.find? (memberHasKey key)).map Member.value
  | _ => none

def Value.getPath (v : Value) : List CString → Option Value
  | [] => some v
  | key :: path => (Value.get v key).bind fun w => Value.getPath w path

def Value.isText (v : Value) (text : CString) : Bool :=
  match v with
  | .string s => !s.escaped && s.bytes = text
  | _ => false

def Value.elems : Value → Option (List Value)
  | .array _ elems => some (elems.map Padded.value)
  | _ => none

/-- The numbers of `read_uint_array`. -/
def readUints (v : Value) : Option (List ℕ) := do
  let elems ← Value.elems v
  let ns ← elems.mapM fun e => (jsonAsUint (valueNode e)).toOption
  if 0 < ns.length ∧ ns.length ≤ maxRank then some ns else none

def bloscCodec (v : Value) : Option Codec := do
  let cname ← Value.getPath v [cstr "configuration", cstr "cname"]
  if Value.isText cname (cstr "lz4") || Value.isText cname (cstr "lz4hc") then some .bloscLz4
  else if Value.isText cname (cstr "zstd") then some .bloscZstd
  else none

/-- The codec that a chain of codecs is read as: the first compressor after `bytes` entries. -/
def chainCodec : List Value → Option Codec
  | [] => some .none
  | c :: chain => do
    let name ← Value.get c (cstr "name")
    if Value.isText name (cstr "bytes") then chainCodec chain
    else if Value.isText name (cstr "zstd") then some .zstd
    else if Value.isText name (cstr "blosc") then bloscCodec c
    else none

def Value.hasName (v : Value) (name : CString) : Bool :=
  (Value.get v (cstr "name")).any fun n => Value.isText n name

def readSharding (sharding : Value) (rank : ℕ) : Option ChunkCodec := do
  let shape ← Value.getPath sharding [cstr "configuration", cstr "chunk_shape"]
  let innerChunkShape ← readUints shape
  guard (innerChunkShape.length = rank)
  let codecs ← Value.getPath sharding [cstr "configuration", cstr "codecs"]
  let chain ← Value.elems codecs
  let innerCodec ← chainCodec chain
  let location := Value.getPath sharding [cstr "configuration", cstr "index_location"]
  some ⟨innerChunkShape, innerCodec, true, !location.any fun n => Value.isText n (cstr "start")⟩

def readChunkCodec (v : Value) (shardShape : List ℕ) : Option ChunkCodec := do
  let codecs ← Value.get v (cstr "codecs")
  let chain ← Value.elems codecs
  match chain.find? fun c => Value.hasName c (cstr "sharding_indexed") with
  | some sharding => readSharding sharding shardShape.length
  | none => (chainCodec chain).map fun codec => ⟨shardShape, codec, false, true⟩

def readFill (ops : DoubleOps) (v : Value) (dtype : Dtype) : Option ℕ :=
  match Value.get v (cstr "fill_value") with
  | some n => parseFillValue ops (valueNode n) dtype
  | none => some 0

def readArray (ops : DoubleOps) (v : Value) : Option ParsedMetadata := do
  let nodeType ← Value.get v (cstr "node_type")
  guard (Value.isText nodeType (cstr "array"))
  let zarrFormat ← Value.get v (cstr "zarr_format")
  guard ((jsonAsInt (valueNode zarrFormat)).toOption = some 3)
  let shapeNode ← Value.get v (cstr "shape")
  let shape ← readUints shapeNode
  let dataType ← Value.get v (cstr "data_type")
  let dtype ← parseDataType (valueNode dataType)
  let fillValue ← readFill ops v dtype
  let gridNode ← Value.getPath v
    [cstr "chunk_grid", cstr "configuration", cstr "chunk_shape"]
  let shardShape ← readUints gridNode
  guard (shardShape.length = shape.length)
  let codec ← readChunkCodec v shardShape
  let dims := zarrDims shape codec.innerChunkShape shardShape
  guard (dims.all ZarrDim.divides)
  some ⟨⟨dtype, dims, codec.innerCodec, fillValue⟩, codec.sharded, codec.indexLocationEnd⟩

/-! ## Paths -/

variable {v : Value} {src : List UInt8}

theorem jsonStrEq_node (v : Value) (text : CString) :
    jsonStrEq (valueNode v) text = Value.isText v text := by
  cases v with
  | null | number n | array gap elems | object gap members => rfl
  | bool b => cases b <;> rfl
  | string s =>
    rw [jsonStrEq, JsonNode.eqLiteral, valueNode, Value.isText]
    cases s.escaped <;> simp

theorem evalParts_keys (path : List CString) (v : Value) :
    (evalParts (path.map .key) v).result.toOption = (Value.getPath v path).map valueNode := by
  induction path generalizing v with
  | nil => rfl
  | cons key path ih =>
    rw [map_cons, Value.getPath]
    cases v with
    | null | bool b | number n | string s | array gap elems => rfl
    | object gap members =>
      rw [evalParts, Value.get]
      cases members.find? (memberHasKey key) with
      | none => rfl
      | some m => exact ih m.value

theorem parts_keys (path : List CString) :
    JsonQuery.parts (path.map .key) = path.map .key := by
  induction path with
  | nil => rfl
  | cons key path ih => rw [map_cons, JsonQuery.parts, JsonQuery.part, ih, map_cons]

theorem iterCount_keys (path : List CString) : iterCount (path.map .key) = 0 := by
  rw [iterCount, countP_eq_zero]
  intro part hpart
  obtain ⟨key, -, rfl⟩ := mem_map.mp hpart
  exact Bool.false_ne_true

theorem resolve_keys (h : Document v src) (path : List CString) :
    resolve src (path.map .key) = (Value.getPath v path).map valueNode := by
  have hiters : iterCount (JsonQuery.parts (path.map .key)) ≤ jsonIterMaxFrames := by
    rw [parts_keys, iterCount_keys]
    exact Nat.zero_le _
  rw [resolve, jsonResolve, resolveParts_document h hiters, parts_keys, evalParts_keys]

theorem resolve_key (h : Document v src) (key : CString) :
    resolve src [.key key] = (Value.get v key).map valueNode := by
  rw [← map_singleton, resolve_keys h, Value.getPath]
  cases Value.get v key <;> rfl

theorem document_render (v : Value) : Document v v.render :=
  ⟨noWs, noWs, (append_nil _).symm⟩

/-! ## Elements -/

/-- An iterator over the elements of an array, before the first of them or after another. -/
inductive Streams : JsonIter → List (Padded Value) → Prop
  | start (gap : Ws) (elems : List (Padded Value)) :
      Streams ⟨(Value.array gap elems).render, [.iter], [], false⟩ elems
  | next {src : List UInt8} (hsrc : src ≠ []) (w : Ws) (elems : List (Padded Value)) :
      Streams ⟨src, [.iter], [⟨0, w.bytes ++ Value.renderElemsTail elems, true⟩], false⟩ elems

theorem applyFrom_iter_node (gap : Ws) (elems : List (Padded Value)) :
    applyFrom [.iter] 0 (valueNode (.array gap elems)) [] =
      match takeElem elems with
      | .error .notFound => (.error .notFound, [])
      | .error e => (.error e, [⟨0, Value.renderElems gap elems, true⟩])
      | .ok (first, rest) => (.ok first, [⟨0, rest, true⟩]) := by
  rw [applyFrom, if_neg (by decide), iterOpenArray_node]
  dsimp only
  rw [iterTake_first]
  cases elems <;> rfl

theorem Streams.step {it : JsonIter} {elems : List (Padded Value)} (h : Streams it elems) :
    match elems with
    | [] => ∃ it', jsonIterNext it = (.error .notFound, it')
    | e :: elems => ∃ it', jsonIterNext it = (.ok (valueNode e.value), it') ∧ Streams it' elems := by
  cases h with
  | start gap elems =>
    have hne : (Value.array gap elems).render ≠ [] := cons_ne_nil _ _
    have hlex : lexValue (skipWs (Value.array gap elems).render) =
        .ok (valueNode (.array gap elems), []) := by
      have hskip := skipWs_render (.array gap elems) []
      have hrender := lexValue_render (.array gap elems) delimited_nil
      rw [append_nil] at hskip hrender
      rw [hskip, hrender]
    have happly := applyFrom_iter_node gap elems
    cases elems with
    | nil =>
      refine ⟨⟨(Value.array gap []).render, [.iter], [], true⟩, ?_⟩
      rw [jsonIterNext, if_neg Bool.false_ne_true]
      dsimp only
      rw [hlex]
      dsimp only
      rw [happly]
      rfl
    | cons e elems =>
      refine ⟨_, ?_, .next hne e.after elems⟩
      rw [jsonIterNext, if_neg Bool.false_ne_true]
      dsimp only
      rw [hlex]
      dsimp only
      rw [happly]
      rfl
  | @next src hsrc w elems =>
    obtain ⟨n, hn⟩ : ∃ n, src.length = n + 1 :=
      ⟨src.length - 1, by have := length_pos_iff.mpr hsrc; omega⟩
    cases elems with
    | nil =>
      refine ⟨⟨src, [.iter], [], true⟩, ?_⟩
      rw [jsonIterNext, if_neg Bool.false_ne_true]
      dsimp only
      rw [hn, backtrackIter]
      dsimp only
      rw [iterTake_next]
      rfl
    | cons e elems =>
      refine ⟨_, ?_, .next hsrc e.after elems⟩
      rw [jsonIterNext, if_neg Bool.false_ne_true]
      dsimp only
      rw [hn, backtrackIter]
      dsimp only
      rw [iterTake_next]
      rfl

theorem readUintLoop_streams {elems : List (Padded Value)} :
    ∀ {it : JsonIter} (room : ℕ), Streams it elems →
      readUintLoop room it =
        ((elems.map Padded.value).mapM fun e => (jsonAsUint (valueNode e)).toOption).filter
          fun ns => ns.length ≤ room := by
  induction elems with
  | nil =>
    intro it room h
    obtain ⟨it', hnext⟩ := h.step
    rw [readUintLoop.eq_def]
    dsimp only
    rw [hnext]
    rfl
  | cons e elems ih =>
    intro it room h
    obtain ⟨it', hnext, hstreams⟩ := h.step
    rw [readUintLoop.eq_def]
    dsimp only
    rw [hnext, map_cons, mapM_cons]
    cases room with
    | zero =>
      cases (jsonAsUint (valueNode e.value)).toOption with
      | none => rfl
      | some n =>
        cases (elems.map Padded.value).mapM fun e => (jsonAsUint (valueNode e)).toOption with
        | none => rfl
        | some ns => rfl
    | succ room =>
      dsimp only
      rw [ih room hstreams]
      cases jsonAsUint (valueNode e.value) with
      | error err => rfl
      | ok n =>
        cases (elems.map Padded.value).mapM fun e => (jsonAsUint (valueNode e)).toOption with
        | none => rfl
        | some ns =>
          by_cases hle : ns.length ≤ room
          · simp [Except.toOption, Option.filter, hle]
          · simp [Except.toOption, Option.filter, hle]

theorem readUintArray_node (v : Value) :
    readUintArray (valueNode v) maxRank = readUints v := by
  cases v with
  | null | number n | string s | object gap members => rfl
  | bool b => cases b <;> rfl
  | array gap elems =>
    rw [readUintArray, if_neg (by simp [valueNode])]
    have hread := readUintLoop_streams maxRank (.start gap elems)
    rw [show jsonIterInit (valueNode (.array gap elems)).s [.iter] =
      ⟨(Value.array gap elems).render, [.iter], [], false⟩ from rfl, hread, readUints, Value.elems]
    simp only [Option.bind_eq_bind, Option.bind_some]
    cases (elems.map Padded.value).mapM fun e => (jsonAsUint (valueNode e)).toOption with
    | none => rfl
    | some ns =>
      by_cases hle : ns.length ≤ maxRank
      · cases ns with
        | nil => rfl
        | cons n ns =>
          have hlen : 0 < (n :: ns).length := Nat.succ_pos _
          simp only [Option.filter, hle, hlen, decide_true, if_true, and_self, Option.bind_some]
          rfl
      · simp [Option.filter, hle]

/-! ## Codecs -/

theorem resolveBloscCname_object (gap : Ws) (members : List (Member Value)) :
    resolveBloscCname (valueNode (.object gap members)) = bloscCodec (.object gap members) := by
  have hresolve := resolve_keys (document_render (.object gap members))
    [cstr "configuration", cstr "cname"]
  rw [resolveBloscCname, bloscCodec]
  simp only [map_cons, map_nil] at hresolve
  rw [show (valueNode (.object gap members)).s = (Value.object gap members).render from rfl,
    hresolve]
  cases Value.getPath (.object gap members) [cstr "configuration", cstr "cname"] with
  | none => rfl
  | some cname =>
    simp only [Option.map_some, Option.bind_eq_bind, Option.bind_some, jsonStrEq_node]

theorem parseInnerLoop_streams {elems : List (Padded Value)} :
    ∀ {it : JsonIter} (fuel : ℕ), Streams it elems → elems.length < fuel →
      parseInnerLoop fuel it = chainCodec (elems.map Padded.value) := by
  induction elems with
  | nil =>
    intro it fuel h hfuel
    obtain ⟨it', hnext⟩ := h.step
    obtain ⟨fuel, rfl⟩ : ∃ k, fuel = k + 1 := ⟨fuel - 1, by omega⟩
    rw [parseInnerLoop, hnext]
    rfl
  | cons e elems ih =>
    intro it fuel h hfuel
    obtain ⟨it', hnext, hstreams⟩ := h.step
    rw [length_cons] at hfuel
    obtain ⟨fuel, rfl⟩ : ∃ k, fuel = k + 1 := ⟨fuel - 1, by omega⟩
    have hrest := ih fuel hstreams (by omega)
    rw [parseInnerLoop, hnext, map_cons, chainCodec]
    dsimp only
    generalize e.value = c
    cases c with
    | null | number n | string s | array gap elems => rfl
    | bool b => cases b <;> rfl
    | object gap members =>
      rw [if_neg (by simp [valueNode]),
        show (valueNode (.object gap members)).s = (Value.object gap members).render from rfl,
        resolve_key (document_render _)]
      cases Value.get (.object gap members) (cstr "name") with
      | none => rfl
      | some name =>
        simp only [Option.map_some, Option.bind_eq_bind, Option.bind_some, jsonStrEq_node, hrest,
          resolveBloscCname_object]

theorem length_lt_render_array (gap : Ws) (elems : List (Padded Value)) :
    elems.length < (Value.array gap elems).render.length := by
  have htail : ∀ elems : List (Padded Value), elems.length < (Value.renderElemsTail elems).length := by
    intro elems
    induction elems with
    | nil => exact Nat.one_pos
    | cons e elems ih =>
      rw [Value.renderElemsTail]
      simp only [length_cons, length_append]
      omega
  cases elems with
  | nil => exact Nat.succ_pos _
  | cons e elems =>
    have h := htail (e :: elems)
    rwa [show Value.renderElemsTail (e :: elems) = 0x2C :: Value.renderElems gap (e :: elems) from rfl]
      at h

theorem parseInnerCodec_node (v : Value) :
    parseInnerCodec (valueNode v) = (Value.elems v).bind chainCodec := by
  cases v with
  | null | number n | string s | object gap members => rfl
  | bool b => cases b <;> rfl
  | array gap elems =>
    rw [parseInnerCodec, if_neg (by simp [valueNode])]
    exact parseInnerLoop_streams _ (.start gap elems) (length_lt_render_array gap elems)

/-! ## The sharding codec -/

theorem whereHolds_name (v : Value) (name : CString) :
    whereHolds (valueNode v) (JsonQuery.parts [.key (cstr "name")]) name .string =
      Value.hasName v name := by
  -- the span of a value is its text, unless it is a string
  have hother : (valueNode v).s = v.render →
      whereHolds (valueNode v) (JsonQuery.parts [.key (cstr "name")]) name .string =
        Value.hasName v name := by
    intro hs
    have hresolve := resolve_key (document_render v) (cstr "name")
    rw [resolve, jsonResolve] at hresolve
    rw [whereHolds, hs, Value.hasName]
    generalize resolveParts v.render (JsonQuery.parts [.key (cstr "name")]) = r at hresolve
    cases hget : Value.get v (cstr "name") with
    | none =>
      rw [hget] at hresolve
      cases r with
      | error e => rfl
      | ok leaf => cases hresolve
    | some n =>
      rw [hget] at hresolve
      cases r with
      | error e => cases hresolve
      | ok leaf =>
        obtain rfl : leaf = valueNode n := Option.some.inj hresolve
        exact jsonStrEq_node n name
  cases v with
  | null | number n | array gap elems | object gap members => exact hother rfl
  | bool b => cases b <;> exact hother rfl
  | string s =>
    -- no member is found in the text of a string
    have hspan : (valueNode (.string s)).s = s.bytes := rfl
    rw [whereHolds, hspan]
    cases hres : resolveParts s.bytes (JsonQuery.parts [.key (cstr "name")]) with
    | error e => rfl
    | ok leaf =>
      have hsub : ∀ q ∈ [JsonQuery.key (cstr "name")], q.isStep = true :=
        forall_mem_singleton.2 rfl
      obtain ⟨_ | ⟨index, path⟩, hpath, -⟩ :=
        (resolveParts_body_iff s hsub leaf.type leaf.s).1 ⟨leaf.flag, hres⟩ <;> cases hpath

theorem whereEq_name (name : CString) :
    ∃ holds, JsonQuery.part (.whereEq [.key (cstr "name")] name .string) = .whereHolds holds ∧
      ∀ v, holds (valueNode v) = Value.hasName v name :=
  ⟨_, rfl, fun v => whereHolds_name v name⟩

theorem firstOutcome_where (holds : JsonNode → Bool) (elems : List (Padded Value)) :
    firstOutcome (evalParts [.whereHolds holds]) elems =
      match (elems.map Padded.value).find? fun c => holds (valueNode c) with
      | none => .notFound
      | some c => .found c := by
  induction elems with
  | nil => rfl
  | cons e elems ih =>
    rw [map_cons, find?_cons, firstOutcome, foldr_cons, ← firstOutcome, ih,
      evalParts.eq_def]
    dsimp only
    cases holds (valueNode e.value) <;> rfl

theorem jsonResolve_shardingPath (h : Document v src) :
    jsonResolve src shardingPath =
      match v with
      | .object _ _ =>
        match Value.get v (cstr "codecs") with
        | none => .error .notFound
        | some (.array _ elems) =>
          match (elems.map Padded.value).find?
              fun c => Value.hasName c (cstr "sharding_indexed") with
          | none => .error .notFound
          | some c => .ok (valueNode c)
        | some _ => .error .type
      | _ => .error .type := by
  have hiters : iterCount (JsonQuery.parts shardingPath) ≤ jsonIterMaxFrames := by decide
  obtain ⟨holds, hpart, hholds⟩ := whereEq_name (cstr "sharding_indexed")
  have hparts : JsonQuery.parts shardingPath = [.key (cstr "codecs"), .iter, .whereHolds holds] := by
    rw [shardingPath, JsonQuery.parts, JsonQuery.parts, JsonQuery.parts, JsonQuery.parts, hpart]
    rfl
  rw [jsonResolve, resolveParts_document h hiters, hparts]
  cases v with
  | null | bool b | number n | string s | array gap elems => rfl
  | object gap members =>
    rw [evalParts, Value.get]
    cases members.find? (memberHasKey (cstr "codecs")) with
    | none => rfl
    | some m =>
      dsimp only [Option.map_some]
      cases m.value with
      | null | bool b | number n | string s | object gap members => rfl
      | array gap elems =>
        rw [evalParts, firstOutcome_where]
        simp only [hholds]
        cases (elems.map Padded.value).find?
          fun c => Value.hasName c (cstr "sharding_indexed") <;> rfl

theorem object_of_hasName {c : Value} {name : CString} (h : Value.hasName c name = true) :
    (valueNode c).s = c.render := by
  cases c with
  | null | bool b | number n | string s | array gap elems => cases h
  | object gap members => rfl

theorem parseSharding_node {c : Value} (h : (valueNode c).s = c.render) (rank : ℕ) :
    parseSharding (valueNode c) rank = readSharding c rank := by
  have hkeys := resolve_keys (document_render c)
  have hshape := hkeys [cstr "configuration", cstr "chunk_shape"]
  have hcodecs := hkeys [cstr "configuration", cstr "codecs"]
  have hlocation := hkeys [cstr "configuration", cstr "index_location"]
  simp only [map_cons, map_nil] at hshape hcodecs hlocation
  rw [parseSharding, readSharding, parseIndexLocation, h, hshape, hcodecs, hlocation]
  simp only [Option.bind_eq_bind, Option.bind_map, Function.comp_def, readUintArray_node,
    parseInnerCodec_node, Option.bind_assoc]
  cases Value.getPath c [cstr "configuration", cstr "index_location"] with
  | none => rfl
  | some n => simp only [Option.map_some, jsonStrEq_node, Option.any_some]

theorem parseChunkCodec_document (h : Document v src) (shardShape : List ℕ) :
    parseChunkCodec src shardShape = readChunkCodec v shardShape := by
  rw [parseChunkCodec, jsonResolve_shardingPath h, parseUnsharded, resolve_key h, readChunkCodec]
  cases v with
  | null | bool b | number n | string s | array gap elems => rfl
  | object gap members =>
    dsimp only
    cases Value.get (.object gap members) (cstr "codecs") with
    | none => rfl
    | some codecs =>
      cases codecs with
      | null | number n | string s | object gap members => rfl
      | bool b => cases b <;> rfl
      | array gap' elems =>
        simp only [Option.map_some, Option.bind_eq_bind, Option.bind_some, parseInnerCodec_node,
          Value.elems]
        cases hfind : (elems.map Padded.value).find?
            fun c => Value.hasName c (cstr "sharding_indexed") with
        | none => cases chainCodec (elems.map Padded.value) <;> rfl
        | some c =>
          have hname := find?_some hfind
          exact parseSharding_node (object_of_hasName hname) _

/-! ## The document -/

/-- **On a well-formed document `zarr_metadata_parse` is a function of the value.** -/
theorem zarrMetadataParse_eq_readArray (ops : DoubleOps) (h : Document v src) :
    zarrMetadataParse ops src = readArray ops v := by
  have hgrid := resolve_keys h [cstr "chunk_grid", cstr "configuration", cstr "chunk_shape"]
  simp only [map_cons, map_nil] at hgrid
  have hfill : ∀ dtype, readFillValue ops src dtype = readFill ops v dtype := by
    intro dtype
    rw [readFillValue, readFill, resolve_key h]
    cases Value.get v (cstr "fill_value") <;> rfl
  rw [zarrMetadataParse, readArray]
  simp only [resolve_key h, hgrid, hfill, parseChunkCodec_document h, Option.bind_eq_bind,
    Option.bind_map, Function.comp_def, readUintArray_node, jsonStrEq_node]

end Damacy

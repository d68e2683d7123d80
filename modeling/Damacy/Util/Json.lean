import Damacy.Types
import Damacy.Lib.JsonText

/-!
# The JSON reader (`util/json.c`)

A lazy reader: a slice of the source is lexed as far as a query needs it, and values that the query
does not ask for are skipped. A `struct cslice` is the list of its bytes; every function that
advances a slice returns what is left of it. Loops that consume the slice are bounded by its length.

An iterator that has met malformed text keeps its open arrays as they were before; where the source
leaves its cursors then is in `Damacy.Util.JsonCursor`.

A `QUERY_WHERE` part holds its predicate on nodes here; `JsonQuery` is the query as callers write it,
and `JsonQuery.part` reads the predicate off it.
-/

open JsonText

namespace Damacy

inductive JsonType
  | invalid | null | bool | number | string | array | object
deriving DecidableEq, Repr

/-- `enum json_err`, without `JSON_OK`. -/
inductive JsonErr
  | invalid | parse | type | range | notFound | oom
deriving DecidableEq, Repr

inductive JsonNodeFlag
  | none | strEscaped | numFloat
deriving DecidableEq, Repr

/-- `struct json_node`: the span of a string is what stands between its quotes. -/
structure JsonNode where
  type : JsonType
  flag : JsonNodeFlag
  s : List UInt8
deriving DecidableEq, Repr

/-! ## The lexer -/

def skipWs (c : List UInt8) : List UInt8 := c.dropWhile isWs

/-- The loop of `lex_string_span`, after the opening quote: the span, its flag, and what is left. -/
def stringLoop : List UInt8 → Option (List UInt8 × JsonNodeFlag × List UInt8)
  | [] => none
  | ch :: c =>
    if ch = 0x22 then some ([], .none, c)
    else if ch = 0x5C then
      match c with
      | [] => none
      | esc :: c =>
        if esc = 0x75 then
          match c with
          | x₁ :: x₂ :: x₃ :: x₄ :: c =>
            if isHexDigit x₁ && isHexDigit x₂ && isHexDigit x₃ && isHexDigit x₄ then
              (stringLoop c).map fun r =>
                (ch :: esc :: x₁ :: x₂ :: x₃ :: x₄ :: r.1, .strEscaped, r.2.2)
            else none
          | _ => none
        else if isSimpleEscape esc then
          (stringLoop c).map fun r => (ch :: esc :: r.1, .strEscaped, r.2.2)
        else none
    else if ch < 0x20 then none
    else (stringLoop c).map fun r => (ch :: r.1, r.2.1, r.2.2)

def lexStringSpan : List UInt8 → Option (List UInt8 × JsonNodeFlag × List UInt8)
  | [] => none
  | ch :: c => if ch = 0x22 then stringLoop c else none

def digitRun (c : List UInt8) : List UInt8 × List UInt8 := c.span isDigit

/-- The sign of a number in `lex_number_span`. -/
def lexSign : List UInt8 → List UInt8 × List UInt8
  | ch :: c => if ch = 0x2D then ([ch], c) else ([], ch :: c)
  | [] => ([], [])

def lexInt : List UInt8 → Option (List UInt8 × List UInt8)
  | [] => none
  | ch :: c =>
    if ch = 0x30 then some ([ch], c)
    else if isDigit ch then some (digitRun (ch :: c))
    else none

def lexDigits (c : List UInt8) : Option (List UInt8 × List UInt8) :=
  let run := digitRun c
  if run.1 = [] then none else some run

def lexFrac : List UInt8 → Option (List UInt8 × List UInt8)
  | [] => some ([], [])
  | ch :: c =>
    if ch = 0x2E then (lexDigits c).map fun r => (ch :: r.1, r.2) else some ([], ch :: c)

def lexExpSign : List UInt8 → List UInt8 × List UInt8
  | ch :: c => if ch = 0x2B ∨ ch = 0x2D then ([ch], c) else ([], ch :: c)
  | [] => ([], [])

def lexExp : List UInt8 → Option (List UInt8 × List UInt8)
  | [] => some ([], [])
  | ch :: c =>
    if ch = 0x65 ∨ ch = 0x45 then
      let sign := lexExpSign c
      (lexDigits sign.2).map fun r => (ch :: (sign.1 ++ r.1), r.2)
    else some ([], ch :: c)

def lexNumberSpan (c : List UInt8) : Option (List UInt8 × JsonNodeFlag × List UInt8) := do
  let sign := lexSign c
  let int ← lexInt sign.2
  let frac ← lexFrac int.2
  let exp ← lexExp frac.2
  some (sign.1 ++ int.1 ++ frac.1 ++ exp.1,
    if frac.1 = [] ∧ exp.1 = [] then .none else .numFloat, exp.2)

def lexKeyword (kw c : List UInt8) : Option (List UInt8) :=
  if kw.isPrefixOf c then some (c.drop kw.length) else none

/-- The loop of `skip_container`. -/
def skipLoop (opening closing : UInt8) : (fuel depth : ℕ) → List UInt8 → Option (List UInt8)
  | 0, _, _ => none
  | _ + 1, _, [] => none
  | fuel + 1, depth, ch :: c =>
    if ch = 0x22 then
      match lexStringSpan (ch :: c) with
      | none => none
      | some r => skipLoop opening closing fuel depth r.2.2
    else if ch = opening then skipLoop opening closing fuel (depth + 1) c
    else if ch = closing then
      if depth - 1 = 0 then some c else skipLoop opening closing fuel (depth - 1) c
    else skipLoop opening closing fuel depth c

/-- `skip_container`; the caller has seen the bracket. -/
def skipContainer (closing : UInt8) (c : List UInt8) : Option (List UInt8) :=
  match c with
  | [] => none
  | opening :: _ => skipLoop opening closing c.length 0 c

/-- A container: its span is what `skip_container` has passed. -/
def lexContainer (type : JsonType) (closing : UInt8) (c : List UInt8) :
    Except JsonErr (JsonNode × List UInt8) :=
  match skipContainer closing c with
  | none => .error .parse
  | some rest => .ok (⟨type, .none, c.take (c.length - rest.length)⟩, rest)

def lexLiteral (type : JsonType) (kw c : List UInt8) : Except JsonErr (JsonNode × List UInt8) :=
  match lexKeyword kw c with
  | none => .error .parse
  | some rest => .ok (⟨type, .none, kw⟩, rest)

def lexSpan (type : JsonType) (r : Option (List UInt8 × JsonNodeFlag × List UInt8)) :
    Except JsonErr (JsonNode × List UInt8) :=
  match r with
  | none => .error .parse
  | some (span, flag, rest) => .ok (⟨type, flag, span⟩, rest)

/-- `"true"`, `"false"` and `"null"`. -/
def kwTrue : List UInt8 := [0x74, 0x72, 0x75, 0x65]
@[inherit_doc kwTrue] def kwFalse : List UInt8 := [0x66, 0x61, 0x6C, 0x73, 0x65]
@[inherit_doc kwTrue] def kwNull : List UInt8 := [0x6E, 0x75, 0x6C, 0x6C]

def lexValue (c : List UInt8) : Except JsonErr (JsonNode × List UInt8) :=
  match c with
  | [] => .error .parse
  | ch :: _ =>
    if ch = 0x7B then lexContainer .object 0x7D c
    else if ch = 0x5B then lexContainer .array 0x5D c
    else if ch = 0x22 then lexSpan .string (lexStringSpan c)
    else if ch = 0x74 then lexLiteral .bool kwTrue c
    else if ch = 0x66 then lexLiteral .bool kwFalse c
    else if ch = 0x6E then lexLiteral .null kwNull c
    else if ch = 0x2D ∨ isDigit ch then lexSpan .number (lexNumberSpan c)
    else .error .parse

/-! ## Objects and arrays -/

/-- The loop of `object_step`. -/
def objectLoop (key : List UInt8) : (fuel : ℕ) → List UInt8 → Except JsonErr JsonNode
  | 0, _ => .error .parse
  | fuel + 1, c =>
    match lexStringSpan (skipWs c) with
    | none => .error .parse
    | some (span, flag, c) =>
      match skipWs c with
      | [] => .error .parse
      | ch :: c =>
        if ch ≠ 0x3A then .error .parse
        else
          match lexValue (skipWs c) with
          | .error e => .error e
          | .ok (value, c) =>
            if flag ≠ .strEscaped ∧ span = key then .ok value
            else
              match skipWs c with
              | [] => .error .parse
              | ch :: c =>
                if ch = 0x2C then objectLoop key fuel c
                else if ch = 0x7D then .error .notFound
                else .error .parse

def objectStep (node : JsonNode) (key : List UInt8) : Except JsonErr JsonNode :=
  if node.type ≠ .object then .error .type
  else
    match node.s with
    | [] => .error .parse
    | ch :: c =>
      if ch ≠ 0x7B then .error .parse
      else if (skipWs c).head? = some 0x7D then .error .notFound
      else objectLoop key c.length c

/-- The loop of `array_step`, with `want - i` elements still to pass. -/
def arrayLoop : (want : ℕ) → List UInt8 → Except JsonErr JsonNode
  | want, c =>
    match lexValue (skipWs c) with
    | .error e => .error e
    | .ok (value, c) =>
      match want with
      | 0 => .ok value
      | want + 1 =>
        match skipWs c with
        | [] => .error .parse
        | ch :: c =>
          if ch = 0x2C then arrayLoop want c
          else if ch = 0x5D then .error .notFound
          else .error .parse

def arrayStep (node : JsonNode) (want : ℕ) : Except JsonErr JsonNode :=
  if node.type ≠ .array then .error .type
  else
    match node.s with
    | [] => .error .parse
    | ch :: c =>
      if ch ≠ 0x5B then .error .parse
      else if (skipWs c).head? = some 0x5D then .error .notFound
      else arrayLoop want c

/-! ## The evaluator -/

inductive QueryPart
  | key (key : List UInt8)
  | index (index : ℕ)
  | iter
  | whereHolds (holds : JsonNode → Bool)

/-- `struct json_iter_frame`. -/
structure IterFrame where
  partIndex : ℕ
  rest : List UInt8
  sawFirst : Bool

def jsonIterMaxFrames : ℕ := 4

def iterOpenArray (arr : JsonNode) : Except JsonErr (List UInt8) :=
  if arr.type ≠ .array then .error .type
  else
    match arr.s with
    | [] => .error .parse
    | ch :: c => if ch ≠ 0x5B then .error .parse else .ok c

/-- `iter_take`: the next element and what is left of the array. -/
def iterTake (sawFirst : Bool) (rest : List UInt8) : Except JsonErr (JsonNode × List UInt8) :=
  match skipWs rest with
  | [] => .error .parse
  | ch :: c =>
    if ch = 0x5D then .error .notFound
    else if sawFirst then
      if ch ≠ 0x2C then .error .parse else lexValue (skipWs c)
    else lexValue (ch :: c)

/-- `apply_from`, with the parts from index `i` on and the stack of frames, innermost first. -/
def applyFrom : (parts : List QueryPart) → (i : ℕ) → JsonNode → List IterFrame →
    Except JsonErr JsonNode × List IterFrame
  | [], _, cur, frames => (.ok cur, frames)
  | .key k :: parts, i, cur, frames =>
    match objectStep cur k with
    | .error e => (.error e, frames)
    | .ok cur => applyFrom parts (i + 1) cur frames
  | .index k :: parts, i, cur, frames =>
    match arrayStep cur k with
    | .error e => (.error e, frames)
    | .ok cur => applyFrom parts (i + 1) cur frames
  | .iter :: parts, i, cur, frames =>
    if jsonIterMaxFrames ≤ frames.length then (.error .oom, frames)
    else
      match iterOpenArray cur with
      | .error e => (.error e, frames)
      | .ok rest =>
        match iterTake false rest with
        | .error .notFound => (.error .notFound, frames)
        | .error e => (.error e, ⟨i, rest, true⟩ :: frames)
        | .ok (first, rest) => applyFrom parts (i + 1) first (⟨i, rest, true⟩ :: frames)
  | .whereHolds holds :: parts, i, cur, frames =>
    if holds cur then applyFrom parts (i + 1) cur frames else (.error .notFound, frames)

/-- The loop of `backtrack_iter`. -/
def backtrackIter (parts : List QueryPart) : (fuel : ℕ) → List IterFrame →
    Except JsonErr JsonNode × List IterFrame
  | 0, frames => (.error .parse, frames)
  | _ + 1, [] => (.error .notFound, [])
  | fuel + 1, f :: frames =>
    match iterTake f.sawFirst f.rest with
    | .error .notFound => backtrackIter parts fuel frames
    | .error e => (.error e, f :: frames)
    | .ok (next, rest) =>
      match applyFrom (parts.drop (f.partIndex + 1)) (f.partIndex + 1) next
        (⟨f.partIndex, rest, true⟩ :: frames) with
      | (.error .notFound, frames) => backtrackIter parts fuel frames
      | r => r

/-- The first result below `root`: `apply_from`, and `backtrack_iter` if it opened an array and found
nothing. -/
def firstResult (parts : List QueryPart) (fuel : ℕ) (root : JsonNode) :
    Except JsonErr JsonNode × List IterFrame :=
  match applyFrom parts 0 root [] with
  | (.error .notFound, f :: frames) => backtrackIter parts fuel (f :: frames)
  | r => r

def resolveParts (src : List UInt8) (parts : List QueryPart) : Except JsonErr JsonNode :=
  match lexValue (skipWs src) with
  | .error e => .error e
  | .ok (root, _) => (firstResult parts (src.length + 1) root).1

/-! ## Queries -/

inductive JsonQuery
  | key (key : List UInt8)
  | index (index : ℕ)
  | iter
  | whereEq (part : List JsonQuery) (rhs : List UInt8) (rhsType : JsonType)

/-- `str_eq_unescaped`, `num_eq_literal` and `bool_eq_literal`: a node against a literal. -/
def JsonNode.eqLiteral (n : JsonNode) (rhs : List UInt8) (rhsType : JsonType) : Bool :=
  match rhsType with
  | .string => n.type = .string && n.flag ≠ .strEscaped && n.s = rhs
  | .number => n.type = .number && n.s = rhs
  | .bool => n.type = .bool && n.s = rhs
  | _ => false

/-- `where_holds`, for the parts of the sub-query. -/
def whereHolds (node : JsonNode) (sub : List QueryPart) (rhs : List UInt8) (rhsType : JsonType) :
    Bool :=
  match resolveParts node.s sub with
  | .error _ => false
  | .ok leaf => leaf.eqLiteral rhs rhsType

mutual

/-- A query as the evaluator runs it. -/
def JsonQuery.part : JsonQuery → QueryPart
  | .key k => .key k
  | .index i => .index i
  | .iter => .iter
  | .whereEq part rhs rhsType =>
    .whereHolds fun node => whereHolds node (JsonQuery.parts part) rhs rhsType

@[inherit_doc JsonQuery.part]
def JsonQuery.parts : List JsonQuery → List QueryPart
  | [] => []
  | q :: rest => q.part :: JsonQuery.parts rest

end

/-- `json_resolve`. -/
def jsonResolve (src : List UInt8) (query : List JsonQuery) : Except JsonErr JsonNode :=
  resolveParts src (JsonQuery.parts query)

structure JsonIter where
  src : List UInt8
  parts : List QueryPart
  frames : List IterFrame
  done : Bool

def jsonIterInit (src : List UInt8) (query : List JsonQuery) : JsonIter :=
  ⟨src, JsonQuery.parts query, [], false⟩

def jsonIterNext (it : JsonIter) : Except JsonErr JsonNode × JsonIter :=
  if it.done then (.error .notFound, it)
  else
    match it.frames with
    | [] =>
      match lexValue (skipWs it.src) with
      | .error e => (.error e, { it with done := true })
      | .ok (root, _) =>
        match applyFrom it.parts 0 root [] with
        | (.ok n, frames) => (.ok n, { it with frames })
        | (.error .notFound, f :: frames) =>
          let r := backtrackIter it.parts (it.src.length + 1) (f :: frames)
          (r.1, { it with frames := r.2 })
        | (.error e, frames) => (.error e, { it with frames, done := true })
    | f :: frames =>
      match backtrackIter it.parts (it.src.length + 1) (f :: frames) with
      | (.ok n, frames) => (.ok n, { it with frames })
      | (.error e, frames) => (.error e, { it with frames, done := true })

/-! ## Conversions -/

def digitsValue (digits : List UInt8) : ℕ := digits.foldl (fun v b => 10 * v + (b.toNat - 0x30)) 0

def fitsBuffer (s : List UInt8) : Bool := s ≠ [] && s.length < 64

def strtoull (s : List UInt8) : Option ℕ :=
  if s.all isDigit && digitsValue s ≤ uint64Max then some (digitsValue s) else none

/-- `strtoll` on the whole of a buffer that starts with a digit or a minus. -/
def strtoll (s : List UInt8) : Option ℤ :=
  match s with
  | [] => none
  | ch :: digits =>
    if ch = 0x2D then
      if digits ≠ [] && digits.all isDigit && digitsValue digits ≤ 2 ^ 63 then
        some (-digitsValue digits)
      else none
    else if s.all isDigit && digitsValue s < 2 ^ 63 then some (digitsValue s) else none

def jsonAsUint (n : JsonNode) : Except JsonErr ℕ :=
  if n.type ≠ .number then .error .type
  else if n.flag = .numFloat ∨ n.s.head? = some 0x2D ∨ fitsBuffer n.s = false then .error .range
  else (strtoull n.s).elim (.error .range) .ok

def jsonAsInt (n : JsonNode) : Except JsonErr ℤ :=
  if n.type ≠ .number then .error .type
  else if n.flag = .numFloat ∨ fitsBuffer n.s = false then .error .range
  else (strtoll n.s).elim (.error .range) .ok

def jsonStrEq (n : JsonNode) (lit : List UInt8) : Bool := n.eqLiteral lit .string

end Damacy

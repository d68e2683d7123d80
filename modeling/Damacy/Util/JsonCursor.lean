import Damacy.Util.Json
import Damacy.Lib.BoundedReads

/-!
# The JSON reader on positions (`util/json.c`)

The same functions as in `Damacy.Util.Json`, as close to the machine as the source is: a `struct
cslice` is a pair of positions in the buffer, every byte is read from the buffer at a position, and a
cursor that a function has advanced stays where it is when the function fails. Every loop may go round
at most `limit` times. `depth` in `skip_container` is an `int` there; it counts without a bound here.
-/

open JsonText BoundedReads

namespace Damacy.Cursor

/-- `struct json_node`. -/
structure Node where
  type : JsonType
  flag : JsonNodeFlag
  s : Slice
deriving DecidableEq, Repr

section Buffer

variable (src : List UInt8) (limit : ℕ)

/-! ## The lexer -/

/-- `!cs_at_end(*c)`, and the first byte has a property. -/
def peekIs (c : Slice) (p : UInt8 → Bool) : Reads Bool :=
  if c.atEnd then .ok false
  else do
    let ch ← read src c.beg
    .ok (p ch)

def advanceWhile (p : UInt8 → Bool) : (fuel : ℕ) → Slice → Reads Slice
  | 0, _ => .error .unbounded
  | fuel + 1, c => do
    if ← peekIs src c p then advanceWhile p fuel (c.advance 1) else .ok c

def skipWs (c : Slice) : Reads Slice := advanceWhile src isWs limit c

/-- The loop over the digits of an escape: it stops at the first byte that is none. -/
def hexDigits (p : ℕ) : ℕ → Reads Bool
  | 0 => .ok true
  | n + 1 => do
    let ch ← read src p
    if isHexDigit ch then hexDigits (p + 1) n else .ok false

/-- The loop of `lex_string_span`. -/
def stringLoop (start : ℕ) : (fuel : ℕ) → JsonNodeFlag → Slice →
    Reads (Option (Slice × JsonNodeFlag) × Slice)
  | 0, _, _ => .error .unbounded
  | fuel + 1, f, c =>
    if c.atEnd then .ok (none, c)
    else do
      let ch ← read src c.beg
      if ch = 0x22 then .ok (some (⟨start, c.beg⟩, f), c.advance 1)
      else if ch = 0x5C then
        let c := c.advance 1
        if c.atEnd then .ok (none, c)
        else do
          let esc ← read src c.beg
          if esc = 0x75 then
            if c.fin - c.beg < 5 then .ok (none, c)
            else if ← hexDigits src (c.beg + 1) 4 then stringLoop start fuel .strEscaped (c.advance 5)
            else .ok (none, c)
          else if isSimpleEscape esc then stringLoop start fuel .strEscaped (c.advance 1)
          else .ok (none, c)
      else if ch < 0x20 then .ok (none, c)
      else stringLoop start fuel f (c.advance 1)

/-- `lex_string_span`: the span and its flag, and the cursor. -/
def lexStringSpan (c : Slice) : Reads (Option (Slice × JsonNodeFlag) × Slice) := do
  if ← peekIs src c (· == 0x22) then stringLoop src (c.beg + 1) limit .none (c.advance 1)
  else .ok (none, c)

/-- The loops over digits in `lex_number_span`. -/
def digitRun (c : Slice) : Reads Slice := advanceWhile src isDigit limit c

def optionalByte (c : Slice) (p : UInt8 → Bool) : Reads Slice := do
  if ← peekIs src c p then .ok (c.advance 1) else .ok c

def lexDigits (c : Slice) : Reads (Bool × Slice) := do
  if ← peekIs src c isDigit then
    let c ← digitRun src limit c
    .ok (true, c)
  else .ok (false, c)

def lexInt (c : Slice) : Reads (Bool × Slice) :=
  if c.atEnd then .ok (false, c)
  else do
    let ch ← read src c.beg
    if ch = 0x30 then .ok (true, c.advance 1)
    else if 0x31 ≤ ch ∧ ch ≤ 0x39 then
      let c ← digitRun src limit c
      .ok (true, c)
    else .ok (false, c)

/-- The fraction of a number, if there is one; the flag is `f` if there is none. -/
def lexFrac (f : JsonNodeFlag) (c : Slice) : Reads (Option JsonNodeFlag × Slice) := do
  if ← peekIs src c (· == 0x2E) then
    let r ← lexDigits src limit (c.advance 1)
    .ok (if r.1 then some .numFloat else none, r.2)
  else .ok (some f, c)

/-- The exponent of a number, if there is one; the flag is `f` if there is none. -/
def lexExp (f : JsonNodeFlag) (c : Slice) : Reads (Option JsonNodeFlag × Slice) := do
  if ← peekIs src c (fun ch => ch == 0x65 || ch == 0x45) then
    let c ← optionalByte src (c.advance 1) (fun ch => ch == 0x2B || ch == 0x2D)
    let r ← lexDigits src limit c
    .ok (if r.1 then some .numFloat else none, r.2)
  else .ok (some f, c)

def lexNumberSpan (c : Slice) : Reads (Option (Slice × JsonNodeFlag) × Slice) := do
  let sign ← optionalByte src c (· == 0x2D)
  let int ← lexInt src limit sign
  if int.1 = false then .ok (none, int.2)
  else do
    let frac ← lexFrac src limit .none int.2
    match frac.1 with
    | none => .ok (none, frac.2)
    | some f => do
      let exp ← lexExp src limit f frac.2
      .ok (exp.1.map fun f => (⟨c.beg, exp.2.beg⟩, f), exp.2)

def lexKeyword (kw : List UInt8) (c : Slice) : Reads (Bool × Slice) :=
  if c.fin - c.beg < kw.length then .ok (false, c)
  else do
    let bytes ← readBytes src c.beg kw.length
    if bytes = kw then .ok (true, c.advance kw.length) else .ok (false, c)

/-- The loop of `skip_container`. -/
def skipLoop (opening closing : UInt8) : (fuel depth : ℕ) → Slice → Reads (Bool × Slice)
  | 0, _, _ => .error .unbounded
  | fuel + 1, depth, c =>
    if c.atEnd then .ok (false, c)
    else do
      let ch ← read src c.beg
      if ch = 0x22 then
        let r ← lexStringSpan src limit c
        match r.1 with
        | none => .ok (false, c)
        | some _ => skipLoop opening closing fuel depth r.2
      else if ch = opening then skipLoop opening closing fuel (depth + 1) (c.advance 1)
      else if ch = closing then
        if depth - 1 = 0 then .ok (true, c.advance 1)
        else skipLoop opening closing fuel (depth - 1) (c.advance 1)
      else skipLoop opening closing fuel depth (c.advance 1)

def skipContainer (c : Slice) : Reads (Bool × Slice) :=
  if c.atEnd then .ok (false, c)
  else do
    let opening ← read src c.beg
    if opening = 0x7B then skipLoop src limit opening 0x7D limit 0 c
    else if opening = 0x5B then skipLoop src limit opening 0x5D limit 0 c
    else .ok (false, c)

def passed (type : JsonType) (c : Slice) (r : Bool × Slice) : Except JsonErr Node × Slice :=
  (if r.1 then .ok ⟨type, .none, ⟨c.beg, r.2.beg⟩⟩ else .error .parse, r.2)

def spanned (type : JsonType) (r : Option (Slice × JsonNodeFlag) × Slice) :
    Except JsonErr Node × Slice :=
  (match r.1 with
    | none => .error .parse
    | some (span, flag) => .ok ⟨type, flag, span⟩, r.2)

def lexValue (c : Slice) : Reads (Except JsonErr Node × Slice) :=
  if c.atEnd then .ok (.error .parse, c)
  else do
    let ch ← read src c.beg
    if ch = 0x7B then passed .object c <$> skipContainer src limit c
    else if ch = 0x5B then passed .array c <$> skipContainer src limit c
    else if ch = 0x22 then spanned .string <$> lexStringSpan src limit c
    else if ch = 0x74 then passed .bool c <$> lexKeyword src kwTrue c
    else if ch = 0x66 then passed .bool c <$> lexKeyword src kwFalse c
    else if ch = 0x6E then passed .null c <$> lexKeyword src kwNull c
    else if ch = 0x2D ∨ isDigit ch then spanned .number <$> lexNumberSpan src limit c
    else .ok (.error .parse, c)

/-! ## Objects and arrays -/

/-- The bytes of a span against a literal, as `memcmp` compares them once the lengths are equal. -/
def spanEq (s : Slice) (lit : List UInt8) : Reads Bool :=
  if s.fin - s.beg = lit.length then do
    let bytes ← readBytes src s.beg lit.length
    .ok (bytes = lit)
  else .ok false

/-- The key of a member, up to where its value starts: its span and its flag, and the cursor. -/
def memberKey (c : Slice) : Reads (Option (Slice × JsonNodeFlag) × Slice) := do
  let c ← skipWs src limit c
  match ← lexStringSpan src limit c with
  | (none, c) => .ok (none, c)
  | (some key, c) => do
    let c ← skipWs src limit c
    if !(← peekIs src c (· == 0x3A)) then .ok (none, c)
    else do
      let c ← skipWs src limit (c.advance 1)
      .ok (some key, c)

def keyMatches (span : Slice) (flag : JsonNodeFlag) (key : List UInt8) : Reads Bool :=
  if flag ≠ .strEscaped then spanEq src span key else .ok false

/-- The loop of `object_step`. -/
def objectLoop (key : List UInt8) : (fuel : ℕ) → Slice → Reads (Except JsonErr Node)
  | 0, _ => .error .unbounded
  | fuel + 1, c => do
    match ← memberKey src limit c with
    | (none, _) => .ok (.error .parse)
    | (some (span, flag), c) => do
      let matched ← keyMatches src span flag key
      match ← lexValue src limit c with
      | (.error e, _) => .ok (.error e)
      | (.ok value, c) =>
        if matched then .ok (.ok value)
        else do
          let c ← skipWs src limit c
          if c.atEnd then .ok (.error .parse)
          else do
            let ch ← read src c.beg
            if ch = 0x2C then objectLoop key fuel (c.advance 1)
            else if ch = 0x7D then .ok (.error .notFound)
            else .ok (.error .parse)

def objectStep (node : Node) (key : List UInt8) : Reads (Except JsonErr Node) :=
  if node.type ≠ .object then .ok (.error .type)
  else do
    if !(← peekIs src node.s (· == 0x7B)) then .ok (.error .parse)
    else do
      let c ← skipWs src limit (node.s.advance 1)
      if ← peekIs src c (· == 0x7D) then .ok (.error .notFound)
      else objectLoop src limit key limit c

/-- The loop of `array_step`, with `want - i` elements still to pass. -/
def arrayLoop : (fuel want : ℕ) → Slice → Reads (Except JsonErr Node)
  | 0, _, _ => .error .unbounded
  | fuel + 1, want, c => do
    let c ← skipWs src limit c
    let value ← lexValue src limit c
    match value with
    | (.error e, _) => .ok (.error e)
    | (.ok value, c) =>
      if want = 0 then .ok (.ok value)
      else do
        let c ← skipWs src limit c
        if c.atEnd then .ok (.error .parse)
        else do
          let ch ← read src c.beg
          if ch = 0x2C then arrayLoop fuel (want - 1) (c.advance 1)
          else if ch = 0x5D then .ok (.error .notFound)
          else .ok (.error .parse)

def arrayStep (node : Node) (want : ℕ) : Reads (Except JsonErr Node) :=
  if node.type ≠ .array then .ok (.error .type)
  else do
    if !(← peekIs src node.s (· == 0x5B)) then .ok (.error .parse)
    else do
      let c ← skipWs src limit (node.s.advance 1)
      if ← peekIs src c (· == 0x5D) then .ok (.error .notFound)
      else arrayLoop src limit limit want c

/-! ## The evaluator -/

/-- A part of a query; a `QUERY_WHERE` part holds its predicate. -/
inductive Part
  | key (key : List UInt8)
  | index (index : ℕ)
  | iter
  | whereHolds (holds : Node → Reads Bool)

/-- `struct json_iter_frame`. -/
structure Frame where
  partIndex : ℕ
  rest : Slice
  sawFirst : Bool
deriving DecidableEq, Repr

def iterOpenArray (arr : Node) : Reads (Except JsonErr Slice) :=
  if arr.type ≠ .array then .ok (.error .type)
  else do
    if !(← peekIs src arr.s (· == 0x5B)) then .ok (.error .parse)
    else .ok (.ok (arr.s.advance 1))

/-- `iter_take`: the next element, and what the frame keeps of `rest` and `saw_first`. -/
def iterTake (f : Frame) : Reads (Except JsonErr Node × Frame) := do
  let c ← skipWs src limit f.rest
  if c.atEnd then .ok (.error .parse, { f with rest := c })
  else do
    let ch ← read src c.beg
    if ch = 0x5D then .ok (.error .notFound, { f with rest := c.advance 1 })
    else if f.sawFirst then
      if ch ≠ 0x2C then .ok (.error .parse, { f with rest := c })
      else do
        let c ← skipWs src limit (c.advance 1)
        let r ← lexValue src limit c
        .ok (r.1, { f with rest := r.2 })
    else do
      let r ← lexValue src limit c
      .ok (r.1, { f with rest := r.2, sawFirst := true })

/-- `apply_from`, with the parts from index `i` on and the stack of frames, innermost first. -/
def applyFrom : (parts : List Part) → (i : ℕ) → Node → List Frame →
    Reads (Except JsonErr Node × List Frame)
  | [], _, cur, frames => .ok (.ok cur, frames)
  | .key k :: parts, i, cur, frames => do
    match ← objectStep src limit cur k with
    | .error e => .ok (.error e, frames)
    | .ok cur => applyFrom parts (i + 1) cur frames
  | .index k :: parts, i, cur, frames => do
    match ← arrayStep src limit cur k with
    | .error e => .ok (.error e, frames)
    | .ok cur => applyFrom parts (i + 1) cur frames
  | .iter :: parts, i, cur, frames =>
    if jsonIterMaxFrames ≤ frames.length then .ok (.error .oom, frames)
    else do
      match ← iterOpenArray src cur with
      | .error e => .ok (.error e, frames)
      | .ok rest => do
        match ← iterTake src limit ⟨i, rest, false⟩ with
        | (.error .notFound, _) => .ok (.error .notFound, frames)
        | (.error e, f) => .ok (.error e, f :: frames)
        | (.ok first, f) => applyFrom parts (i + 1) first (f :: frames)
  | .whereHolds holds :: parts, i, cur, frames => do
    if ← holds cur then applyFrom parts (i + 1) cur frames else .ok (.error .notFound, frames)

/-- The loop of `backtrack_iter`. -/
def backtrackIter (parts : List Part) : (fuel : ℕ) → List Frame →
    Reads (Except JsonErr Node × List Frame)
  | 0, _ => .error .unbounded
  | _ + 1, [] => .ok (.error .notFound, [])
  | fuel + 1, f :: frames => do
    match ← iterTake src limit f with
    | (.error .notFound, _) => backtrackIter parts fuel frames
    | (.error e, f) => .ok (.error e, f :: frames)
    | (.ok next, f) => do
      match ← applyFrom src limit (parts.drop (f.partIndex + 1)) (f.partIndex + 1) next
        (f :: frames) with
      | (.error .notFound, frames) => backtrackIter parts fuel frames
      | r => .ok r

/-- `json_resolve` on a slice of the buffer. -/
def resolveParts (parts : List Part) (s : Slice) : Reads (Except JsonErr Node) := do
  let c ← skipWs src limit s
  match ← lexValue src limit c with
  | (.error e, _) => .ok (.error e)
  | (.ok root, _) => do
    match ← applyFrom src limit parts 0 root [] with
    | (.error .notFound, f :: frames) => do
      let r ← backtrackIter src limit parts limit (f :: frames)
      .ok r.1
    | r => .ok r.1

/-! ## Queries -/

/-- `str_eq_unescaped`, `num_eq_literal` and `bool_eq_literal`. -/
def eqLiteral (n : Node) (rhs : List UInt8) (rhsType : JsonType) : Reads Bool :=
  match rhsType with
  | .string => if n.type ≠ .string ∨ n.flag = .strEscaped then .ok false else spanEq src n.s rhs
  | .number => if n.type ≠ .number then .ok false else spanEq src n.s rhs
  | .bool => if n.type ≠ .bool then .ok false else spanEq src n.s rhs
  | _ => .ok false

mutual

/-- A query as the evaluator runs it; a `QUERY_WHERE` part resolves its own query (`where_holds`). -/
def part : JsonQuery → Part
  | .key k => .key k
  | .index i => .index i
  | .iter => .iter
  | .whereEq q rhs rhsType => .whereHolds fun node => do
    match ← resolveParts src limit (parts q) node.s with
    | .error _ => .ok false
    | .ok leaf => eqLiteral src leaf rhs rhsType

@[inherit_doc part]
def parts : List JsonQuery → List Part
  | [] => []
  | q :: rest => part q :: parts rest

end

def jsonResolve (query : List JsonQuery) : Reads (Except JsonErr Node) :=
  resolveParts src limit (parts src limit query) ⟨0, src.length⟩

/-- `struct json_iter`. -/
structure Iter where
  parts : List Part
  frames : List Frame
  done : Bool

def jsonIterInit (query : List JsonQuery) : Iter := ⟨parts src limit query, [], false⟩

def jsonIterNext (it : Iter) : Reads (Except JsonErr Node × Iter) :=
  if it.done then .ok (.error .notFound, it)
  else
    match it.frames with
    | [] => do
      let c ← skipWs src limit ⟨0, src.length⟩
      match ← lexValue src limit c with
      | (.error e, _) => .ok (.error e, { it with done := true })
      | (.ok root, _) => do
        match ← applyFrom src limit it.parts 0 root [] with
        | (.ok n, frames) => .ok (.ok n, { it with frames })
        | (.error .notFound, f :: frames) => do
          let r ← backtrackIter src limit it.parts limit (f :: frames)
          .ok (r.1, { it with frames := r.2 })
        | (.error e, frames) => .ok (.error e, { it with frames, done := true })
    | f :: frames => do
      match ← backtrackIter src limit it.parts limit (f :: frames) with
      | (.ok n, frames) => .ok (.ok n, { it with frames })
      | (.error e, frames) => .ok (.error e, { it with frames, done := true })

def jsonIterCalls : (calls : ℕ) → Iter → Reads (List (Except JsonErr Node) × Iter)
  | 0, it => .ok ([], it)
  | calls + 1, it => do
    let r ← jsonIterNext src limit it
    let rest ← jsonIterCalls calls r.2
    .ok (r.1 :: rest.1, rest.2)

end Buffer

end Damacy.Cursor

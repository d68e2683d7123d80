import Mathlib.Data.List.TakeWhile
import Damacy.Lib.LexicalPath
import Damacy.Ngff.ReadString
import Damacy.Zarr.Parse

/-!
# The levels of an image (`ngff/metadata.c`)

A level of a multiscale image names its array by a path relative to the image. `read_level` reads
the path from the metadata, checks it, and joins it to the uri of the image.

Whether there is memory is a parameter of each function that allocates. Doubles are bit patterns.
-/

open List JsonText LexicalPath

namespace Damacy

/-! ## Members -/

structure JsonObjectIter where
  remaining : List UInt8
  first : Bool

def jsonObjectIterInit (node : JsonNode) : Except JsonErr JsonObjectIter :=
  if node.type ≠ .object then .error .type
  else if node.s.length < 2 ∨ node.s.head? ≠ some 0x7B ∨ node.s.getLast? ≠ some 0x7D then .error .parse
  else .ok ⟨node.s.tail, true⟩

def skipSeparator (first : Bool) : List UInt8 → Option (List UInt8)
  | cursor =>
    if first then some cursor
    else if cursor.head? ≠ some 0x2C then none
    else some (skipWs cursor.tail)

/-- A key, its colon and the value, in `json_object_iter_next`. -/
def lexMember (cursor : List UInt8) : Except JsonErr (JsonNode × JsonNode × List UInt8) :=
  match lexStringSpan cursor with
  | none => .error .parse
  | some (s, flag, cursor) =>
    match skipWs cursor with
    | [] => .error .parse
    | ch :: cursor =>
      if ch ≠ 0x3A then .error .parse
      else (lexValue (skipWs cursor)).map fun r => (⟨.string, flag, s⟩, r.1, r.2)

/-- `json_object_iter_next`: the key, the value and the iterator behind them. -/
def jsonObjectIterNext (it : JsonObjectIter) :
    Except JsonErr (JsonNode × JsonNode × JsonObjectIter) :=
  match skipWs it.remaining with
  | [] => .error .parse
  | ch :: cursor =>
    if ch = 0x7D then .error .notFound
    else
      match skipSeparator it.first (ch :: cursor) with
      | none => .error .parse
      | some cursor => (lexMember cursor).map fun r => (r.1, r.2.1, ⟨r.2.2, false⟩)

def memberLoop (malloc : ℕ → Bool) (key : CString) :
    (fuel turn : ℕ) → (found : Option JsonNode) → JsonObjectIter → Except JsonErr JsonNode
  | 0, _, _, _ => .error .parse
  | fuel + 1, turn, found, it =>
    match jsonObjectIterNext it with
    | .error .notFound => found.elim (.error .notFound) .ok
    | .error e => .error e
    | .ok (name, value, it) =>
      match readString (malloc turn) name with
      | .error .oom => .error .oom
      | .error _ => memberLoop malloc key fuel (turn + 1) found it
      | .ok text =>
        if text ≠ key then memberLoop malloc key fuel (turn + 1) found it
        else if found.isSome then .error .parse
        else memberLoop malloc key fuel (turn + 1) (some value) it

def member (malloc : ℕ → Bool) (node : JsonNode) (key : CString) : Except JsonErr JsonNode := do
  let it ← jsonObjectIterInit node
  memberLoop malloc key (node.s.length + 1) 0 none it

def stringEqual (malloc : Bool) (node : JsonNode) (expected : CString) : Bool :=
  match readString malloc node with
  | .ok text => text = expected
  | .error _ => false

/-! ## Transformations -/

/-- The `double` operations that the reader of a transformation uses, on bit patterns. -/
structure VectorOps extends DoubleOps where
  isFinite : ℕ → Bool
  nonpos : ℕ → Bool

def elements (node : JsonNode) : Except JsonErr JsonIter :=
  if node.type ≠ .array then .error .type else .ok (jsonIterInit node.s [.iter])

/-- The loop of `read_vector`. -/
def readVectorLoop (ops : VectorOps) : (rank : ℕ) → JsonIter → Option (List ℕ)
  | 0, it => if (jsonIterNext it).1 = .error .notFound then some [] else none
  | rank + 1, it => do
    let value ← (jsonIterNext it).1.toOption
    let v ← jsonAsDouble ops.toDoubleOps value
    if !ops.isFinite v then none
    else (readVectorLoop ops rank (jsonIterNext it).2).map (v :: ·)

def readVector (ops : VectorOps) (node : JsonNode) (rank : ℕ) : Option (List ℕ) :=
  (elements node).toOption.bind (readVectorLoop ops rank)

/-- What `read_transform` has read so far. -/
structure Transform where
  count : ℕ
  scale : List ℕ
  translation : List ℕ

def readTransformElement (ops : VectorOps) (malloc : ℕ → ℕ → Bool) (rank : ℕ) (transform : JsonNode)
    (t : Transform) : Except Status Transform :=
  match member (malloc 0) transform (cstr "type") with
  | .error _ => .error .inval
  | .ok type =>
    let key := if t.count = 0 then cstr "scale" else cstr "translation"
    if 1 < t.count ∨ stringEqual (malloc 1 0) type key = false then .error .unsupported
    else if member (malloc 2) transform (cstr "path") ≠ .error .notFound then .error .unsupported
    else
      match member (malloc 3) transform key with
      | .error _ => .error .inval
      | .ok value =>
        match readVector ops value rank with
        | none => .error .inval
        | some values =>
          .ok (if t.count = 0 then { t with count := 1, scale := values }
            else { t with count := t.count + 1, translation := values })

/-- The loop of `read_transform`. -/
def readTransformLoop (ops : VectorOps) (malloc : ℕ → ℕ → ℕ → Bool) (rank : ℕ) :
    (fuel turn : ℕ) → JsonIter → Transform → Except Status Transform
  | 0, _, _, _ => .error .inval
  | fuel + 1, turn, it, t =>
    match jsonIterNext it with
    | (.error .notFound, _) => if t.count = 0 then .error .inval else .ok t
    | (.error _, _) => .error .inval
    | (.ok transform, it) => do
      let t ← readTransformElement ops (malloc turn) rank transform t
      readTransformLoop ops malloc rank fuel (turn + 1) it t

/-- `read_transform`; a level starts out as zeros. -/
def readTransform (ops : VectorOps) (malloc : ℕ → ℕ → ℕ → Bool) (node : JsonNode) (rank : ℕ) :
    Except Status (List ℕ × List ℕ) :=
  match elements node with
  | .error _ => .error .inval
  | .ok it => do
    let zeros := List.replicate rank 0
    let t ← readTransformLoop ops malloc rank (node.s.length + 1) 0 it ⟨0, zeros, zeros⟩
    if t.scale.any ops.nonpos then .error .inval else .ok (t.scale, t.translation)

/-! ## Paths -/

/-- The loop of `relative_path`, from the start of a component. -/
def relativePathLoop (p : List UInt8) : Bool :=
  let component := p.takeWhile (· ≠ 0x2F)
  let rest := p.dropWhile (· ≠ 0x2F)
  if component = [] ∨ component = [0x2E] ∨ component = [0x2E, 0x2E] then false
  else if rest = [] then true
  else relativePathLoop rest.tail
termination_by p.length
decreasing_by
  have hle : rest.length ≤ p.length := (dropWhile_suffix _).length_le
  have hpos := length_pos_iff.2 ‹¬ rest = []›
  have htail : rest.tail.length = rest.length - 1 := length_tail
  show rest.tail.length < p.length
  omega

def relativePath (path : CString) : Bool :=
  if path = [] ∨ path.head? = some 0x2F ∨ 0x5C ∈ path ∨ 0x3A ∈ path then false
  else relativePathLoop path

/-- The uri that `read_level` joins. -/
def joinUri (uri path : CString) : CString :=
  uri ++ (if uri ≠ [] ∧ uri.getLast? ≠ some 0x2F then [0x2F] else []) ++ path

/-- `struct damacy_ngff_level`, as far as the metadata of the group has it. -/
structure NgffLevel where
  uri : CString
  scaleToReference : List ℕ
  originReferenceIndex : List ℕ

/-- The memory that `read_level` finds. -/
structure LevelMemory where
  path : ℕ → Bool
  text : Bool
  joined : Bool
  transformations : ℕ → Bool
  transforms : ℕ → ℕ → ℕ → Bool

/-- `read_level`, as far as it sets the uri. -/
def readLevelUri (memory : LevelMemory) (node : JsonNode) (uri : CString) : Except Status CString :=
  match member memory.path node (cstr "path") with
  | .error _ => .error .inval
  | .ok value => do
    let path ← readString memory.text value
    if !relativePath path then .error .inval
    else if u64Sub (u64Sub uint64Max path.length) 2 < uri.length then .error .budget
    else if !memory.joined then .error .oom
    else .ok (joinUri uri path)

def readLevel (ops : VectorOps) (memory : LevelMemory) (node : JsonNode) (uri : CString) (rank : ℕ) :
    Except Status NgffLevel := do
  let joined ← readLevelUri memory node uri
  match member memory.transformations node (cstr "coordinateTransformations") with
  | .error _ => .error .inval
  | .ok value => do
    let t ← readTransform ops memory.transforms value rank
    .ok ⟨joined, t.1, t.2⟩

/-! ## Accepted paths -/

def NamesChild (component : List UInt8) : Prop :=
  component ≠ [] ∧ component ≠ cstr "." ∧ component ≠ cstr ".."

theorem splitOn_takeWhile (p : List UInt8) : p.splitOn 0x2F = p.takeWhile (· ≠ 0x2F) ::
    if p.dropWhile (· ≠ 0x2F) = [] then [] else (p.dropWhile (· ≠ 0x2F)).tail.splitOn 0x2F := by
  have hnot : 0x2F ∉ p.takeWhile (· ≠ 0x2F) := fun h => by
    simpa using mem_takeWhile_imp h
  conv_lhs => rw [← takeWhile_append_dropWhile (p := (· ≠ 0x2F)) (l := p)]
  split_ifs with hrest
  · rw [hrest, append_nil, splitOn_eq_singleton hnot]
  · obtain ⟨x, rest, hcons⟩ := exists_cons_of_ne_nil hrest
    have hx : x = 0x2F := by
      have hhead := head_dropWhile_not (fun x => decide (x ≠ 0x2F)) hrest
      simp only [hcons, head_cons] at hhead
      simpa using hhead
    rw [hcons, hx, tail_cons, splitOn_append_cons_self_of_not_mem hnot]

theorem relativePathLoop_iff (p : List UInt8) :
    relativePathLoop p = true ↔ ∀ component ∈ p.splitOn 0x2F, NamesChild component := by
  fun_induction relativePathLoop p with
  | case1 p component hbad =>
    rw [splitOn_takeWhile, forall_mem_cons]
    refine iff_of_false (by simp) fun h => ?_
    rcases hbad with hnil | hdot | hdots
    · exact h.1.1 hnil
    · exact h.1.2.1 hdot
    · exact h.1.2.2 hdots
  | case2 p component rest hbad hrest =>
    rw [splitOn_takeWhile, forall_mem_cons, if_pos hrest]
    rw [not_or, not_or] at hbad
    exact iff_of_true rfl ⟨hbad, nofun⟩
  | case3 p component rest hbad hrest ih =>
    rw [splitOn_takeWhile, forall_mem_cons, if_neg hrest, ih]
    rw [not_or, not_or] at hbad
    exact (and_iff_right hbad).symm

theorem relativePath_iff (path : CString) : relativePath path = true ↔
    path ≠ [] ∧ 0x5C ∉ path ∧ 0x3A ∉ path ∧ ∀ component ∈ path.splitOn 0x2F, NamesChild component := by
  rw [relativePath]
  split_ifs with hbad
  · refine iff_of_false (by simp) ?_
    rintro ⟨hne, hbackslash, hcolon, hchild⟩
    rcases hbad with hnil | hslash | hmem | hmem
    · exact hne hnil
    · -- a leading slash is an empty component
      obtain ⟨rest, rfl⟩ : ∃ rest, path = 0x2F :: rest := by
        cases path with
        | nil => cases hslash
        | cons x rest => exact ⟨rest, by rw [Option.some.inj hslash]⟩
      refine (hchild [] ?_).1 rfl
      rw [splitOn_cons_eq_if_modifyHead]
      exact mem_cons_self
    · exact hbackslash hmem
    · exact hcolon hmem
  · simp only [not_or] at hbad
    rw [relativePathLoop_iff]
    tauto

/-! ## Confinement -/

def componentMove (component : List UInt8) : Move (List UInt8) :=
  if component = [] ∨ component = cstr "." then .stay
  else if component = cstr ".." then .parent
  else .name component

def uriMoves (uri : CString) : List (Move (List UInt8)) := (uri.splitOn 0x2F).map componentMove

def uriStart (uri : CString) : Place (List UInt8) := ⟨uri.head? = some 0x2F, 0, []⟩

def uriPlace (uri : CString) : Place (List UInt8) := (uriStart uri).walk (uriMoves uri)

theorem componentMove_child {component : List UInt8} (h : NamesChild component) :
    componentMove component = .name component := by
  rw [componentMove, if_neg (by simp [h.1, h.2.1]), if_neg h.2.2]

theorem uriMoves_child {path : CString} (h : ∀ component ∈ path.splitOn 0x2F, NamesChild component) :
    uriMoves path = (path.splitOn 0x2F).map .name :=
  map_congr_left fun component hmem => componentMove_child (h component hmem)

theorem uriMoves_joinUri (uri path : CString) : ∃ moves,
    uriMoves (joinUri uri path) = moves ++ uriMoves path ∧
      ∀ p : Place (List UInt8), p.walk moves = p.walk (uriMoves uri) := by
  have hslash (front : CString) :
      uriMoves (front ++ 0x2F :: path) = uriMoves front ++ uriMoves path := by
    rw [uriMoves, splitOn_append_cons_self, map_append]
    rfl
  rw [joinUri]
  split_ifs with hjoin
  · exact ⟨uriMoves uri, by rw [append_assoc, ← hslash]; rfl, fun _ => rfl⟩
  · rw [append_nil]
    rcases eq_nil_or_concat' uri with rfl | ⟨front, x, rfl⟩
    · exact ⟨[], rfl, fun p => rfl⟩
    · -- the last component of the uri is empty
      obtain rfl : x = 0x2F := by simpa using hjoin
      refine ⟨uriMoves front, by rw [← hslash, append_assoc]; rfl, fun p => ?_⟩
      have hfront : uriMoves (front ++ [0x2F]) = uriMoves front ++ [.stay] := by
        rw [uriMoves, splitOn_append_cons_self, map_append]
        rfl
      rw [hfront, Place.walk_append]
      rfl

theorem uriStart_joinUri {uri path : CString} (h : relativePath path = true) :
    uriStart (joinUri uri path) = uriStart uri := by
  rcases uri with _ | ⟨x, uri⟩
  · have hhead : path.head? ≠ some 0x2F := by
      intro hslash
      rw [relativePath, if_pos (.inr (.inl hslash))] at h
      cases h
    simpa [uriStart, joinUri] using hhead
  · rfl

theorem readLevelUri_ok {memory : LevelMemory} {node : JsonNode} {uri joined : CString}
    (h : readLevelUri memory node uri = .ok joined) :
    ∃ path, relativePath path = true ∧ joined = joinUri uri path := by
  rw [readLevelUri] at h
  split at h
  · cases h
  · rename_i value _
    cases htext : readString memory.text value with
    | error e =>
      rw [htext] at h
      cases h
    | ok path =>
      simp only [htext, bind, Except.bind] at h
      split_ifs at h with hpath
      exact ⟨path, by simpa using hpath, (Except.ok.inj h).symm⟩

theorem readLevel_uri {ops : VectorOps} {memory : LevelMemory} {node : JsonNode} {uri : CString}
    {rank : ℕ} {level : NgffLevel} (h : readLevel ops memory node uri rank = .ok level) :
    readLevelUri memory node uri = .ok level.uri := by
  rw [readLevel] at h
  cases huri : readLevelUri memory node uri with
  | error e =>
    rw [huri] at h
    cases h
  | ok joined =>
    simp only [huri, bind, Except.bind] at h
    split at h
    · cases h
    · split at h
      · cases h
      · obtain rfl := Except.ok.inj h
        rfl

/-- **Levels stay below their image.** `relative_path` accepts the paths whose components all name
something below, and nothing else. The walk along a uri that `read_level` joins reaches the directory
of the image after the moves of its uri, and from then on every place that it passes is inside. -/
theorem readLevel_confined :
    (∀ path, relativePath path = true ↔ path ≠ [] ∧ 0x5C ∉ path ∧ 0x3A ∉ path ∧
      ∀ component ∈ path.splitOn 0x2F,
        component ≠ [] ∧ component ≠ cstr "." ∧ component ≠ cstr "..") ∧
      (∀ ops memory node uri rank level, readLevel ops memory node uri rank = .ok level →
        readLevelUri memory node uri = .ok level.uri) ∧
      (∀ memory node uri joined, readLevelUri memory node uri = .ok joined →
        ∃ path, relativePath path = true ∧ joined = joinUri uri path) ∧
      ∀ uri path, relativePath path = true → ∃ n ≤ (uriMoves (joinUri uri path)).length,
        (uriStart (joinUri uri path)).walk ((uriMoves (joinUri uri path)).take n) = uriPlace uri ∧
          ∀ k, n ≤ k → (uriPlace uri).Inside
            ((uriStart (joinUri uri path)).walk ((uriMoves (joinUri uri path)).take k)) := by
  refine ⟨relativePath_iff, fun _ _ _ _ _ _ => readLevel_uri, fun _ _ _ _ => readLevelUri_ok,
    fun uri path hpath => ?_⟩
  obtain ⟨moves, hmoves, hwalk⟩ := uriMoves_joinUri uri path
  have hchild := ((relativePath_iff path).1 hpath).2.2.2
  rw [uriStart_joinUri hpath, hmoves]
  refine ⟨moves.length, by simp, ?_, fun k hk => ?_⟩
  · rw [take_left, hwalk]
    rfl
  · rw [take_append, take_of_length_le hk, Place.walk_append, hwalk, uriMoves_child hchild,
      ← map_take]
    exact Place.inside_walk_names _ _

end Damacy

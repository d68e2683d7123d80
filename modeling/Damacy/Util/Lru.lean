import Damacy.Lib.Atomic
import Damacy.Lib.ProbeTable
import Damacy.Types

/-!
# The LRU cache (`util/lru.c`)

A fixed array of slots, a robin-hood index of slot numbers, a list of the live slots in order of
use and a list of the free ones. Entries with a refcount above zero are pinned: they are not
evicted and their index cell does not move. Lookups, insertions and `lru_entry_acquire_locked` run
under the caller's mutex; `lru_entry_release` does not, so a refcount may drop between any two
loads of an operation. The operations are therefore programs of atomic actions, one for every
refcount that is loaded and one for every group of writes that the mutex protects.

A pointer to an entry is the number of its slot and a list of entries the list of their numbers;
`LRU_NIL` and `NULL` are `none`. `destroyed` lists the calls of `ops.destroy`. The loops without a
bound of their own take fuel and report `diverged` when it does not suffice.
-/

open Atomic ProbeTable

namespace Damacy

/-! ## The cache -/

def nextPow2Ge (v : ℕ) : ℕ :=
  if v < 2 then 2
  else
    let v := v - 1
    let v := v ||| (v >>> 1)
    let v := v ||| (v >>> 2)
    let v := v ||| (v >>> 4)
    let v := v ||| (v >>> 8)
    let v := v ||| (v >>> 16)
    u32 (v + 1)

/-- The arguments that `lru_create` accepts. Above `2 ^ 30` entries the number of cells is no
`uint32_t`. -/
structure LruConfig where
  capacity : ℕ
  maxProbe : ℕ
  capacity_pos : 0 < capacity := by decide
  capacity_le : capacity ≤ 2 ^ 30 := by decide
  maxProbe_pos : 0 < maxProbe := by decide
  maxProbe_le : maxProbe ≤ uint32Max := by decide

/-- `index.n_cells`. -/
def LruConfig.nCells (cfg : LruConfig) : ℕ := nextPow2Ge (u32 (2 * cfg.capacity))

/-- The part of `struct lru_entry` that the mutex protects. -/
structure LruEntry (V : Type) where
  hash : ℕ
  value : Option V

structure LruCounters where
  hits : ℕ
  misses : ℕ
  insertions : ℕ
  evictions : ℕ
  replacements : ℕ
  putFailures : ℕ
deriving DecidableEq, Repr

structure Lru (V : Type) where
  slots : ℕ → LruEntry V
  refcount : ℕ → ℕ
  cells : ℕ → Option ℕ
  maxProbeObserved : ℕ
  order : List ℕ
  freelist : List ℕ
  size : ℕ
  counters : LruCounters
  destroyed : List V

variable {K V : Type}

def lruCreate (cfg : LruConfig) : Lru V :=
  { slots := fun _ => ⟨0, none⟩
    refcount := fun _ => 0
    cells := fun _ => none
    maxProbeObserved := 0
    order := []
    freelist := (List.range cfg.capacity).reverse
    size := 0
    counters := ⟨0, 0, 0, 0, 0, 0⟩
    destroyed := [] }

def idealCell (cfg : LruConfig) (hash : ℕ) : ℕ := hash % cfg.nCells

def Lru.home (cfg : LruConfig) (s : Lru V) (slot : ℕ) : ℕ := idealCell cfg (s.slots slot).hash

/-- `probe_dist` of a slot in a cell. -/
def Lru.probeDist (cfg : LruConfig) (s : Lru V) (cell slot : ℕ) : ℕ :=
  dist cfg.nCells cell (s.home cfg slot)

namespace Lru

def values (s : Lru V) : List V := s.order.filterMap fun i => (s.slots i).value

def count (f : LruCounters → LruCounters) (s : Lru V) : Lru V := { s with counters := f s.counters }

def destroy (value : Option V) (s : Lru V) : Lru V :=
  { s with destroyed := s.destroyed ++ value.toList }

def slotClear (slot : ℕ) (s : Lru V) : Lru V :=
  { s with
    slots := Function.update s.slots slot ⟨0, none⟩
    refcount := Function.update s.refcount slot 0 }

/-- `list_promote` on `lru_order`. -/
def promote (slot : ℕ) (s : Lru V) : Lru V := { s with order := slot :: s.order.erase slot }

def freelistPush (slot : ℕ) (s : Lru V) : Lru V := { s with freelist := slot :: s.freelist }

def setCell (cell : ℕ) (slot : Option ℕ) (s : Lru V) : Lru V :=
  { s with cells := Function.update s.cells cell slot }

end Lru

/-! ## The index -/

/-- What `index_insert_robin` ends with. -/
inductive InsertResult
  | placed
  | orphan (slot : ℕ)
  | diverged
deriving DecidableEq, Repr

/-- The writes of `index_insert_robin` to a cell it takes. -/
def takeCell (cell slot probe : ℕ) (s : Lru V) : Lru V :=
  { s.setCell cell (some slot) with
    maxProbeObserved := if s.maxProbeObserved < probe then probe else s.maxProbeObserved }

/-- The loop of `index_insert_robin`. -/
def robinLoop (cfg : LruConfig) : ℕ → ℕ → ℕ → ℕ → Prog (Lru V) InsertResult
  | 0, _, _, _ => .done .diverged
  | fuel + 1, carry, probe, cell =>
    if cfg.maxProbe < probe then .done (.orphan carry)
    else .act id fun s =>
      match s.cells cell with
      | none => .act (takeCell cell carry probe) fun _ => .done .placed
      | some incumbent =>
        let incumbentProbe := s.probeDist cfg cell incumbent
        if s.refcount incumbent = 0 ∧ incumbentProbe < probe then
          .act (takeCell cell carry probe) fun _ =>
            robinLoop cfg fuel incumbent (incumbentProbe + 1) (next cfg.nCells cell)
        else robinLoop cfg fuel carry (probe + 1) (next cfg.nCells cell)

def indexInsertRobin (cfg : LruConfig) (slot : ℕ) : Prog (Lru V) InsertResult :=
  .act id fun s => robinLoop cfg (cfg.nCells + 1) slot 0 (s.home cfg slot)

/-- The loop of `index_erase`; the result says whether it ended. -/
def eraseLoop (cfg : LruConfig) : ℕ → ℕ → Prog (Lru V) Bool
  | 0, _ => .done false
  | fuel + 1, cell => .act id fun s =>
    let nextCell := next cfg.nCells cell
    match s.cells nextCell with
    | none => .act (Lru.setCell cell none) fun _ => .done true
    | some nextSlot =>
      if 0 < s.refcount nextSlot ∨ s.probeDist cfg nextCell nextSlot = 0 then
        .act (Lru.setCell cell none) fun _ => .done true
      else .act (fun s => s.setCell cell (s.cells nextCell)) fun _ => eraseLoop cfg fuel nextCell

def indexErase (cfg : LruConfig) (cell : ℕ) : Prog (Lru V) Bool := eraseLoop cfg cfg.nCells cell

/-- The cells that `index_locate` and `index_lookup` probe, one after the other. -/
def probeFind (cfg : LruConfig) (test : ℕ → Bool) : ℕ → ℕ → Option ℕ
  | 0, _ => none
  | probes + 1, cell =>
    if test cell then some cell else probeFind cfg test probes (next cfg.nCells cell)

inductive FindResult
  | found (cell : ℕ)
  | missing
  | diverged
deriving DecidableEq, Repr

/-- The loop of `index_locate` and `index_lookup`. No `uint32_t` is above `UINT32_MAX`, so with that
many probes the loop does not end unless it finds something. -/
def indexSearch (cfg : LruConfig) (test : ℕ → Bool) (cell : ℕ) : FindResult :=
  match probeFind cfg test (cfg.maxProbe + 1) cell with
  | some cell => .found cell
  | none => if cfg.maxProbe = uint32Max then .diverged else .missing

def indexLocate (cfg : LruConfig) (s : Lru V) (slot : ℕ) : FindResult :=
  indexSearch cfg (fun cell => s.cells cell == some slot) (s.home cfg slot)

def Lru.matches (eq : V → K → Bool) (s : Lru V) (hash : ℕ) (key : K) (cell : ℕ) : Bool :=
  match s.cells cell with
  | none => false
  | some slot => (s.slots slot).hash == hash && (s.slots slot).value.any (eq · key)

def indexLookup (cfg : LruConfig) (eq : V → K → Bool) (s : Lru V) (hash : ℕ) (key : K) : FindResult :=
  indexSearch cfg (s.matches eq hash key) (idealCell cfg hash)

/-! ## Eviction -/

/-- What `evict_lru_tail` ends with. -/
inductive EvictResult
  | evicted
  | allPinned
  | diverged
deriving DecidableEq, Repr

/-- The rest of `evict_slot`, after the index. -/
def dropSlot (slot : ℕ) (s : Lru V) : Lru V :=
  let evictedValue := (s.slots slot).value
  (({ s with order := s.order.erase slot, size := u32Pred s.size }.slotClear
    slot).freelistPush slot |>.count fun c => { c with evictions := u64 (c.evictions + 1) }).destroy
    evictedValue

def evictSlot (cfg : LruConfig) (slot : ℕ) : Prog (Lru V) EvictResult :=
  .act id fun s =>
    match indexLocate cfg s slot with
    | .missing => .act (dropSlot slot) fun _ => .done .evicted
    | .found cell => (indexErase cfg cell).bind fun ended =>
      if ended then .act (dropSlot slot) fun _ => .done .evicted else .done .diverged
    | .diverged => .done .diverged

/-- The loop of `evict_lru_tail` over the entries from the least recently used. -/
def evictScan (cfg : LruConfig) : List ℕ → Prog (Lru V) EvictResult
  | [] => .done .allPinned
  | slot :: rest => .act id fun s =>
    if s.refcount slot = 0 then evictSlot cfg slot else evictScan cfg rest

def evictLruTail (cfg : LruConfig) : Prog (Lru V) EvictResult :=
  .act id fun s => evictScan cfg s.order.reverse

/-! ## The operations -/

/-- A pointer to an entry, as the operations return it: `searching` when the lookup does not end,
`diverged` when a loop of the insertion does not. -/
inductive EntryResult
  | null
  | entry (slot : ℕ)
  | searching
  | diverged
deriving DecidableEq, Repr

/-- The entry that `index_lookup` leads to. -/
def lookupEntry (cfg : LruConfig) (eq : V → K → Bool) (s : Lru V) (hash : ℕ) (key : K) :
    EntryResult :=
  match indexLookup cfg eq s hash key with
  | .found cell => (s.cells cell).elim .null .entry
  | .missing => .null
  | .diverged => .searching

/-- What `lru_get` does with the entry it found. -/
def Lru.touch (s : Lru V) : EntryResult → Lru V
  | .null => s.count fun c => { c with misses := u64 (c.misses + 1) }
  | .entry slot => (s.promote slot).count fun c => { c with hits := u64 (c.hits + 1) }
  | _ => s

def lruGet (cfg : LruConfig) (eq : V → K → Bool) (hash : ℕ) (key : K) : Prog (Lru V) EntryResult :=
  .act (fun s => s.touch (lookupEntry cfg eq s hash key))
    fun s => .done (lookupEntry cfg eq s hash key)

def lruPeek (cfg : LruConfig) (eq : V → K → Bool) (hash : ℕ) (key : K) : Prog (Lru V) EntryResult :=
  .read fun s => lookupEntry cfg eq s hash key

def putFailure (value : V) (s : Lru V) : Lru V :=
  (s.count fun c => { c with putFailures := u64 (c.putFailures + 1) }).destroy (some value)

/-- The replace path of `lru_put`. -/
def replaceValue (slot : ℕ) (value : V) (s : Lru V) : Lru V :=
  let oldValue := (s.slots slot).value
  ((({ s with slots := Function.update s.slots slot ⟨(s.slots slot).hash, some value⟩ }).promote
    slot).count fun c => { c with replacements := u64 (c.replacements + 1) }).destroy oldValue

/-- The slot that `lru_put` gets from the free list, evicting while that is empty; `none` when every
entry is pinned. -/
def allocSlot (cfg : LruConfig) : ℕ → Prog (Lru V) (EvictResult ⊕ ℕ)
  | 0 => .done (.inl .diverged)
  | fuel + 1 => .act (fun s => { s with freelist := s.freelist.tail }) fun s =>
    match s.freelist with
    | slot :: _ => .done (.inr slot)
    | [] => (evictLruTail cfg).bind fun r =>
      match r with
      | .evicted => allocSlot cfg fuel
      | _ => .done (.inl r)

def fillSlot (slot hash : ℕ) (value : V) (s : Lru V) : Lru V :=
  { s with
    slots := Function.update s.slots slot ⟨hash, some value⟩
    refcount := Function.update s.refcount slot 0 }

/-- The fallback of `lru_put` when the value never landed. -/
def abandonSlot (slot : ℕ) (s : Lru V) : Lru V :=
  let orphanValue := (s.slots slot).value
  (((s.slotClear slot).freelistPush slot).count fun c =>
    { c with putFailures := u64 (c.putFailures + 1) }).destroy orphanValue

/-- The loop of `lru_put` around `index_insert_robin`. -/
def placeLoop (cfg : LruConfig) (newSlot : ℕ) : ℕ → Prog (Lru V) EvictResult
  | 0 => .done .diverged
  | fuel + 1 => (indexInsertRobin cfg newSlot).bind fun r =>
    match r with
    | .placed => .done .evicted
    | .diverged => .done .diverged
    | .orphan slot =>
      if slot = newSlot then
        (evictLruTail cfg).bind fun r =>
          match r with
          | .evicted => placeLoop cfg newSlot fuel
          | .allPinned => .act (abandonSlot newSlot) fun _ => .done .allPinned
          | .diverged => .done .diverged
      else .act (dropSlot slot) fun _ => .done .evicted

/-- The end of `lru_put`: the new entry becomes the most recently used. -/
def linkSlot (slot : ℕ) (s : Lru V) : Lru V :=
  { s with order := slot :: s.order, size := u32 (s.size + 1) }.count fun c =>
    { c with insertions := u64 (c.insertions + 1) }

def insertNew (cfg : LruConfig) (hash : ℕ) (value : V) : Prog (Lru V) EntryResult :=
  (allocSlot cfg 2).bind fun r =>
    match r with
    | .inl .allPinned => .act (putFailure value) fun _ => .done .null
    | .inl _ => .done .diverged
    | .inr slot => .act (fillSlot slot hash value) fun _ =>
      (placeLoop cfg slot (cfg.capacity + 1)).bind fun r =>
        match r with
        | .evicted => .act (linkSlot slot) fun _ => .done (.entry slot)
        | .allPinned => .done .null
        | .diverged => .done .diverged

def lruPut (cfg : LruConfig) (eq : V → K → Bool) (hash : ℕ) (key : K) (value : V) :
    Prog (Lru V) EntryResult :=
  .act id fun s =>
    match lookupEntry cfg eq s hash key with
    | .entry slot =>
      if 0 < s.refcount slot then .act (putFailure value) fun _ => .done .null
      else .act (replaceValue slot value) fun _ => .done (.entry slot)
    | .null => insertNew cfg hash value
    | r => .done r

def lruEntryAcquireLocked (slot : ℕ) : Prog (Lru V) Unit :=
  .write fun s =>
    { s with refcount := Function.update s.refcount slot (u32 (s.refcount slot + 1)) }

def Lru.decRefcount (slot : ℕ) (s : Lru V) : Lru V :=
  { s with refcount := Function.update s.refcount slot (s.refcount slot - 1) }

/-- The loop of `lru_entry_release`, with `cur` as loaded last. Each attempt of the weak
compare-exchange may fail spuriously; the result is `false` while the attempts listed do not
suffice. -/
def releaseLoop (slot : ℕ) : List Bool → ℕ → Prog (Lru V) Bool
  | [], _ => .done false
  | spurious :: attempts, cur =>
    if cur = 0 then .done true
    else .act (fun s =>
      if s.refcount slot = cur ∧ spurious = false then s.decRefcount slot else s)
      fun s => if s.refcount slot = cur ∧ spurious = false then .done true
        else releaseLoop slot attempts (s.refcount slot)

def lruEntryRelease (slot : ℕ) (attempts : List Bool) : Prog (Lru V) Bool :=
  .act id fun s => releaseLoop slot attempts (s.refcount slot)

/-- The loop of `lru_destroy` that counts the pinned entries. -/
def pinnedLoop : List ℕ → ℕ → Prog (Lru V) ℕ
  | [], pinned => .done pinned
  | slot :: rest, pinned => .act id fun s =>
    pinnedLoop rest (if 0 < s.refcount slot then u32 (pinned + 1) else pinned)

/-- `lru_destroy`; the result says whether the cache was freed or leaked. -/
def lruDestroy : Prog (Lru V) Bool :=
  .act id fun s => (pinnedLoop s.order 0).bind fun pinned =>
    if pinned = 0 then
      .act (fun s => { s with order := [], destroyed := s.destroyed ++ s.values }) fun _ => .done true
    else .done false

end Damacy

import Damacy.Util.LruOps

/-!
# The prefetch cache (`prefetch/prefetch_cache.c`)

A cache of fetched values: an LRU cache whose values are slots, each of them pending until its fetch
completes. Slots are shared by the owners that request their key. A slot is pinned in the LRU cache
while it is pending and while an owner at or above the watermark uses it. Handles name a slot by its
index in `active` and by its generation.

Every function here is the body of one critical section of the cache's mutex. A slot is an object on
a heap, named by the number of slots created up to it; the LRU cache holds the name and the key. The
gates that wait for slots are shared with other caches and are only written here, so a critical
section returns the operations on gates that it makes, in order. What `malloc` and `realloc` return
is an argument. A result `none` stands for a call that does not return, or that takes an index from
an empty free list.
-/

open Atomic Function

namespace Damacy

/-! ## Gates -/

def gateErrorBit : ℕ := 2 ^ 63

inductive GateOp
  | incPending (gate : ℕ)
  | decPending (gate : ℕ)
  | setError (gate : ℕ)
deriving DecidableEq, Repr

/-- `gate_inc_pending`, `prefetch_gate_dec_pending` and `prefetch_gate_set_error`. -/
def GateOp.apply (gates : ℕ → ℕ) : GateOp → ℕ → ℕ
  | incPending g => update gates g (u64 (gates g + 1))
  | decPending g => update gates g (u64Pred (gates g))
  | setError g => update gates g (gates g ||| gateErrorBit)

def applyGateOps (gates : ℕ → ℕ) (ops : List GateOp) : ℕ → ℕ := ops.foldl GateOp.apply gates

/-! ## Slots -/

inductive PrefetchState
  | pending
  | ready
  | error
deriving DecidableEq, Repr

/-- What the LRU cache stores for a slot: its name and its key. -/
structure SlotRef (K : Type) where
  id : ℕ
  key : K

/-- `struct prefetch_slot`, without its key. The waiters are the inline ones and those on the heap, in
order; `none` is `ACTIVE_IDX_UNLINKED`. -/
structure PrefetchSlot (W : Type) where
  value : Option W
  state : PrefetchState
  err : Status
  minOwner : ℕ
  maxOwner : ℕ
  generation : ℕ
  waiters : List ℕ
  capHeap : ℕ
  lruEnt : Option ℕ
  activeIdx : Option ℕ

def prefetchHandleNone : PrefetchHandle := ⟨0, 0⟩

/-- `make_handle`; a completion token holds the same two numbers. -/
def makeHandle (activeIdx generation : ℕ) : PrefetchHandle := ⟨u32 (activeIdx + 1), generation⟩

def waitersInline : ℕ := 2

variable {K W : Type}

/-- `slot_register_waiter`; `none` when the array of waiters cannot grow. -/
def slotRegisterWaiter (reallocOk : Bool) (s : PrefetchSlot W) (gate : Option ℕ) :
    Option (PrefetchSlot W) :=
  match gate with
  | none => some s
  | some g =>
    if s.waiters.length < waitersInline then some { s with waiters := s.waiters ++ [g] }
    else if s.waiters.length - waitersInline = s.capHeap then
      let newCap := if s.capHeap = 0 then 4 else u32 (s.capHeap * 2)
      if reallocOk && newCap ≠ 0 then
        some { s with waiters := s.waiters ++ [g], capHeap := newCap }
      else none
    else some { s with waiters := s.waiters ++ [g] }

/-- The operations on gates of `slot_release_waiters`. -/
def releaseWaiters (s : PrefetchSlot W) (errored : Bool) : List GateOp :=
  s.waiters.flatMap fun g => (if errored then [.setError g] else []) ++ [.decPending g]

/-! ## The cache -/

/-- `struct prefetch_cache`. The free list has its top in front, and `n_free` is its length.
`destroyedValues` lists the calls of `value_destroy`, with the slot the value was in. -/
structure PrefetchCache (K W : Type) where
  lru : Lru (SlotRef K)
  watermark : ℕ
  generationCounter : ℕ
  slots : ℕ → Option (PrefetchSlot W)
  created : ℕ
  active : ℕ → Option ℕ
  freeList : List ℕ
  nActive : ℕ
  pendingCount : ℕ
  erroredCount : ℕ
  destroyedValues : List (Option ℕ × W)

/-- The keys of a prefetch cache: `ops.key_eq` and the hash that callers compute. -/
structure PrefetchKeys (K : Type) where
  same : K → K → Prop
  equiv : Equivalence same
  hash : K → ℕ
  hash_congr : ∀ {a b}, same a b → hash a = hash b
  keyEq : K → K → Bool
  keyEq_iff : ∀ {a b}, keyEq a b = true ↔ same a b

/-- `lru_slot_eq`. -/
def PrefetchKeys.lru (ks : PrefetchKeys K) : LruKeys K (SlotRef K) where
  same := ks.same
  equiv := ks.equiv
  hash := ks.hash
  hash_congr := ks.hash_congr
  keyOf r := r.key
  eq r k := ks.keyEq r.key k
  eq_iff := ks.keyEq_iff

@[simp] theorem PrefetchKeys.lru_hash (ks : PrefetchKeys K) (key : K) :
    ks.lru.hash key = ks.hash key := rfl

def prefetchCacheCreate (cfg : LruConfig) : PrefetchCache K W :=
  { lru := lruCreate cfg
    watermark := 0
    generationCounter := 0
    slots := fun _ => none
    created := 0
    active := fun _ => none
    freeList := List.range cfg.capacity
    nActive := 0
    pendingCount := 0
    erroredCount := 0
    destroyedValues := [] }

namespace PrefetchCache

def setSlot (c : PrefetchCache K W) (id : ℕ) (s : PrefetchSlot W) : PrefetchCache K W :=
  { c with slots := update c.slots id (some s) }

/-- `active_remove` of the slot at index `i`. -/
def activeRemove (c : PrefetchCache K W) (i : ℕ) : PrefetchCache K W :=
  { c with
    active := update c.active i none
    freeList := i :: c.freeList
    nActive := u32Pred c.nActive }

def uncount (c : PrefetchCache K W) : PrefetchState → PrefetchCache K W
  | .pending => { c with pendingCount := u64Pred c.pendingCount }
  | .error => { c with erroredCount := u64Pred c.erroredCount }
  | .ready => c

def freeSlot (c : PrefetchCache K W) (id : ℕ) (value : Option W) : PrefetchCache K W :=
  { c with
    slots := update c.slots id none
    destroyedValues := c.destroyedValues ++ value.toList.map fun w => (some id, w) }

def refuseValue (c : PrefetchCache K W) (value : Option W) : PrefetchCache K W :=
  { c with destroyedValues := c.destroyedValues ++ value.toList.map fun w => (none, w) }

/-- `resolve_handle`: the slot that a handle names. -/
def resolveHandle (cfg : LruConfig) (c : PrefetchCache K W) (h : PrefetchHandle) : Option ℕ :=
  if h.slot = 0 then none
  else if cfg.capacity ≤ h.slot - 1 then none
  else
    match c.active (h.slot - 1) with
    | none => none
    | some id =>
      if (c.slots id).map PrefetchSlot.generation = some h.generation then some id else none

end PrefetchCache

/-- `lru_slot_destroy`, the callback that the LRU cache makes for a value it drops. -/
def lruSlotDestroy (c : PrefetchCache K W) (r : SlotRef K) : PrefetchCache K W × List GateOp :=
  match c.slots r.id with
  | none => (c, [])
  | some s =>
    let c := match s.activeIdx with
      | none => c
      | some i => (c.activeRemove i).uncount s.state
    (c.freeSlot r.id s.value, releaseWaiters s true)

/-- The callbacks for the values that the LRU cache dropped, in order. The LRU cache reads nothing
that they write. -/
def destroySlots (c : PrefetchCache K W) : List (SlotRef K) → PrefetchCache K W × List GateOp
  | [] => (c, [])
  | r :: rest =>
    let (c, ops) := lruSlotDestroy c r
    let (c, ops') := destroySlots c rest
    (c, ops ++ ops')

/-! ## Requests -/

structure RequestEnv where
  cloneOk : Bool
  mallocOk : Bool
  reallocOk : Bool
deriving DecidableEq, Repr

/-- What a critical section of a request ends with: the status and the handle that the request
returns, whether a fetch is to be started, and the operations on gates. -/
structure RequestOutcome where
  status : Status
  handle : PrefetchHandle
  started : Bool
  gateOps : List GateOp
deriving DecidableEq, Repr

def needsPin (watermark owner : ℕ) (s : PrefetchSlot W) : Bool :=
  s.lruEnt.isNone && decide (watermark ≤ owner)

def joinSlot (watermark entry owner : ℕ) (s : PrefetchSlot W) : PrefetchSlot W :=
  { s with
    maxOwner := if s.maxOwner < owner then owner else s.maxOwner
    minOwner := if owner < s.minOwner then owner else s.minOwner
    lruEnt := if needsPin watermark owner s then some entry else s.lruEnt }

/-- A request that found its key: the owner joins the slot, and the gate waits for it. -/
def requestHit (c : PrefetchCache K W) (env : RequestEnv) (entry : ℕ) (owner : ℕ)
    (gate : Option ℕ) : Option (RequestOutcome × PrefetchCache K W) := do
  let r ← (c.lru.slots entry).value
  let s ← c.slots r.id
  let c := { c with
    lru := if needsPin c.watermark owner s then ((lruEntryAcquireLocked entry).run c.lru).2
      else c.lru }
  let s := joinSlot c.watermark entry owner s
  let done := fun (s : PrefetchSlot W) ops =>
    some (⟨.ok, makeHandle (s.activeIdx.getD uint32Max) s.generation, false, ops⟩, c.setSlot r.id s)
  match s.state with
  | .pending =>
    match slotRegisterWaiter env.reallocOk s gate with
    | none =>
      some (⟨.oom, prefetchHandleNone, false,
        gate.toList.flatMap fun g => [.incPending g, .decPending g]⟩, c.setSlot r.id s)
    | some s => done s (gate.toList.map .incPending)
  | .error => done s (gate.toList.map .setError)
  | .ready => done s []

def newSlot (owner generation : ℕ) : PrefetchSlot W :=
  { value := none
    state := .pending
    err := .ok
    minOwner := owner
    maxOwner := owner
    generation := generation
    waiters := []
    capHeap := 0
    lruEnt := none
    activeIdx := none }

/-- The new slot `id` is pinned by its LRU entry, linked at index `idx`, and waited for. -/
def linkNewSlot (c : PrefetchCache K W) (id entry idx : ℕ) (rest : List ℕ) (s : PrefetchSlot W)
    (gate : Option ℕ) : PrefetchCache K W :=
  { c.setSlot id { s with lruEnt := some entry, activeIdx := some idx, waiters := gate.toList } with
    lru := ((lruEntryAcquireLocked entry).run c.lru).2
    freeList := rest
    active := update c.active idx (some id)
    nActive := u32 (c.nActive + 1)
    pendingCount := u64 (c.pendingCount + 1) }

/-- The end of a request that made the slot `id`, after `lru_put` has returned and the callbacks have
been made. -/
def finishMiss (id : ℕ) (s : PrefetchSlot W) (gate : Option ℕ) (res : EntryResult)
    (c : PrefetchCache K W) (ops : List GateOp) : Option (RequestOutcome × PrefetchCache K W) :=
  match res with
  | .null => some (⟨.again, prefetchHandleNone, false, ops⟩, c)
  | .entry entry =>
    match c.freeList with
    | [] => none
    | idx :: rest =>
      some (⟨.ok, makeHandle idx s.generation, true, ops ++ gate.toList.map .incPending⟩,
        linkNewSlot c id entry idx rest s gate)
  | _ => none

def requestMiss (cfg : LruConfig) (ks : PrefetchKeys K) (c : PrefetchCache K W) (env : RequestEnv)
    (key : K) (owner : ℕ) (gate : Option ℕ) : Option (RequestOutcome × PrefetchCache K W) :=
  if !env.cloneOk || !env.mallocOk then some (⟨.oom, prefetchHandleNone, false, []⟩, c)
  else
    let id := c.created + 1
    let s := newSlot owner (u32 (c.generationCounter + 1))
    let put := (lruPut cfg ks.lru.eq (ks.hash key) key ⟨id, key⟩).run c.lru
    let destroyed := destroySlots
      { c.setSlot id s with lru := put.2, created := id, generationCounter := s.generation }
      (put.2.destroyed.drop c.lru.destroyed.length)
    finishMiss id s gate put.1 destroyed.1 destroyed.2

/-- The critical section of `prefetch_cache_request_result`. -/
def cacheRequest (cfg : LruConfig) (ks : PrefetchKeys K) (c : PrefetchCache K W) (env : RequestEnv)
    (key : K) (owner : ℕ) (gate : Option ℕ) : Option (RequestOutcome × PrefetchCache K W) :=
  let get := (lruGet cfg ks.lru.eq (ks.hash key) key).run c.lru
  let c := { c with lru := get.2 }
  match get.1 with
  | .entry entry => requestHit c env entry owner gate
  | .null => requestMiss cfg ks c env key owner gate
  | _ => none

/-! ## Completions, queries and the watermark -/

/-- `slot_complete_locked`. -/
def slotComplete (c : PrefetchCache K W) (id : ℕ) (s : PrefetchSlot W) (value : Option W)
    (err : Status) : PrefetchCache K W × List GateOp :=
  if err = .ok then
    ((c.setSlot id { s with state := .ready, value := value, waiters := [] }).uncount .pending,
      releaseWaiters s false)
  else
    let c := ((c.refuseValue value).setSlot id
      { s with state := .error, err := err, waiters := [] }).uncount .pending
    ({ c with erroredCount := u64 (c.erroredCount + 1) }, releaseWaiters s true)

/-- `prefetch_cache_complete`. -/
def cacheComplete (cfg : LruConfig) (c : PrefetchCache K W) (h : PrefetchHandle) (value : Option W)
    (err : Status) : PrefetchCache K W × List GateOp :=
  match c.resolveHandle cfg h with
  | none => (c.refuseValue value, [])
  | some id =>
    match c.slots id with
    | none => (c.refuseValue value, [])
    | some s => if s.state = .pending then slotComplete c id s value err else (c.refuseValue value, [])

/-- `prefetch_cache_query`. -/
def cacheQuery (cfg : LruConfig) (c : PrefetchCache K W) (h : PrefetchHandle) : CacheQuery W :=
  match (c.resolveHandle cfg h).bind c.slots with
  | none => .pending
  | some s =>
    match s.state with
    | .pending => .pending
    | .ready => .ready s.value
    | .error => .error s.err

/-- One slot in the loop of `prefetch_cache_advance_watermark`. -/
def releasePin (newWatermark : ℕ) (c : PrefetchCache K W) (i : ℕ) : PrefetchCache K W :=
  match c.active i with
  | none => c
  | some id =>
    match c.slots id with
    | none => c
    | some s =>
      match s.lruEnt with
      | none => c
      | some entry =>
        if s.state ≠ .pending ∧ s.maxOwner < newWatermark then
          { c.setSlot id { s with lruEnt := none } with
            lru := ((lruEntryRelease entry [false]).run c.lru).2 }
        else c

/-- `prefetch_cache_advance_watermark`. -/
def advanceWatermark (cfg : LruConfig) (c : PrefetchCache K W) (newWatermark : ℕ) :
    PrefetchCache K W :=
  if newWatermark ≤ c.watermark then c
  else (List.range cfg.capacity).foldl (releasePin newWatermark)
    { c with watermark := newWatermark }

end Damacy

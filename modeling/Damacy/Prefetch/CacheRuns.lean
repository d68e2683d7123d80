import Mathlib.Algebra.Order.Sub.Basic
import Damacy.Prefetch.CacheMiss

/-!
# Runs of the prefetch cache

Callers request keys, complete fetches and advance the watermark, in any order and from any thread;
every call is one critical section. A fetch that cannot be started is completed with `DAMACY_AGAIN`
like any other, and completions may come with any token, any number of times.
-/

open List Atomic Function

namespace Damacy

variable {K W : Type} {cfg : LruConfig} {ks : PrefetchKeys K} {c c' c₀ : PrefetchCache K W}
  {s s' : PrefetchSlot W} {r : SlotRef K}

/-! ## Requests -/

inductive RequestPost (ks : PrefetchKeys K) (c : PrefetchCache K W) (key : K) (owner : ℕ)
    (gate : Option ℕ) (o : RequestOutcome) (c' : PrefetchCache K W) : Prop
  | hit (r : SlotRef K) (s s' : PrefetchSlot W) (entry : ℕ) (live : r ∈ c.lru.values)
      (same : ks.same r.key key) (before : c.slots r.id = some s)
      (slots : c'.slots = update c.slots r.id (some s'))
      (values : c'.lru.values.Perm c.lru.values)
      (slot : HitSlot c.watermark entry owner s s') (outcome : HitOutcome gate s s' o)
  | miss (absent : ∀ r ∈ c.lru.values, ¬ ks.same r.key key)
      (outcome : MissOutcome c key owner gate o c')

theorem Touched.values {V : Type} {l l' : Lru V} (h : Touched l l') : l'.values.Perm l.values := by
  rw [Lru.values, Lru.values, h.slots]
  exact h.order.filterMap _

theorem PutSplit.of_touched {l l' : Lru (SlotRef K)} {ds kept : List (SlotRef K)}
    (ht : Touched c.lru l) (h : PutSplit { c with lru := l } l' ds kept) : PutSplit c l' ds kept :=
  ⟨ht.values.symm.trans h.perm, h.idle, h.kept⟩

theorem MissOutcome.of_touched {l : Lru (SlotRef K)} {key : K} {owner : ℕ} {gate : Option ℕ}
    {o : RequestOutcome} (ht : Touched c.lru l)
    (h : MissOutcome { c with lru := l } key owner gate o c') : MissOutcome c key owner gate o c' := by
  cases h with
  | oom _ values slots => exact .oom _ (values.trans ht.values) slots
  | again _ ds split slots => exact .again _ ds (split.of_touched ht) slots
  | ok _ ds kept entry idx split values slots slot =>
    exact .ok _ ds kept entry idx (split.of_touched ht) values slots slot

theorem cacheRequest_eq (cfg : LruConfig) (ks : PrefetchKeys K) (c : PrefetchCache K W)
    (env : RequestEnv) (key : K) (owner : ℕ) (gate : Option ℕ) :
    cacheRequest cfg ks c env key owner gate =
      match lookupEntry cfg ks.lru.eq c.lru (ks.hash key) key with
      | .entry entry => requestHit { c with
          lru := c.lru.touch (lookupEntry cfg ks.lru.eq c.lru (ks.hash key) key) } env entry owner gate
      | .null => requestMiss cfg ks { c with
          lru := c.lru.touch (lookupEntry cfg ks.lru.eq c.lru (ks.hash key) key) } env key owner gate
      | _ => none := rfl

theorem CacheInv.request (h : CacheInv cfg ks c) (env : RequestEnv) (key : K) (owner : ℕ)
    (gate : Option ℕ) :
    (cacheRequest cfg ks c env key owner gate = none ∧
      lookupEntry cfg ks.lru.eq c.lru (ks.hash key) key = .searching) ∨
    ∃ o c', cacheRequest cfg ks c env key owner gate = some (o, c') ∧ CacheInv cfg ks c' ∧
      Evolves c c' ∧ RequestPost ks c key owner gate o c' := by
  have ht := h.lru.touch key
  have hcases := h.lru.lookup_cases key
  have hlast : lookupEntry cfg ks.lru.eq c.lru (ks.lru.hash key) key = .null → _ :=
    h.lru.maxProbe_ne_of_lookup
  have hentry : ∀ {slot}, lookupEntry cfg ks.lru.eq c.lru (ks.lru.hash key) key = .entry slot ↔ _ :=
    h.lru.lookup_eq_entry_iff
  rw [PrefetchKeys.lru_hash] at ht hcases hlast hentry
  have hreq := cacheRequest_eq cfg ks c env key owner gate
  generalize lookupEntry cfg ks.lru.eq c.lru (ks.hash key) key = found at *
  have hinv := h.touched ht
  have hvalues := ht.values
  rw [hreq]
  rcases hcases with ⟨entry, rfl⟩ | ⟨habsent, rfl | ⟨rfl, -⟩⟩
  · obtain ⟨hj, r, hr, hsame⟩ := hentry.mp rfl
    have hj' := ht.order.mem_iff.mpr hj
    have hr' : ((c.lru.touch (.entry entry)).slots entry).value = some r := ht.slots ▸ hr
    have hlive : r ∈ c.lru.values := Lru.mem_values.mpr ⟨entry, hj, hr⟩
    obtain ⟨s, hs, -⟩ := h.slots.slot r hlive
    obtain ⟨o, s', heq, hslot, hout⟩ := requestHit_cases (c := { c with
      lru := c.lru.touch (.entry entry) }) env owner gate hr' hs
    obtain ⟨hinv', hev, -⟩ := hinv.hit hj' hr' hs hslot
    have hhit : ((hitLru { c with lru := c.lru.touch (.entry entry) } entry owner s).values).Perm
        c.lru.values := by
      rw [hitLru_values]
      exact hvalues
    exact .inr ⟨o, _, heq, hinv', .trans_of_values hvalues hev,
      .hit r s s' entry hlive hsame hs rfl hhit hslot hout⟩
  · have hmiss : ∀ r ∈ c.lru.values, ¬ ks.same r.key key := by
      intro r hr
      obtain ⟨j, hj, hjr⟩ := Lru.mem_values.mp hr
      exact habsent j hj r hjr
    rcases hinv.miss env key owner gate with ⟨-, hmax⟩ | ⟨o, c', heq, hinv', hev, hout⟩
    · exact (hlast rfl hmax).elim
    · exact .inr ⟨o, c', heq, hinv', .trans_of_values hvalues hev, .miss hmiss (hout.of_touched ht)⟩
  · exact .inl ⟨rfl, rfl⟩

/-! ## Runs -/

inductive CacheStep (cfg : LruConfig) (ks : PrefetchKeys K) :
    PrefetchCache K W → PrefetchCache K W → Prop
  | request {c c' : PrefetchCache K W} (env : RequestEnv) (key : K) (owner : ℕ) (gate : Option ℕ)
      (o : RequestOutcome) (returns : cacheRequest cfg ks c env key owner gate = some (o, c')) :
      CacheStep cfg ks c c'
  | complete (c : PrefetchCache K W) (token : PrefetchHandle) (value : Option W) (err : Status) :
      CacheStep cfg ks c (cacheComplete cfg c token value err).1
  | advance (c : PrefetchCache K W) (watermark : ℕ) :
      CacheStep cfg ks c (advanceWatermark cfg c watermark)

def CacheRun (cfg : LruConfig) (ks : PrefetchKeys K) :
    PrefetchCache K W → PrefetchCache K W → Prop :=
  Relation.ReflTransGen (CacheStep cfg ks)

def CacheReachable (cfg : LruConfig) (ks : PrefetchKeys K) (c : PrefetchCache K W) : Prop :=
  CacheRun cfg ks (prefetchCacheCreate cfg) c

theorem CacheInv.step (h : CacheInv cfg ks c) (hstep : CacheStep cfg ks c c') :
    CacheInv cfg ks c' ∧ Evolves c c' := by
  cases hstep with
  | request env key owner gate o returns =>
    rcases h.request env key owner gate with ⟨hno, -⟩ | ⟨o', c'', heq, hinv, hev, -⟩
    · rw [returns] at hno
      cases hno
    · obtain ⟨-, rfl⟩ := Prod.mk.inj (Option.some.inj (returns.symm.trans heq))
      exact ⟨hinv, hev⟩
  | complete token value err => exact h.cacheComplete token value err
  | advance watermark => exact h.advanceWatermark watermark

theorem CacheInv.run (h : CacheInv cfg ks c) (hrun : CacheRun cfg ks c c') : CacheInv cfg ks c' := by
  induction hrun with
  | refl => exact h
  | tail _ hstep ih => exact (ih.step hstep).1

theorem CacheReachable.inv (h : CacheReachable cfg ks c) : CacheInv cfg ks c :=
  (CacheInv.create cfg ks).run h

theorem CacheInv.run_slot (h : CacheInv cfg ks c) (hr : r ∈ c.lru.values)
    (hs : c.slots r.id = some s) (hrun : CacheRun cfg ks c c') (hw : c'.watermark ≤ s.maxOwner) :
    r ∈ c'.lru.values ∧ ∃ s', c'.slots r.id = some s' ∧ SlotEvolves s s' := by
  induction hrun with
  | refl => exact ⟨hr, s, hs, .refl s⟩
  | @tail d d' hrun hstep ih =>
    have hd := h.run hrun
    have hev := (hd.step hstep).2
    obtain ⟨hmem, t, ht, hst⟩ := ih (hev.watermark_le.trans hw)
    have hmem' := hev.survives r hmem t ht (.inr (hw.trans hst.maxOwner_le))
    obtain ⟨-, hslot⟩ := hev.old r hmem' (hd.id_le hmem)
    obtain ⟨t', ht', htt'⟩ := hslot t ht
    exact ⟨hmem', t', ht', hst.trans htt'⟩

theorem CacheInv.run_old (h : CacheInv cfg ks c) (hrun : CacheRun cfg ks c c') :
    c.created ≤ c'.created ∧ ∀ r ∈ c'.lru.values, r.id ≤ c.created → r ∈ c.lru.values ∧
      ∀ s, c.slots r.id = some s → ∃ s', c'.slots r.id = some s' ∧ SlotEvolves s s' := by
  induction hrun with
  | refl => exact ⟨le_rfl, fun r hr _ => ⟨hr, fun s hs => ⟨s, hs, .refl s⟩⟩⟩
  | @tail d d' hrun hstep ih =>
    have hev := ((h.run hrun).step hstep).2
    refine ⟨ih.1.trans hev.created_le, fun r hr hid => ?_⟩
    obtain ⟨hmem, hslot⟩ := hev.old r hr (hid.trans ih.1)
    obtain ⟨hmem', hslot'⟩ := ih.2 r hmem hid
    refine ⟨hmem', fun s hs => ?_⟩
    obtain ⟨t, ht, hst⟩ := hslot' s hs
    obtain ⟨t', ht', htt'⟩ := hslot t ht
    exact ⟨t', ht', hst.trans htt'⟩

/-! ## Handles -/

theorem CacheInv.resolve (h : CacheInv cfg ks c) (hr : r ∈ c.lru.values)
    (hs : c.slots r.id = some s) {idx : ℕ} (hidx : s.activeIdx = some idx) :
    c.resolveHandle cfg (makeHandle idx s.generation) = some r.id := by
  have hidx' : c.idxOf r = idx := by rw [PrefetchCache.idxOf, hs, Option.bind_some, hidx]; rfl
  have hlt := h.slots.idx_lt hr
  have hcap := cfg.capacity_le
  have hactive := (h.slots.active idx r.id).mpr ⟨r, hr, rfl, hidx'⟩
  have hslot : (makeHandle idx s.generation).slot = idx + 1 := u32_of_lt (by omega)
  have hgen : (makeHandle idx s.generation).generation = s.generation := rfl
  rw [PrefetchCache.resolveHandle, hslot, if_neg (Nat.succ_ne_zero idx), Nat.add_sub_cancel,
    if_neg (by omega), hactive]
  dsimp only
  rw [hs, hgen, Option.map_some, if_pos rfl]

theorem RequestPost.slot (h : CacheInv cfg ks c) {key : K} {owner : ℕ} {gate : Option ℕ}
    {o : RequestOutcome} (hpost : RequestPost ks c key owner gate o c') (hok : o.status = .ok) :
    ∃ r s idx, ks.same r.key key ∧ r ∈ c'.lru.values ∧ c'.slots r.id = some s ∧
      s.activeIdx = some idx ∧ o.handle = makeHandle idx s.generation ∧ owner ≤ s.maxOwner := by
  cases hpost with
  | hit r s s' entry live same before slots values slot outcome =>
    obtain ⟨t, ht, hidx, -⟩ := h.slots.slot r live
    obtain rfl := Option.some.inj (before.symm.trans ht)
    have hidx' : s'.activeIdx = s.activeIdx := by rw [slot.eq]; rfl
    have hgen : s'.generation = s.generation := by rw [slot.eq]; rfl
    have hmax : s'.maxOwner = if s.maxOwner < owner then owner else s.maxOwner := by
      rw [slot.eq]
      rfl
    refine ⟨r, s', c.idxOf r, same, values.mem_iff.mpr live, by rw [slots, update_self],
      hidx'.trans hidx, ?_, by rw [hmax]; split <;> omega⟩
    cases outcome with
    | registered | failed | ready => rw [hidx, hgen]; rfl
    | refused => cases hok
  | miss absent outcome =>
    cases outcome with
    | oom => cases hok
    | again => cases hok
    | ok _ ds kept entry idx split values slots slot =>
      exact ⟨⟨c.created + 1, key⟩, _, idx, ks.equiv.refl _, values.mem_iff.mpr mem_cons_self,
        slot, rfl, rfl, le_rfl⟩

/-- **A handle stays good while its owner is at or above the watermark**: it resolves to the slot of
the key it was requested for, the value of that slot is not destroyed, and once the slot is ready
its value is not replaced. No pending slot is evicted. -/
theorem cacheHandle_stable (hreach : CacheReachable cfg ks c₀) :
    (∀ env key owner gate o c, cacheRequest cfg ks c₀ env key owner gate = some (o, c) →
      o.status = .ok → c₀.watermark ≤ owner →
      ∃ r, ks.same r.key key ∧ ∀ c', CacheRun cfg ks c c' → c'.watermark ≤ owner →
        c'.resolveHandle cfg o.handle = some r.id ∧ r ∈ c'.lru.values ∧
        (∀ w, (some r.id, w) ∉ c'.destroyedValues) ∧
        ∃ s, c'.slots r.id = some s ∧ (s.state = .ready →
          ∀ c'', CacheRun cfg ks c' c'' → c''.watermark ≤ owner →
            ∃ s', c''.slots r.id = some s' ∧ s'.state = .ready ∧ s'.value = s.value)) ∧
    ∀ c', CacheStep cfg ks c₀ c' → ∀ r ∈ c₀.lru.values, ∀ s, c₀.slots r.id = some s →
      s.state = .pending → r ∈ c'.lru.values ∧ ∃ s', c'.slots r.id = some s' := by
  have h₀ := hreach.inv
  constructor
  · intro env key owner gate o c hreq hok _
    rcases h₀.request env key owner gate with ⟨hno, -⟩ | ⟨o', d, heq, hinv, -, hpost⟩
    · rw [hreq] at hno
      cases hno
    · obtain ⟨rfl, rfl⟩ := Prod.mk.inj (Option.some.inj (hreq.symm.trans heq))
      obtain ⟨r, s, idx, hsame, hr, hs, hidx, hhandle, howner⟩ := hpost.slot h₀ hok
      refine ⟨r, hsame, fun c' hrun hw => ?_⟩
      have hinv' := hinv.run hrun
      obtain ⟨hr', s', hs', hev⟩ := hinv.run_slot hr hs hrun (hw.trans howner)
      refine ⟨?_, hr', hinv'.slots.kept r hr', s', hs', fun hready c'' hrun' hw' => ?_⟩
      · rw [hhandle, ← hev.generation]
        exact hinv'.resolve hr' hs' (hev.activeIdx.trans hidx)
      · obtain ⟨-, s'', hs'', hev'⟩ := hinv'.run_slot hr' hs' hrun'
          (hw'.trans (howner.trans hev.maxOwner_le))
        obtain ⟨hstate, hvalue, -⟩ := hev'.completed (by rw [hready]; decide)
        exact ⟨s'', hs'', hstate.trans hready, hvalue⟩
  · intro c' hstep r hr s hs hpending
    have hev := (h₀.step hstep).2
    have hr' := hev.survives r hr s hs (.inl hpending)
    obtain ⟨-, hslot⟩ := hev.old r hr' (h₀.id_le hr)
    obtain ⟨s', hs', -⟩ := hslot s hs
    exact ⟨hr', s', hs'⟩

def numberKeys : PrefetchKeys ℕ where
  same := Eq
  equiv := eq_equivalence
  hash k := k
  hash_congr h := h
  keyEq a b := a == b
  keyEq_iff := beq_iff_eq

def oneSlot : LruConfig := { capacity := 1, maxProbe := 16 }

def fetching : PrefetchCache ℕ ℕ :=
  ((cacheRequest oneSlot numberKeys (prefetchCacheCreate oneSlot) ⟨true, true, true⟩ 3 0 none).map
    Prod.snd).getD (prefetchCacheCreate oneSlot)

theorem fetching_eq : cacheRequest oneSlot numberKeys (prefetchCacheCreate oneSlot)
    ⟨true, true, true⟩ 3 0 none = some (⟨.ok, ⟨1, 1⟩, true, []⟩, fetching) := rfl

def fetched : PrefetchCache ℕ ℕ := (cacheComplete oneSlot fetching ⟨1, 1⟩ (some 30) .ok).1

theorem cacheHandle_stable_fetched :
    CacheReachable oneSlot numberKeys (prefetchCacheCreate oneSlot : PrefetchCache ℕ ℕ) ∧
      ∃ r : SlotRef ℕ, r.key = 3 ∧ fetched.resolveHandle oneSlot ⟨1, 1⟩ = some r.id := by
  have hinit : CacheReachable oneSlot numberKeys (prefetchCacheCreate oneSlot : PrefetchCache ℕ ℕ) :=
    .refl
  obtain ⟨r, hkey, hgood⟩ :=
    (cacheHandle_stable hinit).1 _ _ _ _ _ _ fetching_eq rfl (Nat.zero_le _)
  have hrun : CacheRun oneSlot numberKeys fetching fetched := .single (.complete _ _ _ _)
  exact ⟨hinit, r, hkey, (hgood fetched hrun (Nat.zero_le _)).1⟩

/-! ## The table of slots -/

/-- `active`, the free list and the counters against the live slots. -/
structure CacheWellFormed (cfg : LruConfig) (c : PrefetchCache K W) : Prop where
  /-- The live slots are different ones. -/
  nodup : (c.lru.values.map SlotRef.id).Nodup
  /-- The entries of `active` are the live slots, each at its own index. -/
  active : ∀ i id, c.active i = some id ↔ ∃ r ∈ c.lru.values, r.id = id ∧
    ∃ s, c.slots id = some s ∧ s.activeIdx = some i
  /-- The free list holds the other indices, each once. -/
  free_nodup : c.freeList.Nodup
  mem_free : ∀ i, i ∈ c.freeList ↔ i < cfg.capacity ∧ c.active i = none
  sum : c.nActive + c.freeList.length = cfg.capacity
  pending : c.pendingCount = c.lru.values.countP (c.inState .pending)
  errored : c.erroredCount = c.lru.values.countP (c.inState .error)

theorem CacheInv.wellFormed (h : CacheInv cfg ks c) : CacheWellFormed cfg c := by
  have hnodup := h.slots.partition.nodup_iff.mpr nodup_range
  have hidx : ∀ r ∈ c.lru.values, ∀ i, c.idxOf r = i ↔ ∃ s, c.slots r.id = some s ∧
      s.activeIdx = some i := by
    intro r hr i
    obtain ⟨s, hs, hsi, -⟩ := h.slots.slot r hr
    constructor
    · rintro rfl
      exact ⟨s, hs, hsi⟩
    · rintro ⟨t, ht, hti⟩
      obtain rfl := Option.some.inj (hs.symm.trans ht)
      exact Option.some.inj (hsi.symm.trans hti)
  refine ⟨h.slots.nodup, fun i id => ?_, hnodup.of_append_right, fun i => ?_, ?_, h.slots.pending,
    h.slots.errored⟩
  · rw [h.slots.active]
    constructor
    · rintro ⟨r, hr, rfl, hi⟩
      exact ⟨r, hr, rfl, (hidx r hr i).mp hi⟩
    · rintro ⟨r, hr, rfl, hs⟩
      exact ⟨r, hr, rfl, (hidx r hr i).mpr hs⟩
  · have hmem := h.slots.partition.mem_iff (a := i)
    rw [mem_append, mem_range] at hmem
    constructor
    · intro hi
      refine ⟨hmem.mp (.inr hi), Option.eq_none_iff_forall_ne_some.mpr fun id hid => ?_⟩
      obtain ⟨r, hr, -, rfl⟩ := (h.slots.active i id).mp hid
      exact disjoint_of_nodup_append hnodup (mem_map_of_mem hr) hi
    · rintro ⟨hlt, hnone⟩
      refine (hmem.mpr hlt).resolve_left fun hi => ?_
      obtain ⟨r, hr, hri⟩ := mem_map.mp hi
      rw [(h.slots.active i r.id).mpr ⟨r, hr, rfl, hri⟩] at hnone
      cases hnone
  · rw [h.slots.nActive]
    exact h.slots.length_add_free

theorem CacheInv.resolve_evicted (h : CacheInv cfg ks c) (hr : r ∈ c.lru.values)
    (hs : c.slots r.id = some s) {idx : ℕ} (hidx : s.activeIdx = some idx)
    (hrun : CacheRun cfg ks c c') (hgone : r ∉ c'.lru.values)
    (hcreated : c'.created < r.id + 2 ^ 32) :
    c'.resolveHandle cfg (makeHandle idx s.generation) = none := by
  have h' := h.run hrun
  refine Option.eq_none_iff_forall_ne_some.mpr fun id hid => ?_
  obtain ⟨-, -, hactive, t, ht, hgen⟩ := resolveHandle_eq_some hid
  obtain ⟨q, hq, rfl, hqi⟩ := (h'.slots.active _ _).mp hactive
  obtain ⟨_, hq', htidx, hok'⟩ := h'.slots.slot q hq
  obtain rfl := Option.some.inj (ht.symm.trans hq')
  obtain ⟨_, hs', hsidx, hok⟩ := h.slots.slot r hr
  obtain rfl := Option.some.inj (hs.symm.trans hs')
  obtain rfl := Option.some.inj (hidx.symm.trans hsidx)
  by_cases hold : q.id ≤ c.created
  · -- the slot it would resolve to was there before, at another index
    obtain ⟨hmem, hslot⟩ := (h.run_old hrun).2 q hq hold
    obtain ⟨u, hu, huidx, -⟩ := h.slots.slot q hmem
    obtain ⟨t', ht', hev⟩ := hslot u hu
    obtain rfl := Option.some.inj (ht.symm.trans ht')
    have hslot : (makeHandle (c.idxOf r) s.generation).slot = c.idxOf r + 1 :=
      u32_of_lt (by have := h.slots.idx_lt hr; have := cfg.capacity_le; omega)
    rw [hslot, Nat.add_sub_cancel] at hqi
    have hsame : c.idxOf q = c.idxOf r := by
      rw [hqi, hev.activeIdx, huidx] at htidx
      exact Option.some.inj htidx
    have hid : q.id = r.id := Option.some.inj
      (((h.slots.active _ _).mpr ⟨q, hmem, rfl, hsame⟩).symm.trans
        ((h.slots.active _ _).mpr ⟨r, hr, rfl, rfl⟩))
    have hqr : q = r := inj_on_of_nodup_map h.slots.nodup hmem hr hid
    exact hgone (hqr ▸ hq)
  · -- the generations agree, so the creation numbers do modulo `2 ^ 32`
    have hmod : q.id % 2 ^ 32 = r.id % 2 ^ 32 :=
      hok'.generation.symm.trans (hgen.trans hok.generation)
    have := h'.id_le hq
    have := h.id_le hr
    omega

/-- **The table of slots agrees with the LRU cache in every state**: `active` and the free list
partition the indices, the counters count, a request returns whenever its lookup does, so that the
free list is not empty after a successful `lru_put`, and the handle of an evicted slot resolves to
nothing until `2 ^ 32` slots have been created after it. -/
theorem cacheTable_wellFormed (hreach : CacheReachable cfg ks c) :
    CacheWellFormed cfg c ∧
    (∀ env key owner gate, lookupEntry cfg ks.lru.eq c.lru (ks.hash key) key ≠ .searching →
      ∃ o c', cacheRequest cfg ks c env key owner gate = some (o, c')) ∧
    ∀ r ∈ c.lru.values, ∀ s idx, c.slots r.id = some s → s.activeIdx = some idx →
      c.resolveHandle cfg (makeHandle idx s.generation) = some r.id ∧
      ∀ c', CacheRun cfg ks c c' → r ∉ c'.lru.values → c'.created < r.id + 2 ^ 32 →
        c'.resolveHandle cfg (makeHandle idx s.generation) = none ∧
        ∀ value err, cacheComplete cfg c' (makeHandle idx s.generation) value err =
          (c'.refuseValue value, []) := by
  have h := hreach.inv
  refine ⟨h.wellFormed, fun env key owner gate hlookup => ?_, fun r hr s idx hs hidx =>
    ⟨h.resolve hr hs hidx, fun c' hrun hgone hcreated => ?_⟩⟩
  · rcases h.request env key owner gate with ⟨-, hno⟩ | ⟨o, c', heq, -⟩
    · exact (hlookup hno).elim
    · exact ⟨o, c', heq⟩
  · have hnone := h.resolve_evicted hr hs hidx hrun hgone hcreated
    refine ⟨hnone, fun value err => ?_⟩
    rw [cacheComplete, hnone]

def refetching : PrefetchCache ℕ ℕ :=
  ((cacheRequest oneSlot numberKeys (advanceWatermark oneSlot fetched 1) ⟨true, true, true⟩ 5 1
    none).map Prod.snd).getD fetched

theorem refetching_run : CacheRun oneSlot numberKeys fetched refetching := by
  have hadvance : CacheStep oneSlot numberKeys fetched (advanceWatermark oneSlot fetched 1) :=
    .advance _ _
  exact .tail (.single hadvance) (.request ⟨true, true, true⟩ 5 1 none ⟨.ok, ⟨1, 2⟩, true, []⟩ rfl)

theorem cacheTable_wellFormed_refetching :
    CacheReachable oneSlot numberKeys fetched ∧ CacheRun oneSlot numberKeys fetched refetching ∧
      fetched.resolveHandle oneSlot ⟨1, 1⟩ = some 1 ∧
      refetching.resolveHandle oneSlot ⟨1, 1⟩ = none := by
  have hreach : CacheReachable oneSlot numberKeys fetched :=
    .tail (.single (.request _ _ _ _ _ fetching_eq)) (.complete _ _ _ _)
  have hvalues : fetched.lru.values = [⟨1, 3⟩] := rfl
  have hvalues' : refetching.lru.values = [⟨2, 5⟩] := rfl
  obtain ⟨-, -, hhandle⟩ := cacheTable_wellFormed hreach
  obtain ⟨hlive, hevicted⟩ := hhandle ⟨1, 3⟩ (hvalues ▸ mem_cons_self) _ 0 rfl rfl
  refine ⟨hreach, refetching_run, hlive, (hevicted _ refetching_run ?_ (by decide +kernel)).1⟩
  rw [hvalues', mem_singleton]
  intro heq
  cases congrArg SlotRef.id heq

/-! ## A generation that comes back -/

theorem cacheRequest_miss {key : K} {l₁ l₂ : Lru (SlotRef K)} {res : EntryResult}
    {ds : List (SlotRef K)} (reallocOk : Bool) (owner : ℕ) (gate : Option ℕ)
    (hget : (lruGet cfg ks.lru.eq (ks.hash key) key).run c.lru = (.null, l₁))
    (hput : (lruPut cfg ks.lru.eq (ks.hash key) key ⟨c.created + 1, key⟩).run l₁ = (res, l₂))
    (hds : l₂.destroyed = l₁.destroyed ++ ds) :
    cacheRequest cfg ks c ⟨true, true, reallocOk⟩ key owner gate =
      finishMiss (c.created + 1) (newSlot owner (u32 (c.generationCounter + 1))) gate res
        (destroySlots (allocated c owner l₂) ds).1 (destroySlots (allocated c owner l₂) ds).2 := by
  have hdrop : l₂.destroyed.drop l₁.destroyed.length = ds := by rw [hds, drop_left]
  simp only [cacheRequest, hget, requestMiss, Bool.not_true, Bool.or_self, Bool.false_eq_true,
    if_false, hput, hdrop]
  rfl

/-- A cache in which `n` slots have been created and the LRU cache has counted and destroyed other
values. -/
def PrefetchCache.aged (c : PrefetchCache ℕ ℕ) (n : ℕ) (counters : LruCounters)
    (destroyed : List (SlotRef ℕ)) : PrefetchCache ℕ ℕ :=
  { c with created := n, generationCounter := u32 n, lru := { c.lru with counters, destroyed } }

theorem fetching_slots {i : ℕ} (hi : i ≠ 1) : fetching.slots i = none :=
  (update_of_ne hi _ _).trans (update_of_ne hi _ _)

theorem cacheRequest_refused {n : ℕ} (hn : 0 < n) (counters : LruCounters)
    (destroyed : List (SlotRef ℕ)) : ∃ counters', cacheRequest oneSlot numberKeys
      (fetching.aged n counters destroyed) ⟨true, true, true⟩ 5 1 none =
        some (⟨.again, prefetchHandleNone, false, []⟩,
          fetching.aged (n + 1) counters' (destroyed ++ [⟨n + 1, 5⟩])) := by
  obtain ⟨misses, hget⟩ : ∃ k, (lruGet oneSlot numberKeys.lru.eq (numberKeys.hash 5) 5).run
      (fetching.aged n counters destroyed).lru = (.null, (fetching.aged n k destroyed).lru) :=
    ⟨_, rfl⟩
  obtain ⟨failures, hput⟩ : ∃ k,
      (lruPut oneSlot numberKeys.lru.eq (numberKeys.hash 5) 5 ⟨n + 1, 5⟩).run
        (fetching.aged n misses destroyed).lru =
          (.null, (fetching.aged n k (destroyed ++ [⟨n + 1, 5⟩])).lru) := ⟨_, rfl⟩
  have hfree : update fetching.slots (n + 1) none = fetching.slots :=
    update_eq_self_iff.mpr (fetching_slots (by omega)).symm
  refine ⟨failures, (cacheRequest_miss true 1 none hget hput rfl).trans ?_⟩
  simp only [finishMiss, destroySlots, lruSlotDestroy, allocated, PrefetchCache.setSlot,
    PrefetchCache.aged, update_self, newSlot, PrefetchCache.freeSlot, update_idem, hfree, u32_succ_u32]
  rfl

theorem refused_run (n : ℕ) : ∃ counters destroyed,
    CacheRun oneSlot numberKeys fetching (fetching.aged (n + 1) counters destroyed) := by
  induction n with
  | zero => exact ⟨fetching.lru.counters, fetching.lru.destroyed, .refl⟩
  | succ n ih =>
    obtain ⟨counters, destroyed, hrun⟩ := ih
    obtain ⟨counters', hrequest⟩ := cacheRequest_refused (Nat.succ_pos n) counters destroyed
    exact ⟨counters', _, hrun.tail (.request _ _ _ _ _ hrequest)⟩

/-- The fetch of slot 1 has ended, and its owner is below the watermark. -/
def released : PrefetchCache ℕ ℕ := advanceWatermark oneSlot fetched 1

theorem released_aged (n : ℕ) (counters : LruCounters) (destroyed : List (SlotRef ℕ)) :
    advanceWatermark oneSlot (cacheComplete oneSlot (fetching.aged n counters destroyed) ⟨1, 1⟩
      (some 30) .ok).1 1 = released.aged n counters destroyed := rfl

theorem cacheRequest_released {n : ℕ} (hn : 0 < n) (counters : LruCounters)
    (destroyed : List (SlotRef ℕ)) : ∃ c', cacheRequest oneSlot numberKeys
      (released.aged n counters destroyed) ⟨true, true, true⟩ 5 1 none =
        some (⟨.ok, makeHandle 0 (u32 (n + 1)), true, []⟩, c') ∧
      c'.created = n + 1 ∧ c'.lru.values = [⟨n + 1, 5⟩] ∧
      c'.resolveHandle oneSlot (makeHandle 0 (u32 (n + 1))) = some (n + 1) := by
  obtain ⟨misses, hget⟩ : ∃ k, (lruGet oneSlot numberKeys.lru.eq (numberKeys.hash 5) 5).run
      (released.aged n counters destroyed).lru = (.null, (released.aged n k destroyed).lru) :=
    ⟨_, rfl⟩
  obtain ⟨l, hput, hdestroyed, hvalues⟩ : ∃ l,
      (lruPut oneSlot numberKeys.lru.eq (numberKeys.hash 5) 5 ⟨n + 1, 5⟩).run
        (released.aged n misses destroyed).lru = (.entry 0, l) ∧
      l.destroyed = destroyed ++ [⟨1, 3⟩] ∧
      ((lruEntryAcquireLocked 0).run l).2.values = [⟨n + 1, 5⟩] := by
    refine ⟨_, Prod.ext ?_ rfl, ?_, ?_⟩ <;> with_unfolding_all rfl
  have hone (s : PrefetchSlot ℕ) : update released.slots (n + 1) (some s) 1 = released.slots 1 :=
    update_of_ne (by omega) _ _
  have hslot : released.slots 1 = some ⟨some 30, .ready, .ok, 0, 0, 1, [], 0, none, some 0⟩ := rfl
  rw [cacheRequest_miss true 1 none hget hput hdestroyed]
  simp only [finishMiss, destroySlots, lruSlotDestroy, allocated, PrefetchCache.setSlot,
    PrefetchCache.aged, hone, hslot, PrefetchCache.activeRemove, PrefetchCache.uncount,
    PrefetchCache.freeSlot, u32_succ_u32]
  refine ⟨_, rfl, rfl, hvalues, ?_⟩
  have hslot : (makeHandle 0 (u32 (n + 1))).slot = 1 := rfl
  have hgen : (makeHandle 0 (u32 (n + 1))).generation = u32 (n + 1) := rfl
  simp [PrefetchCache.resolveHandle, linkNewSlot, PrefetchCache.setSlot, hslot, hgen, newSlot,
    oneSlot]

/-- **A handle can resolve to a slot that is not its own** after its slot was evicted and one more was
created: slot 1 is pinned while `2 ^ 32 - 1` requests are refused. -/
theorem cacheTable_stale_handle : ∃ c c' : PrefetchCache ℕ ℕ,
    CacheReachable oneSlot numberKeys c ∧ CacheStep oneSlot numberKeys c c' ∧
    c.lru.values = [⟨1, 3⟩] ∧ c.resolveHandle oneSlot ⟨1, 1⟩ = some 1 ∧
    c'.lru.values = [⟨2 ^ 32 + 1, 5⟩] ∧ c'.created = c.created + 1 ∧
    c'.resolveHandle oneSlot ⟨1, 1⟩ = some (2 ^ 32 + 1) := by
  obtain ⟨counters, destroyed, hrun⟩ := refused_run (2 ^ 32 - 1)
  obtain ⟨c', hrequest, hcreated, hvalues, hresolve⟩ :=
    cacheRequest_released (show 0 < 2 ^ 32 by decide) counters destroyed
  refine ⟨released.aged (2 ^ 32) counters destroyed, c', ?_, .request _ _ _ _ _ hrequest, rfl, rfl,
    hvalues, hcreated, hresolve⟩
  rw [← released_aged]
  exact .tail (.tail (.head (.request _ _ _ _ _ fetching_eq) hrun) (.complete _ _ _ _))
    (.advance _ _)

end Damacy

import Damacy.Prefetch.CacheOps

/-!
# Requests for a new key

`lru_put` may drop any number of slots through its callback before the new slot is linked, or drop
the new slot itself when it fails. The slots it drops are unpinned, so none of them is pending or
waited for.
-/

open List Atomic Function

namespace Damacy

variable {K W : Type} {cfg : LruConfig} {ks : PrefetchKeys K} {c c' : PrefetchCache K W}
  {s s' : PrefetchSlot W} {r : SlotRef K} {vs : List (SlotRef K)} {cap : ℕ}

/-! ## Allocating and linking a slot -/

theorem SlotsInv.alloc (h : SlotsInv cap vs c) (s : PrefetchSlot W) {l : Lru (SlotRef K)} {g : ℕ} :
    SlotsInv cap vs { c.setSlot (c.created + 1) s with
      lru := l, created := c.created + 1, generationCounter := g } := by
  refine h.congr (fun r hr => update_of_ne ?_ _ _) (Nat.le_succ _) rfl rfl rfl rfl rfl
    fun _ _ hmem => .inl hmem
  obtain ⟨_, -, -, hok⟩ := h.slot r hr
  have := hok.id_le
  omega

theorem SlotsInv.link (h : SlotsInv cap vs c) (hcap : cap ≤ 2 ^ 30) {entry idx : ℕ} {rest : List ℕ}
    (hfree : c.freeList = idx :: rest) (hstate : s.state = .pending)
    (hok : ∀ ws : List ℕ, ws.length ≤ 1 → SlotOk c.created r.id { s with
      lruEnt := some entry, activeIdx := some idx, waiters := ws })
    (hfresh : ∀ q ∈ vs, q.id ≠ r.id) (hkept : ∀ w, (some r.id, w) ∉ c.destroyedValues)
    (gate : Option ℕ) : SlotsInv cap (r :: vs) (linkNewSlot c r.id entry idx rest s gate) := by
  have hat : (linkNewSlot c r.id entry idx rest s gate).slots r.id = some { s with
      lruEnt := some entry, activeIdx := some idx, waiters := gate.toList } := update_self _ _ _
  have hoff : ∀ q ∈ vs, (linkNewSlot c r.id entry idx rest s gate).slots q.id = c.slots q.id :=
    fun q hq => update_of_ne (hfresh q hq) _ _
  have hidx : (linkNewSlot c r.id entry idx rest s gate).idxOf r = idx := by
    rw [PrefetchCache.idxOf, hat]
    rfl
  have hidxOf : ∀ q ∈ vs, (linkNewSlot c r.id entry idx rest s gate).idxOf q = c.idxOf q :=
    fun q hq => idxOf_congr (hoff q hq)
  have hcount : ∀ st, vs.countP ((linkNewSlot c r.id entry idx rest s gate).inState st) =
      vs.countP (c.inState st) := fun st =>
    countP_congr fun q hq => by rw [inState_congr (hoff q hq)]
  have hlen := h.length_add_free
  have hgate : gate.toList.length ≤ 1 := by cases gate <;> simp
  refine ⟨nodup_cons.mpr ⟨fun hmem => ?_, h.nodup⟩, fun q hq => ?_, ?_, fun i id => ?_, ?_, ?_,
    ?_, fun q hq w hmem => ?_, h.destroyed_le⟩
  · obtain ⟨q, hq, hid⟩ := mem_map.mp hmem
    exact hfresh q hq hid
  · rcases mem_cons.mp hq with rfl | hq
    · exact ⟨_, hat, by rw [hidx], hok _ hgate⟩
    · rw [hoff q hq, hidxOf q hq]
      exact h.slot q hq
  · rw [map_cons, hidx, map_congr_left hidxOf]
    refine List.Perm.trans ?_ h.partition
    rw [hfree]
    exact perm_middle.symm
  · have hnotidx : ∀ q ∈ vs, c.idxOf q ≠ idx := by
      have hnodup := h.partition.nodup_iff.mpr nodup_range
      intro q hq heq
      refine disjoint_of_nodup_append hnodup (mem_map_of_mem hq) ?_
      rw [heq, hfree]
      exact mem_cons_self
    show update c.active idx (some r.id) i = some id ↔ _
    rw [update_apply]
    split
    · rename_i hi
      subst hi
      constructor
      · intro heq
        exact ⟨r, mem_cons_self, Option.some.inj heq, hidx⟩
      · rintro ⟨q, hq, hid, hqi⟩
        rcases mem_cons.mp hq with rfl | hq
        · rw [hid]
        · exact (hnotidx q hq ((hidxOf q hq).symm.trans hqi)).elim
    · rename_i hi
      rw [h.active]
      constructor
      · rintro ⟨q, hq, hid, hqi⟩
        exact ⟨q, mem_cons_of_mem _ hq, hid, (hidxOf q hq).trans hqi⟩
      · rintro ⟨q, hq, hid, hqi⟩
        rcases mem_cons.mp hq with rfl | hq
        · exact (hi (hqi.symm.trans hidx)).elim
        · exact ⟨q, hq, hid, (hidxOf q hq).symm.trans hqi⟩
  · show u32 (c.nActive + 1) = vs.length + 1
    rw [h.nActive, u32_of_lt (by omega)]
  · rw [countP_cons_of_slot hat, hcount]
    show u64 (c.pendingCount + 1) = _
    have := countP_le_length (p := c.inState .pending) (l := vs)
    rw [h.pending, u64_of_lt (by omega)]
    simp [hstate]
  · rw [countP_cons_of_slot hat, hcount]
    show c.erroredCount = _
    rw [h.errored]
    simp [hstate]
  · rcases mem_cons.mp hq with rfl | hq
    · exact hkept w hmem
    · exact h.kept q hq w hmem

/-! ## The callbacks of one insertion -/

theorem destroySlots_append (ds es : List (SlotRef K)) :
    ∀ c : PrefetchCache K W, destroySlots c (ds ++ es) =
      ((destroySlots (destroySlots c ds).1 es).1,
        (destroySlots c ds).2 ++ (destroySlots (destroySlots c ds).1 es).2) := by
  induction ds with
  | nil => exact fun c => rfl
  | cons r rest ih =>
    intro c
    simp only [cons_append, destroySlots, ih, append_assoc]

theorem destroySlots_ops (ds : List (SlotRef K)) :
    ∀ c : PrefetchCache K W, (∀ r ∈ ds, ∀ s, c.slots r.id = some s → s.waiters = []) →
      (destroySlots c ds).2 = [] := by
  induction ds with
  | nil => exact fun _ _ => rfl
  | cons r rest ih =>
    intro c hidle
    have hhead : (lruSlotDestroy c r).2 = [] := by
      rw [lruSlotDestroy]
      split
      · rfl
      · rename_i s hs
        rw [show _ = releaseWaiters s true from rfl, releaseWaiters,
          hidle r mem_cons_self s hs]
        rfl
    have htail := ih (lruSlotDestroy c r).1 fun q hq s hs => ?_
    · show (lruSlotDestroy c r).2 ++ (destroySlots (lruSlotDestroy c r).1 rest).2 = []
      rw [hhead, htail]
      rfl
    · by_cases hid : q.id = r.id
      · -- the slot is gone
        rw [hid, lruSlotDestroy] at hs
        split at hs
        · rename_i hnone
          rw [hnone] at hs
          cases hs
        · dsimp only [PrefetchCache.freeSlot] at hs
          rw [update_self] at hs
          cases hs
      · rw [(lruSlotDestroy_destroys c r).slots q.id (by simpa using hid)] at hs
        exact hidle q (mem_cons_of_mem _ hq) s hs

theorem accounted_cancel {V : Type} {a b d ds : List V} {v : V}
    (h : (a ++ (d ++ ds)).Perm (v :: (b ++ d))) : (a ++ ds).Perm (v :: b) := by
  rw [← perm_append_right_iff d, cons_append]
  refine List.Perm.trans ?_ h
  rw [append_assoc]
  exact perm_append_comm.append_left a

/-- What the insertion of the new slot did to the live ones: `ds` were dropped, `kept` stayed. -/
structure PutSplit (c : PrefetchCache K W) (l : Lru (SlotRef K)) (ds kept : List (SlotRef K)) :
    Prop where
  perm : c.lru.values.Perm (ds ++ kept)
  idle : ∀ q ∈ ds, ∀ t, c.slots q.id = some t → t.state ≠ .pending ∧ t.maxOwner < c.watermark
  kept : ∀ q ∈ kept, q ∈ l.values

theorem CacheInv.id_le (h : CacheInv cfg ks c) (hr : r ∈ c.lru.values) : r.id ≤ c.created := by
  obtain ⟨_, -, -, hok⟩ := h.slots.slot r hr
  exact hok.id_le

theorem CacheInv.idle_of_dropped (h : CacheInv cfg ks c) {l : Lru (SlotRef K)}
    (hk : KeepsPinned c.lru l) (hr : r ∈ c.lru.values) (hgone : r ∉ l.values)
    (hs : c.slots r.id = some s) : s.state ≠ .pending ∧ s.maxOwner < c.watermark := by
  obtain ⟨j, hj, hjr⟩ := Lru.mem_values.mp hr
  obtain ⟨t, ht, hpin⟩ := h.pins j hj r hjr
  obtain rfl := Option.some.inj (hs.symm.trans ht)
  obtain ⟨-, hone⟩ | ⟨-, -, hdone, hbelow⟩ := hpin
  · have hsame := hk.pinned j hj (by omega)
    exact (hgone (Lru.mem_values.mpr ⟨j, hsame.live, by rw [hsame.slot, hjr]⟩)).elim
  · exact ⟨hdone, hbelow⟩

theorem CacheInv.putSplit (h : CacheInv cfg ks c) {l : Lru (SlotRef K)} (hk : KeepsPinned c.lru l)
    {ds kept : List (SlotRef K)} (hp : c.lru.values.Perm (ds ++ kept))
    (hkept : ∀ q ∈ kept, q ∈ l.values)
    (hnew : ∀ q ∈ l.values, q ∈ kept ∨ q.id = c.created + 1) : PutSplit c l ds kept := by
  refine ⟨hp, fun q hq t ht => ?_, hkept⟩
  have hmem : q ∈ c.lru.values := hp.mem_iff.mpr (mem_append_left _ hq)
  refine h.idle_of_dropped hk hmem (fun hlive => ?_) ht
  have hnodup : ((ds ++ kept).map SlotRef.id).Nodup := (hp.map _).nodup_iff.mp h.slots.nodup
  rcases hnew q hlive with hq' | hid
  · rw [map_append] at hnodup
    exact disjoint_of_nodup_append hnodup (mem_map_of_mem hq) (mem_map_of_mem hq')
  · have := h.id_le hmem
    omega

theorem CacheInv.pin_kept (h : CacheInv cfg ks c) {l : Lru (SlotRef K)} (hk : KeepsPinned c.lru l)
    {j : ℕ} (hj : j ∈ c.lru.order) (hr : (c.lru.slots j).value = some r) :
    ∃ s, c.slots r.id = some s ∧ PinOk c.watermark (l.refcount j) j s := by
  obtain ⟨s, hs, hpin⟩ := h.pins j hj r hr
  refine ⟨s, hs, hpin.imp (fun hone => ?_) fun hfree => ?_⟩
  · exact ⟨hone.1, (hk.refcount_eq j hj (by omega)).trans hone.2⟩
  · exact ⟨hfree.1, Nat.le_zero.mp (hfree.2.1 ▸ hk.refcount_le j), hfree.2.2⟩

/-! ## The whole request -/

def linkedSlot (owner generation entry idx : ℕ) (gate : Option ℕ) : PrefetchSlot W :=
  { newSlot owner generation with
    lruEnt := some entry, activeIdx := some idx, waiters := gate.toList }

inductive MissOutcome (c : PrefetchCache K W) (key : K) (owner : ℕ) (gate : Option ℕ) :
    RequestOutcome → PrefetchCache K W → Prop
  | oom (c' : PrefetchCache K W) (values : c'.lru.values.Perm c.lru.values)
      (slots : c'.slots = c.slots) :
      MissOutcome c key owner gate ⟨.oom, prefetchHandleNone, false, []⟩ c'
  | again (c' : PrefetchCache K W) (ds : List (SlotRef K))
      (split : PutSplit c c'.lru ds c'.lru.values)
      (slots : ∀ q ∈ c'.lru.values, c'.slots q.id = c.slots q.id) :
      MissOutcome c key owner gate ⟨.again, prefetchHandleNone, false, []⟩ c'
  | ok (c' : PrefetchCache K W) (ds kept : List (SlotRef K)) (entry idx : ℕ)
      (split : PutSplit c c'.lru ds kept)
      (values : c'.lru.values.Perm (⟨c.created + 1, key⟩ :: kept))
      (slots : ∀ q ∈ kept, c'.slots q.id = c.slots q.id)
      (slot : c'.slots (c.created + 1) =
        some (linkedSlot owner (u32 (c.created + 1)) entry idx gate)) :
      MissOutcome c key owner gate
        ⟨.ok, makeHandle idx (u32 (c.created + 1)), true, gate.toList.map .incPending⟩ c'

/-- The cache with the new slot allocated and the insertion in the LRU cache done. -/
def allocated (c : PrefetchCache K W) (owner : ℕ) (l : Lru (SlotRef K)) : PrefetchCache K W :=
  { c.setSlot (c.created + 1) (newSlot owner (u32 (c.generationCounter + 1))) with
    lru := l, created := c.created + 1, generationCounter := u32 (c.generationCounter + 1) }

theorem SlotOk.new {owner g created id : ℕ} (hpos : 0 < id) (hle : id ≤ created) (hg : g = u32 id)
    (entry idx : ℕ) (ws : List ℕ) (hws : ws.length ≤ 1) :
    SlotOk created id ({ newSlot owner g with
      lruEnt := some entry, activeIdx := some idx, waiters := ws } : PrefetchSlot W) := by
  refine ⟨hpos, hle, hg, fun hno => (hno rfl).elim, ?_, .inl rfl⟩
  show ws.length ≤ waitersInline + 0
  rw [waitersInline]
  omega

section Miss

variable {env : RequestEnv} {key : K} {owner : ℕ} {gate : Option ℕ} {l : Lru (SlotRef K)}
  {ds kept : List (SlotRef K)}

theorem allocated_new (h : CacheInv cfg ks c) (hp : c.lru.values.Perm (ds ++ kept)) (owner : ℕ)
    (l : Lru (SlotRef K)) : (destroySlots (allocated c owner l) ds).1.slots (c.created + 1) =
      some (newSlot owner (u32 (c.generationCounter + 1))) := by
  rw [(destroySlots_destroys ds (allocated c owner l)).slots]
  · exact update_self _ _ _
  · intro hmem
    obtain ⟨q, hq, hid⟩ := mem_map.mp hmem
    have := h.id_le (hp.mem_iff.mpr (mem_append_left _ hq))
    omega

theorem allocated_kept (h : CacheInv cfg ks c) (hp : c.lru.values.Perm (ds ++ kept)) (owner : ℕ)
    (l : Lru (SlotRef K)) {es : List (SlotRef K)} (hes : ∀ q ∈ es, q ∈ ds ∨ q.id = c.created + 1) :
    ∀ q ∈ kept, (destroySlots (allocated c owner l) es).1.slots q.id = c.slots q.id := by
  intro q hq
  have hqle := h.id_le (hp.mem_iff.mpr (mem_append_right _ hq))
  rw [(destroySlots_destroys es (allocated c owner l)).slots]
  · exact update_of_ne (by omega) _ _
  · have hnodup : ((ds ++ kept).map SlotRef.id).Nodup := (hp.map _).nodup_iff.mp h.slots.nodup
    rw [map_append] at hnodup
    intro hmem
    obtain ⟨e, he, hid⟩ := mem_map.mp hmem
    rcases hes e he with hd | hnew
    · exact disjoint_of_nodup_append hnodup (hid ▸ mem_map_of_mem hd)
        (mem_map_of_mem hq)
    · omega

theorem allocated_ops (h : CacheInv cfg ks c) (hsplit : PutSplit c l ds kept) (owner : ℕ)
    {es : List (SlotRef K)} (hes : ∀ q ∈ es, q ∈ ds ∨ q.id = c.created + 1) :
    (destroySlots (allocated c owner l) es).2 = [] := by
  refine destroySlots_ops es _ fun q hq t ht => ?_
  rcases hes q hq with hmem | hid
  · have hlive := hsplit.perm.mem_iff.mpr (mem_append_left kept hmem)
    have hne : q.id ≠ c.created + 1 := by
      have := h.id_le hlive
      omega
    have ht' : c.slots q.id = some t := (update_of_ne hne _ _).symm.trans ht
    obtain ⟨_, hs, -, hok⟩ := h.slots.slot q hlive
    obtain rfl := Option.some.inj (hs.symm.trans ht')
    exact hok.idle (hsplit.idle q hmem _ ht').1
  · rw [hid] at ht
    have hnew : (allocated c owner l).slots (c.created + 1) =
        some (newSlot owner (u32 (c.generationCounter + 1))) := update_self _ _ _
    obtain rfl := Option.some.inj (hnew.symm.trans ht)
    rfl

theorem evolves_of_split (hsplit : PutSplit c c'.lru ds kept)
    (hnew : ∀ q ∈ c'.lru.values, q ∈ kept ∨ q.id = c.created + 1)
    (hslots : ∀ q ∈ kept, c'.slots q.id = c.slots q.id) (hw : c'.watermark = c.watermark)
    (hcreated : c'.created = c.created + 1) : Evolves c c' := by
  refine ⟨hw.ge, by omega, fun q hq t ht hkeep => ?_, fun q hq hid => ?_⟩
  · rcases mem_append.mp (hsplit.perm.mem_iff.mp hq) with hmem | hmem
    · have hidle := hsplit.idle q hmem t ht
      rcases hkeep with hpending | hle
      · exact (hidle.1 hpending).elim
      · omega
    · exact hsplit.kept q hmem
  · rcases hnew q hq with hmem | hid'
    · refine ⟨hsplit.perm.mem_iff.mpr (mem_append_right _ hmem), fun t ht => ?_⟩
      exact ⟨t, (hslots q hmem).trans ht, .refl t⟩
    · omega

theorem u32_succ_u32 (n : ℕ) : u32 (u32 n + 1) = u32 (n + 1) := Nat.mod_add_mod n (2 ^ 32) 1

theorem CacheInv.slots_dropped (h : CacheInv cfg ks c) (hp : c.lru.values.Perm (ds ++ kept))
    (owner : ℕ) (l : Lru (SlotRef K)) :
    SlotsInv cfg.capacity kept (destroySlots (allocated c owner l) ds).1 :=
  ((h.slots.alloc (newSlot owner (u32 (c.generationCounter + 1)))).perm hp).destroyAll ds

theorem CacheInv.miss_null (h : CacheInv cfg ks c) (hk : KeepsPinned c.lru l) (owner : ℕ)
    (gate : Option ℕ) (hput : PutFailed cfg ks.lru ⟨c.created + 1, key⟩ c.lru l) :
    ∃ c', destroySlots (allocated c owner l) (l.destroyed.drop c.lru.destroyed.length) = (c', []) ∧
      CacheInv cfg ks c' ∧ Evolves c c' ∧
      MissOutcome c key owner gate ⟨.again, prefetchHandleNone, false, []⟩ c' := by
  obtain ⟨ds, hds⟩ := hput.destroyed
  have hdrop : l.destroyed.drop c.lru.destroyed.length = ds ++ [⟨c.created + 1, key⟩] := by
    rw [hds, append_assoc, drop_left]
  -- the values are those before without the dropped ones
  have hperm : c.lru.values.Perm (ds ++ l.values) := by
    have hacc := hput.accounted
    rw [hds, append_assoc] at hacc
    have := accounted_cancel hacc
    rw [← append_assoc] at this
    exact ((perm_cons _).mp ((perm_append_singleton _ _).symm.trans this)).symm.trans
      perm_append_comm
  have hsplit : PutSplit c l ds l.values :=
    h.putSplit hk hperm (fun _ hq => hq) fun q hq => .inl hq
  have hes : ∀ q ∈ ds ++ [(⟨c.created + 1, key⟩ : SlotRef K)], q ∈ ds ∨ q.id = c.created + 1 := by
    intro q hq
    rcases mem_append.mp hq with hq | hq
    · exact .inl hq
    · obtain rfl := mem_singleton.mp hq
      exact .inr rfl
  have hframe := destroySlots_destroys (ds ++ [⟨c.created + 1, key⟩]) (allocated c owner l)
  have hkept := allocated_kept h hperm owner l hes
  have hslots := (h.slots_dropped hperm owner l).destroy_unlinked (r := ⟨c.created + 1, key⟩)
    (allocated_new h hperm owner l) rfl rfl fun q hq => by
      have := h.id_le (hperm.mem_iff.mpr (mem_append_right _ hq))
      dsimp only
      omega
  have hsame : (destroySlots (allocated c owner l) (ds ++ [⟨c.created + 1, key⟩])).1 =
      (lruSlotDestroy (destroySlots (allocated c owner l) ds).1 ⟨c.created + 1, key⟩).1 := by
    rw [destroySlots_append]
    rfl
  rw [← hsame] at hslots
  rw [hdrop]
  generalize hc' : (destroySlots (allocated c owner l) (ds ++ [⟨c.created + 1, key⟩])).1 = c' at *
  obtain rfl : c'.lru = l := hframe.lru
  refine ⟨c', Prod.ext hc' (allocated_ops h hsplit owner hes),
    ⟨hput.inv, hslots, fun j hj r hr => ?_, ?_⟩,
    evolves_of_split hsplit (fun q hq => .inl hq) hkept hframe.watermark hframe.created,
    .again c' ds hsplit hkept⟩
  · obtain ⟨hj', hsj⟩ := hput.live j hj
    rw [hkept r (Lru.mem_values.mpr ⟨j, hj, hr⟩), hframe.watermark]
    exact h.pin_kept hk hj' (hsj ▸ hr)
  · rw [hframe.generationCounter, hframe.created]
    show u32 (c.generationCounter + 1) = u32 (c.created + 1)
    rw [h.generation, u32_succ_u32]

theorem CacheInv.miss_entry (h : CacheInv cfg ks c) (hk : KeepsPinned c.lru l) (owner : ℕ)
    (gate : Option ℕ) {entry : ℕ} (hput : PutDone cfg ks.lru ⟨c.created + 1, key⟩ entry c.lru l) :
    ∃ c₁ idx rest,
      destroySlots (allocated c owner l) (l.destroyed.drop c.lru.destroyed.length) = (c₁, []) ∧
      c₁.freeList = idx :: rest ∧
      ∀ c', c' = linkNewSlot c₁ (c.created + 1) entry idx rest
        (newSlot owner (u32 (c.generationCounter + 1))) gate →
      CacheInv cfg ks c' ∧ Evolves c c' ∧ MissOutcome c key owner gate
        ⟨.ok, makeHandle idx (u32 (c.created + 1)), true, gate.toList.map .incPending⟩ c' := by
  obtain ⟨ds, hds⟩ := hput.destroyed
  have hdrop : l.destroyed.drop c.lru.destroyed.length = ds := by
    rw [← hds, drop_left]
  let kept := (l.order.erase entry).filterMap fun i => (l.slots i).value
  have hvalues : l.values.Perm (⟨c.created + 1, key⟩ :: kept) := by
    have := (perm_cons_erase hput.live).filterMap fun i => (l.slots i).value
    rwa [filterMap_cons_some (f := fun i => (l.slots i).value) hput.slot_value] at this
  have hperm : c.lru.values.Perm (ds ++ kept) := by
    have hacc := hput.accounted
    rw [← hds] at hacc
    have := (hvalues.append_right ds).symm.trans (accounted_cancel hacc)
    exact ((perm_cons _).mp this).symm.trans perm_append_comm
  have hnew : ∀ q ∈ l.values, q ∈ kept ∨ q.id = c.created + 1 := by
    intro q hq
    rcases mem_cons.mp (hvalues.mem_iff.mp hq) with rfl | hq
    · exact .inr rfl
    · exact .inl hq
  have hsplit : PutSplit c l ds kept :=
    h.putSplit hk hperm (fun _ hq => hvalues.mem_iff.mpr (mem_cons_of_mem _ hq)) hnew
  have hframe := destroySlots_destroys ds (allocated c owner l)
  have hes : ∀ q ∈ ds, q ∈ ds ∨ q.id = c.created + 1 := fun q hq => .inl hq
  have hkept := allocated_kept h hperm owner l hes
  have hops := allocated_ops h hsplit owner hes
  have hslots := h.slots_dropped hperm owner l
  rw [hdrop]
  generalize hc₁ : (destroySlots (allocated c owner l) ds).1 = c₁ at *
  -- the LRU cache holds one value more than are linked
  have hroom : kept.length < cfg.capacity := by
    have hlen := hput.inv.length_eq
    have hle := length_filterMap_le (fun i => (l.slots i).value) l.order
    have hcons := hvalues.length_eq
    rw [length_cons] at hcons
    rw [Lru.values] at hcons
    omega
  obtain ⟨idx, rest, hfree⟩ : ∃ idx rest, c₁.freeList = idx :: rest := by
    refine exists_cons_of_ne_nil fun hnil => ?_
    have := hslots.length_add_free
    rw [hnil, length_nil] at this
    omega
  refine ⟨c₁, idx, rest, Prod.ext hc₁ hops, hfree, ?_⟩
  rintro c' rfl
  have hg : u32 (c.generationCounter + 1) = u32 (c.created + 1) := by
    rw [h.generation, u32_succ_u32]
  have hfresh : ∀ q ∈ kept, q.id ≠ c.created + 1 := fun q hq => by
    have := h.id_le (hperm.mem_iff.mpr (mem_append_right _ hq))
    omega
  have hnever : ∀ w, (some (c.created + 1), w) ∉ c₁.destroyedValues := by
    intro w hmem
    rcases hframe.destroyed _ w hmem with hmem | hmem
    · have := h.slots.destroyed_le _ w hmem
      omega
    · obtain ⟨q, hq, hid⟩ := mem_map.mp hmem
      have := h.id_le (hperm.mem_iff.mpr (mem_append_left _ hq))
      omega
  have hslot : ∀ ws : List ℕ, ws.length ≤ 1 → SlotOk c₁.created (c.created + 1)
      ({ newSlot owner (u32 (c.generationCounter + 1)) with
        lruEnt := some entry, activeIdx := some idx, waiters := ws } : PrefetchSlot W) :=
    fun ws hws => .new (Nat.succ_pos _) hframe.created.ge hg entry idx ws hws
  have hlink := hslots.link (r := ⟨c.created + 1, key⟩) cfg.capacity_le hfree rfl hslot hfresh
    hnever gate
  have hlru : c₁.lru = l := hframe.lru
  have hoff : ∀ q ∈ kept, (linkNewSlot c₁ (c.created + 1) entry idx rest
      (newSlot owner (u32 (c.generationCounter + 1))) gate).slots q.id = c.slots q.id :=
    fun q hq => (update_of_ne (hfresh q hq) _ _).trans (hkept q hq)
  have hat : (linkNewSlot c₁ (c.created + 1) entry idx rest
      (newSlot owner (u32 (c.generationCounter + 1))) gate).slots (c.created + 1) =
      some (linkedSlot owner (u32 (c.created + 1)) entry idx gate) := by
    rw [hg]
    exact update_self _ _ _
  subst hlru
  replace hsplit : PutSplit c (linkNewSlot c₁ (c.created + 1) entry idx rest
      (newSlot owner (u32 (c.generationCounter + 1))) gate).lru ds kept :=
    ⟨hsplit.perm, hsplit.idle, hsplit.kept⟩
  refine ⟨⟨⟨hput.inv.toLruSlots.congr_index rfl, hput.inv.index⟩, hlink.perm hvalues.symm,
    fun j hj r hr => ?_, ?_⟩, evolves_of_split hsplit hnew hoff hframe.watermark hframe.created,
    .ok _ ds kept entry idx hsplit hvalues hoff hat⟩
  · by_cases hje : j = entry
    · subst hje
      obtain rfl := Option.some.inj (hput.slot_value.symm.trans hr)
      refine ⟨_, hat, .inl ⟨rfl, ?_⟩⟩
      show update c₁.lru.refcount j (u32 (c₁.lru.refcount j + 1)) j = 1
      rw [update_self, hput.refcount]
      rfl
    · obtain ⟨hj', hsj⟩ := hput.others j hj hje
      have hmem : r ∈ kept := mem_filterMap.mpr ⟨j, (mem_erase_of_ne hje).mpr hj, hr⟩
      rw [hoff r hmem]
      obtain ⟨t, ht, hpin⟩ := h.pin_kept hk hj' (hsj ▸ hr)
      refine ⟨t, ht, ?_⟩
      show PinOk c₁.watermark (update c₁.lru.refcount entry _ j) j t
      rw [update_of_ne hje, hframe.watermark]
      exact hpin
  · show c₁.generationCounter = u32 c₁.created
    rw [hframe.generationCounter, hframe.created]
    exact hg

theorem requestMiss_eq (henv : ¬(!env.cloneOk || !env.mallocOk) = true) {res : EntryResult}
    (hput : (lruPut cfg ks.lru.eq (ks.hash key) key ⟨c.created + 1, key⟩).run c.lru = (res, l)) :
    requestMiss cfg ks c env key owner gate =
      finishMiss (c.created + 1) (newSlot owner (u32 (c.generationCounter + 1))) gate res
        (destroySlots (allocated c owner l) (l.destroyed.drop c.lru.destroyed.length)).1
        (destroySlots (allocated c owner l) (l.destroyed.drop c.lru.destroyed.length)).2 := by
  rw [requestMiss, if_neg henv]
  dsimp only
  rw [hput]
  rfl

theorem CacheInv.miss (h : CacheInv cfg ks c) (env : RequestEnv) (key : K) (owner : ℕ)
    (gate : Option ℕ) :
    (requestMiss cfg ks c env key owner gate = none ∧ cfg.maxProbe = uint32Max) ∨
      ∃ o c', requestMiss cfg ks c env key owner gate = some (o, c') ∧
        CacheInv cfg ks c' ∧ Evolves c c' ∧ MissOutcome c key owner gate o c' := by
  by_cases henv : (!env.cloneOk || !env.mallocOk) = true
  · rw [requestMiss, if_pos henv]
    exact .inr ⟨_, _, rfl, h, .refl c, .oom c (.refl _) rfl⟩
  · have hkey : ks.lru.same (ks.lru.keyOf ⟨c.created + 1, key⟩) key := ks.equiv.refl _
    obtain ⟨hpost, hk⟩ := lruPut_run h.lru hkey
    rcases hput : (lruPut cfg ks.lru.eq (ks.hash key) key
      (⟨c.created + 1, key⟩ : SlotRef K)).run c.lru with ⟨res, l⟩
    rw [requestMiss_eq henv hput]
    change (lruPut cfg ks.lru.eq (ks.lru.hash key) key _).run c.lru = _ at hput
    rw [hput] at hpost hk
    cases res with
    | null =>
      obtain ⟨c₁, heq, hdone⟩ := h.miss_null hk owner gate hpost.1
      rw [heq]
      exact .inr ⟨_, _, rfl, hdone⟩
    | entry entry =>
      obtain ⟨c₁, idx, rest, heq, hfree, hlink⟩ := h.miss_entry hk owner gate hpost
      have hg : u32 (c.generationCounter + 1) = u32 (c.created + 1) := by
        rw [h.generation, u32_succ_u32]
      rw [heq, finishMiss]
      dsimp only
      rw [hfree]
      refine .inr ⟨_, _, rfl, ?_⟩
      have hdone := hlink _ rfl
      rwa [← hg] at hdone
    | searching =>
      exact .inl ⟨rfl, hpost.2⟩
    | diverged => exact hpost.elim

end Miss

end Damacy

import Damacy.Prefetch.PrefetchCache

/-!
# The invariant of the prefetch cache

`SlotsInv` ties the heap of slots, `active`, the free list and the counters to a list of live slots;
it says nothing of the LRU cache, so it holds step by step while the LRU cache makes its callbacks.
`CacheInv` adds that the live slots are the values of the LRU cache, and how they are pinned there:
once by the slot's own reference, or not at all, in which case the slot is not pending and all its
owners are below the watermark.
-/

open List Atomic Function

namespace Damacy

variable {K W : Type}

namespace PrefetchCache

def idxOf (c : PrefetchCache K W) (r : SlotRef K) : ℕ :=
  ((c.slots r.id).bind PrefetchSlot.activeIdx).getD 0

def inState (c : PrefetchCache K W) (st : PrefetchState) (r : SlotRef K) : Bool :=
  (c.slots r.id).any fun s => s.state = st

end PrefetchCache

structure SlotOk (created id : ℕ) (s : PrefetchSlot W) : Prop where
  id_pos : 0 < id
  id_le : id ≤ created
  generation : s.generation = u32 id
  idle : s.state ≠ .pending → s.waiters = []
  waiters_le : s.waiters.length ≤ waitersInline + s.capHeap
  capHeap : s.capHeap = 0 ∨ ∃ k ≤ 31, s.capHeap = 2 ^ k

/-- The live slots `vs` in the heap, in `active` and in the counters. -/
structure SlotsInv (capacity : ℕ) (vs : List (SlotRef K)) (c : PrefetchCache K W) : Prop where
  nodup : (vs.map SlotRef.id).Nodup
  slot : ∀ r ∈ vs, ∃ s, c.slots r.id = some s ∧ s.activeIdx = some (c.idxOf r) ∧
    SlotOk c.created r.id s
  partition : (vs.map c.idxOf ++ c.freeList).Perm (List.range capacity)
  active : ∀ i id, c.active i = some id ↔ ∃ r ∈ vs, r.id = id ∧ c.idxOf r = i
  nActive : c.nActive = vs.length
  pending : c.pendingCount = vs.countP (c.inState .pending)
  errored : c.erroredCount = vs.countP (c.inState .error)
  kept : ∀ r ∈ vs, ∀ w, (some r.id, w) ∉ c.destroyedValues
  destroyed_le : ∀ id w, (some id, w) ∈ c.destroyedValues → id ≤ c.created

variable {cap : ℕ} {vs : List (SlotRef K)} {r : SlotRef K} {c c' : PrefetchCache K W}
  {s s' : PrefetchSlot W}

namespace SlotsInv

theorem perm (h : SlotsInv cap vs c) {vs' : List (SlotRef K)} (hp : vs.Perm vs') :
    SlotsInv cap vs' c := by
  refine ⟨(hp.map _).nodup_iff.mp h.nodup, fun r hr => h.slot r (hp.mem_iff.mpr hr),
    ((hp.symm.map _).append_right _).trans h.partition, fun i id => ?_, ?_, ?_, ?_,
    fun r hr => h.kept r (hp.mem_iff.mpr hr), h.destroyed_le⟩
  · rw [h.active]
    constructor
    · rintro ⟨r, hr, hid⟩
      exact ⟨r, hp.mem_iff.mp hr, hid⟩
    · rintro ⟨r, hr, hid⟩
      exact ⟨r, hp.mem_iff.mpr hr, hid⟩
  · rw [h.nActive, hp.length_eq]
  · rw [h.pending, hp.countP_eq]
  · rw [h.errored, hp.countP_eq]

theorem length_add_free (h : SlotsInv cap vs c) : vs.length + c.freeList.length = cap := by
  have := h.partition.length_eq
  rwa [length_append, length_map, length_range] at this

theorem idx_lt (h : SlotsInv cap vs c) (hr : r ∈ vs) : c.idxOf r < cap := by
  have hmem : c.idxOf r ∈ vs.map c.idxOf ++ c.freeList :=
    mem_append_left _ (mem_map_of_mem hr)
  exact mem_range.mp (h.partition.mem_iff.mp hmem)

theorem id_ne (h : SlotsInv cap (r :: vs) c) {q : SlotRef K} (hq : q ∈ vs) : q.id ≠ r.id := by
  have := h.nodup
  rw [map_cons, nodup_cons] at this
  intro heq
  exact this.1 (heq ▸ mem_map_of_mem hq)

end SlotsInv

theorem idxOf_congr (h : c'.slots r.id = c.slots r.id) : c'.idxOf r = c.idxOf r := by
  rw [PrefetchCache.idxOf, h]
  rfl

theorem inState_congr (h : c'.slots r.id = c.slots r.id) (st : PrefetchState) :
    c'.inState st r = c.inState st r := by
  rw [PrefetchCache.inState, h]
  rfl

/-! ## Writing one slot -/

theorem SlotsInv.congr (h : SlotsInv cap vs c) (hslots : ∀ r ∈ vs, c'.slots r.id = c.slots r.id)
    (hcreated : c.created ≤ c'.created) (hactive : c'.active = c.active)
    (hfree : c'.freeList = c.freeList) (hn : c'.nActive = c.nActive)
    (hp : c'.pendingCount = c.pendingCount) (he : c'.erroredCount = c.erroredCount)
    (hd : ∀ id w, (some id, w) ∈ c'.destroyedValues →
      (some id, w) ∈ c.destroyedValues ∨ (∀ r ∈ vs, r.id ≠ id) ∧ id ≤ c'.created) :
    SlotsInv cap vs c' := by
  have hidx : ∀ r ∈ vs, c'.idxOf r = c.idxOf r := fun r hr => idxOf_congr (hslots r hr)
  refine ⟨h.nodup, fun r hr => ?_, ?_, fun i id => ?_, hn.trans h.nActive, ?_, ?_,
    fun r hr w hmem => ?_, fun id w hmem => ?_⟩
  · obtain ⟨s, hs, hi, hok⟩ := h.slot r hr
    refine ⟨s, (hslots r hr).trans hs, by rw [hidx r hr, hi], ?_⟩
    exact ⟨hok.id_pos, hok.id_le.trans hcreated, hok.generation, hok.idle, hok.waiters_le, hok.capHeap⟩
  · rw [map_congr_left hidx, hfree]
    exact h.partition
  · rw [hactive, h.active]
    constructor
    · rintro ⟨r, hr, hid, hi⟩
      exact ⟨r, hr, hid, (hidx r hr).trans hi⟩
    · rintro ⟨r, hr, hid, hi⟩
      exact ⟨r, hr, hid, (hidx r hr).symm.trans hi⟩
  · rw [hp, h.pending]
    exact countP_congr fun r hr => by rw [inState_congr (hslots r hr)]
  · rw [he, h.errored]
    exact countP_congr fun r hr => by rw [inState_congr (hslots r hr)]
  · rcases hd _ _ hmem with hold | ⟨hne, -⟩
    · exact h.kept r hr w hold
    · exact hne r hr rfl
  · rcases hd _ _ hmem with hold | ⟨-, hle⟩
    · exact (h.destroyed_le id w hold).trans hcreated
    · exact hle

theorem countP_cons_of_slot (hs : c.slots r.id = some s) (st : PrefetchState) :
    (r :: vs).countP (c.inState st) = vs.countP (c.inState st) + if s.state = st then 1 else 0 := by
  rw [countP_cons, PrefetchCache.inState, hs, Option.any_some]
  simp only [decide_eq_true_eq]

theorem SlotsInv.write (h : SlotsInv cap (r :: vs) c) (hs : c.slots r.id = some s)
    (hslots : c'.slots = update c.slots r.id (some s')) (hidx : s'.activeIdx = s.activeIdx)
    (hok : SlotOk c.created r.id s') (hcreated : c'.created = c.created)
    (hactive : c'.active = c.active) (hfree : c'.freeList = c.freeList)
    (hn : c'.nActive = c.nActive)
    (hp : c'.pendingCount =
      vs.countP (c.inState .pending) + if s'.state = .pending then 1 else 0)
    (he : c'.erroredCount = vs.countP (c.inState .error) + if s'.state = .error then 1 else 0)
    (hd : ∀ id w, (some id, w) ∈ c'.destroyedValues → (some id, w) ∈ c.destroyedValues) :
    SlotsInv cap (r :: vs) c' := by
  have hat : c'.slots r.id = some s' := by rw [hslots, update_self]
  have hoff : ∀ q ∈ vs, c'.slots q.id = c.slots q.id := fun q hq => by
    rw [hslots, update_of_ne (h.id_ne hq)]
  have hidxOf : ∀ q ∈ r :: vs, c'.idxOf q = c.idxOf q := by
    intro q hq
    rcases mem_cons.mp hq with rfl | hq
    · rw [PrefetchCache.idxOf, hat, PrefetchCache.idxOf, hs, Option.bind_some, Option.bind_some, hidx]
    · exact idxOf_congr (hoff q hq)
  have hcount : ∀ st, (r :: vs).countP (c'.inState st) =
      vs.countP (c.inState st) + if s'.state = st then 1 else 0 := by
    intro st
    rw [countP_cons_of_slot hat]
    congr 1
    exact countP_congr fun q hq => by rw [inState_congr (hoff q hq)]
  refine ⟨h.nodup, fun q hq => ?_, ?_, fun i id => ?_, hn.trans h.nActive, hp.trans (hcount _).symm,
    he.trans (hcount _).symm, fun q hq w hmem => h.kept q hq w (hd _ _ hmem),
    fun id w hmem => hcreated ▸ h.destroyed_le id w (hd _ _ hmem)⟩
  · rw [hidxOf q hq, hcreated]
    rcases mem_cons.mp hq with rfl | hq
    · obtain ⟨t, ht, hi, -⟩ := h.slot q mem_cons_self
      obtain rfl := Option.some.inj (hs.symm.trans ht)
      exact ⟨s', hat, hidx.trans hi, hok⟩
    · rw [hoff q hq]
      exact h.slot q (mem_cons_of_mem _ hq)
  · rw [map_congr_left hidxOf, hfree]
    exact h.partition
  · rw [hactive, h.active]
    constructor
    · rintro ⟨q, hq, hid, hi⟩
      exact ⟨q, hq, hid, (hidxOf q hq).trans hi⟩
    · rintro ⟨q, hq, hid, hi⟩
      exact ⟨q, hq, hid, (hidxOf q hq).symm.trans hi⟩

theorem SlotsInv.setSlot (h : SlotsInv cap (r :: vs) c) (hs : c.slots r.id = some s)
    (hidx : s'.activeIdx = s.activeIdx) (hstate : s'.state = s.state)
    (hok : SlotOk c.created r.id s') : SlotsInv cap (r :: vs) (c.setSlot r.id s') := by
  refine h.write hs rfl hidx hok rfl rfl rfl rfl ?_ ?_ fun _ _ hmem => hmem
  · rw [hstate, ← countP_cons_of_slot hs]
    exact h.pending
  · rw [hstate, ← countP_cons_of_slot hs]
    exact h.errored

theorem SlotsInv.countP_lt (h : SlotsInv cap vs c) (hcap : cap ≤ 2 ^ 30) (st : PrefetchState) :
    vs.countP (c.inState st) < 2 ^ 64 := by
  have := h.length_add_free
  have := countP_le_length (p := c.inState st) (l := vs)
  omega

theorem SlotsInv.complete (h : SlotsInv cap (r :: vs) c) (hcap : cap ≤ 2 ^ 30)
    (hs : c.slots r.id = some s) (hpending : s.state = .pending) (value : Option W) (err : Status) :
    SlotsInv cap (r :: vs) (slotComplete c r.id s value err).1 := by
  obtain ⟨t, ht, -, hok⟩ := h.slot r mem_cons_self
  obtain rfl := Option.some.inj (hs.symm.trans ht)
  have hp := h.pending
  have he := h.errored
  have hlt := h.countP_lt hcap
  rw [countP_cons_of_slot hs, hpending] at hp he
  have hlp := hlt .pending
  have hle := hlt .error
  rw [countP_cons_of_slot hs, hpending] at hlp hle
  simp only [reduceIte, reduceCtorEq, Nat.add_zero] at hp he hlp hle
  rw [slotComplete]
  split
  · refine h.write hs rfl rfl ⟨hok.id_pos, hok.id_le, hok.generation, fun _ => rfl, Nat.zero_le _,
      hok.capHeap⟩ rfl rfl rfl rfl ?_ ?_ fun _ _ hmem => hmem
    · show u64Pred c.pendingCount = _
      rw [hp, u64Pred_succ]
      rfl
    · exact he
  · refine h.write hs rfl rfl ⟨hok.id_pos, hok.id_le, hok.generation, fun _ => rfl, Nat.zero_le _,
      hok.capHeap⟩ rfl rfl rfl rfl ?_ ?_ ?_
    · show u64Pred c.pendingCount = _
      rw [hp, u64Pred_succ]
      rfl
    · show u64 (c.erroredCount + 1) = _
      have := h.length_add_free
      have := countP_le_length (p := c.inState .error) (l := vs)
      rw [he, u64_of_lt (by rw [length_cons] at *; omega)]
      rfl
    · intro id w hmem
      rcases mem_append.mp hmem with hmem | hmem
      · exact hmem
      · simp at hmem

/-! ## Destroying slots -/

section Uncount

variable (c) (st : PrefetchState)

@[simp] theorem uncount_lru : (c.uncount st).lru = c.lru := by cases st <;> rfl
@[simp] theorem uncount_slots : (c.uncount st).slots = c.slots := by cases st <;> rfl
@[simp] theorem uncount_active : (c.uncount st).active = c.active := by cases st <;> rfl
@[simp] theorem uncount_freeList : (c.uncount st).freeList = c.freeList := by cases st <;> rfl
@[simp] theorem uncount_nActive : (c.uncount st).nActive = c.nActive := by cases st <;> rfl
@[simp] theorem uncount_created : (c.uncount st).created = c.created := by cases st <;> rfl
@[simp] theorem uncount_watermark : (c.uncount st).watermark = c.watermark := by cases st <;> rfl
@[simp] theorem uncount_generationCounter :
    (c.uncount st).generationCounter = c.generationCounter := by cases st <;> rfl
@[simp] theorem uncount_destroyedValues :
    (c.uncount st).destroyedValues = c.destroyedValues := by cases st <;> rfl

theorem uncount_pendingCount {n : ℕ}
    (h : c.pendingCount = n + if st = .pending then 1 else 0) : (c.uncount st).pendingCount = n := by
  cases st with
  | pending =>
    rw [if_pos rfl] at h
    rw [PrefetchCache.uncount, h, u64Pred_succ]
  | ready | error =>
    rw [if_neg (by decide), Nat.add_zero] at h
    rw [PrefetchCache.uncount, h]

theorem uncount_erroredCount {n : ℕ}
    (h : c.erroredCount = n + if st = .error then 1 else 0) : (c.uncount st).erroredCount = n := by
  cases st with
  | error =>
    rw [if_pos rfl] at h
    rw [PrefetchCache.uncount, h, u64Pred_succ]
  | ready | pending =>
    rw [if_neg (by decide), Nat.add_zero] at h
    rw [PrefetchCache.uncount, h]

end Uncount

/-- The callbacks for some slots leave the LRU cache, the counters of slots and the watermark alone,
and free no other slot. -/
structure Destroys (ids : List ℕ) (c c' : PrefetchCache K W) : Prop where
  lru : c'.lru = c.lru
  created : c'.created = c.created
  generationCounter : c'.generationCounter = c.generationCounter
  watermark : c'.watermark = c.watermark
  slots : ∀ id ∉ ids, c'.slots id = c.slots id
  destroyed : ∀ id w, (some id, w) ∈ c'.destroyedValues → (some id, w) ∈ c.destroyedValues ∨ id ∈ ids

theorem Destroys.refl (c : PrefetchCache K W) : Destroys [] c c :=
  ⟨rfl, rfl, rfl, rfl, fun _ _ => rfl, fun _ _ => .inl⟩

theorem Destroys.trans {ids ids' : List ℕ} {c'' : PrefetchCache K W} (h : Destroys ids c c')
    (h' : Destroys ids' c' c'') : Destroys (ids ++ ids') c c'' := by
  refine ⟨h'.lru.trans h.lru, h'.created.trans h.created,
    h'.generationCounter.trans h.generationCounter, h'.watermark.trans h.watermark,
    fun id hid => ?_, fun id w hmem => ?_⟩
  · rw [mem_append, not_or] at hid
    exact (h'.slots id hid.2).trans (h.slots id hid.1)
  · rw [mem_append]
    rcases h'.destroyed id w hmem with hmem | hid
    · exact (h.destroyed id w hmem).imp_right .inl
    · exact .inr (.inr hid)

theorem lruSlotDestroy_destroys (c : PrefetchCache K W) (r : SlotRef K) :
    Destroys [r.id] c (lruSlotDestroy c r).1 := by
  have hfree : ∀ (d : PrefetchCache K W) (v : Option W), Destroys [r.id] d (d.freeSlot r.id v) := by
    refine fun d v => ⟨rfl, rfl, rfl, rfl, fun id hid => update_of_ne (by simpa using hid) _ _, ?_⟩
    intro id w hmem
    rcases mem_append.mp hmem with hmem | hmem
    · exact .inl hmem
    · obtain ⟨_, -, heq⟩ := mem_map.mp hmem
      simp only [Prod.mk.injEq, Option.some.injEq] at heq
      exact .inr (by simp [heq.1])
  rw [lruSlotDestroy]
  split
  · exact ⟨rfl, rfl, rfl, rfl, fun _ _ => rfl, fun _ _ => .inl⟩
  · rename_i s hs
    dsimp only
    split
    · exact hfree c s.value
    · rename_i i _
      have hremove : Destroys [] c ((c.activeRemove i).uncount s.state) :=
        ⟨uncount_lru _ _, uncount_created _ _, uncount_generationCounter _ _, uncount_watermark _ _,
          fun id _ => congrFun (uncount_slots _ _) id,
          fun _ _ hmem => .inl (by rw [uncount_destroyedValues] at hmem; exact hmem)⟩
      exact hremove.trans (hfree _ s.value)

theorem destroySlots_destroys (ds : List (SlotRef K)) :
    ∀ c : PrefetchCache K W, Destroys (ds.map SlotRef.id) c (destroySlots c ds).1 := by
  induction ds with
  | nil => exact fun c => .refl c
  | cons r rest ih => exact fun c => (lruSlotDestroy_destroys c r).trans (ih _)

theorem SlotsInv.destroy (h : SlotsInv cap (r :: vs) c) :
    SlotsInv cap vs (lruSlotDestroy c r).1 := by
  obtain ⟨s, hs, hidx, hok⟩ := h.slot r mem_cons_self
  have hframe := lruSlotDestroy_destroys c r
  have hoff : ∀ q ∈ vs, (lruSlotDestroy c r).1.slots q.id = c.slots q.id := fun q hq =>
    hframe.slots q.id (by simpa using h.id_ne hq)
  have hidxOf : ∀ q ∈ vs, (lruSlotDestroy c r).1.idxOf q = c.idxOf q :=
    fun q hq => idxOf_congr (hoff q hq)
  have hcount : ∀ st, vs.countP ((lruSlotDestroy c r).1.inState st) = vs.countP (c.inState st) :=
    fun st => countP_congr fun q hq => by rw [inState_congr (hoff q hq)]
  have heq : (lruSlotDestroy c r).1 =
      ((c.activeRemove (c.idxOf r)).uncount s.state).freeSlot r.id s.value := by
    rw [lruSlotDestroy, hs]
    dsimp only
    rw [hidx]
  have hdestroyed : ∀ id w, (some id, w) ∈ (lruSlotDestroy c r).1.destroyedValues →
      (some id, w) ∈ c.destroyedValues ∨ id = r.id := fun id w hmem =>
    (hframe.destroyed id w hmem).imp_right mem_singleton.mp
  refine ⟨(nodup_cons.mp h.nodup).2, fun q hq => ?_, ?_, fun i id => ?_, ?_, ?_, ?_,
    fun q hq w hmem => ?_, fun id w hmem => ?_⟩
  · rw [hoff q hq, hidxOf q hq, hframe.created]
    exact h.slot q (mem_cons_of_mem _ hq)
  · rw [map_congr_left hidxOf, heq]
    simp only [PrefetchCache.freeSlot, uncount_freeList, PrefetchCache.activeRemove]
    exact perm_middle.trans h.partition
  · -- the index of the slot was its own
    have hfresh : ∀ q ∈ vs, c.idxOf q ≠ c.idxOf r := by
      have hnodup := (h.partition.nodup_iff.mpr nodup_range).of_append_left
      rw [map_cons, nodup_cons] at hnodup
      intro q hq heq
      exact hnodup.1 (heq ▸ mem_map_of_mem hq)
    have hactive : (lruSlotDestroy c r).1.active = update c.active (c.idxOf r) none := by
      rw [heq]
      simp only [PrefetchCache.freeSlot, uncount_active, PrefetchCache.activeRemove]
    rw [hactive, update_apply]
    split
    · rename_i hi
      subst hi
      constructor
      · intro hno
        cases hno
      · rintro ⟨q, hq, -, hi⟩
        rw [hidxOf q hq] at hi
        exact (hfresh q hq hi).elim
    · rename_i hi
      rw [h.active]
      constructor
      · rintro ⟨q, hq, hid, hqi⟩
        rcases mem_cons.mp hq with rfl | hq
        · exact (hi hqi.symm).elim
        · exact ⟨q, hq, hid, (hidxOf q hq).trans hqi⟩
      · rintro ⟨q, hq, hid, hqi⟩
        exact ⟨q, mem_cons_of_mem _ hq, hid, (hidxOf q hq).symm.trans hqi⟩
  · rw [heq]
    simp only [PrefetchCache.freeSlot, uncount_nActive, PrefetchCache.activeRemove]
    rw [h.nActive, length_cons, u32Pred_succ]
  · rw [hcount, heq]
    refine uncount_pendingCount _ _ ?_
    show c.pendingCount = _
    rw [h.pending, countP_cons_of_slot hs]
  · rw [hcount, heq]
    refine uncount_erroredCount _ _ ?_
    show c.erroredCount = _
    rw [h.errored, countP_cons_of_slot hs]
  · rcases hdestroyed _ _ hmem with hmem | hid
    · exact h.kept q (mem_cons_of_mem _ hq) w hmem
    · exact h.id_ne hq hid
  · rw [hframe.created]
    rcases hdestroyed _ _ hmem with hmem | rfl
    · exact h.destroyed_le id w hmem
    · exact hok.id_le

theorem SlotsInv.destroyAll (ds : List (SlotRef K)) :
    ∀ {c : PrefetchCache K W}, SlotsInv cap (ds ++ vs) c →
      SlotsInv cap vs (destroySlots c ds).1 := by
  induction ds with
  | nil => exact fun h => h
  | cons r rest ih => exact fun h => ih h.destroy

theorem SlotsInv.destroy_unlinked (h : SlotsInv cap vs c) (hs : c.slots r.id = some s)
    (hidx : s.activeIdx = none) (hvalue : s.value = none) (hfresh : ∀ q ∈ vs, q.id ≠ r.id) :
    SlotsInv cap vs (lruSlotDestroy c r).1 := by
  have heq : (lruSlotDestroy c r).1 = c.freeSlot r.id none := by
    rw [lruSlotDestroy, hs]
    dsimp only
    rw [hidx, hvalue]
  rw [heq]
  refine h.congr (fun q hq => update_of_ne (hfresh q hq) _ _) le_rfl rfl rfl rfl rfl rfl ?_
  intro id w hmem
  exact .inl (by simpa [PrefetchCache.freeSlot] using hmem)

end Damacy

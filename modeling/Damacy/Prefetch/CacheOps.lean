import Mathlib.Algebra.Order.Ring.Nat
import Damacy.Prefetch.CacheInvariant

/-!
# The critical sections of the prefetch cache

Each critical section keeps `CacheInv`, and `Evolves` says what it does to the slots: a slot that is
pending, or that an owner at or above the watermark uses, survives it, and a slot that has survived
keeps its index, its generation and, once its fetch has completed, its value.
-/

open List Atomic Function

namespace Damacy

variable {K W : Type} {cfg : LruConfig} {ks : PrefetchKeys K} {c c' : PrefetchCache K W}
  {s s' : PrefetchSlot W} {r : SlotRef K} {j : ℕ}

/-! ## The invariant -/

/-- How the slot of LRU entry `j` is pinned: by its own reference, or not at all. -/
def PinOk (watermark refcount j : ℕ) (s : PrefetchSlot W) : Prop :=
  s.lruEnt = some j ∧ refcount = 1 ∨
    s.lruEnt = none ∧ refcount = 0 ∧ s.state ≠ .pending ∧ s.maxOwner < watermark

structure CacheInv (cfg : LruConfig) (ks : PrefetchKeys K) (c : PrefetchCache K W) : Prop where
  lru : LruInv cfg ks.lru [] c.lru
  slots : SlotsInv cfg.capacity c.lru.values c
  pins : ∀ j ∈ c.lru.order, ∀ r, (c.lru.slots j).value = some r →
    ∃ s, c.slots r.id = some s ∧ PinOk c.watermark (c.lru.refcount j) j s
  generation : c.generationCounter = u32 c.created

theorem Lru.mem_values {V : Type} {l : Lru V} {v : V} :
    v ∈ l.values ↔ ∃ j ∈ l.order, (l.slots j).value = some v := mem_filterMap

namespace CacheInv

theorem entry_unique (h : CacheInv cfg ks c) {j' : ℕ} {r' : SlotRef K} (hj : j ∈ c.lru.order)
    (hr : (c.lru.slots j).value = some r) (hj' : j' ∈ c.lru.order)
    (hr' : (c.lru.slots j').value = some r') (hid : r.id = r'.id) : j = j' := by
  have heq : r = r' := inj_on_of_nodup_map h.slots.nodup (Lru.mem_values.mpr ⟨j, hj, hr⟩)
    (Lru.mem_values.mpr ⟨j', hj', hr'⟩) hid
  subst heq
  exact h.lru.unique j hj j' hj' r r hr hr' (ks.equiv.refl _)

theorem split (h : CacheInv cfg ks c) (hr : r ∈ c.lru.values) :
    ∃ rest, c.lru.values.Perm (r :: rest) ∧ SlotsInv cfg.capacity (r :: rest) c := by
  obtain ⟨l₁, l₂, hl⟩ := append_of_mem hr
  have hperm : c.lru.values.Perm (r :: (l₁ ++ l₂)) := hl ▸ perm_middle
  exact ⟨l₁ ++ l₂, hperm, h.slots.perm hperm⟩

theorem create (cfg : LruConfig) (ks : PrefetchKeys K) :
    CacheInv cfg ks (prefetchCacheCreate cfg : PrefetchCache K W) := by
  refine ⟨LruInv.create cfg ks.lru,
    ⟨nodup_nil, ?_, .refl _, fun i id => ?_, rfl, rfl, rfl, ?_, ?_⟩, ?_, rfl⟩
  · intro r hr
    cases hr
  · constructor
    · intro hno
      cases hno
    · rintro ⟨r, hr, -⟩
      cases hr
  · intro r hr
    cases hr
  · intro id w hmem
    cases hmem
  · intro j hj
    cases hj

theorem touched (h : CacheInv cfg ks c) {l : Lru (SlotRef K)} (ht : Touched c.lru l) :
    CacheInv cfg ks { c with lru := l } := by
  have hvalues : c.lru.values.Perm l.values := by
    rw [Lru.values, Lru.values, ht.slots]
    exact ht.order.symm.filterMap _
  have hslots := h.slots.perm hvalues
  refine ⟨ht.inv h.lru, ⟨hslots.nodup, hslots.slot, hslots.partition, hslots.active, hslots.nActive,
    hslots.pending, hslots.errored, hslots.kept, hslots.destroyed_le⟩, fun j hj r hr => ?_,
    h.generation⟩
  rw [show ({ c with lru := l } : PrefetchCache K W).lru = l from rfl] at hj hr ⊢
  rw [ht.slots] at hr
  rw [ht.refcount]
  exact h.pins j (ht.order.mem_iff.mp hj) r hr

theorem write (h : CacheInv cfg ks c) (hj : j ∈ c.lru.order) (hr : (c.lru.slots j).value = some r)
    (hs : c.slots r.id = some s) (hidx : s'.activeIdx = s.activeIdx) (hstate : s'.state = s.state)
    (hok : SlotOk c.created r.id s') {rc : ℕ} (hpin : PinOk c.watermark rc j s') :
    CacheInv cfg ks ({ c with
      lru := { c.lru with refcount := update c.lru.refcount j rc } }.setSlot r.id s') := by
  have hmem : r ∈ c.lru.values := Lru.mem_values.mpr ⟨j, hj, hr⟩
  obtain ⟨rest, hperm, hsplit⟩ := h.split hmem
  have hslots := (hsplit.setSlot hs hidx hstate hok).perm hperm.symm
  refine ⟨⟨h.lru.toLruSlots.congr_index rfl, h.lru.index⟩, ⟨hslots.nodup, hslots.slot,
    hslots.partition, hslots.active, hslots.nActive, hslots.pending, hslots.errored, hslots.kept,
    hslots.destroyed_le⟩, fun j' hj' r' hr' => ?_, h.generation⟩
  by_cases heq : j' = j
  · subst heq
    obtain rfl := Option.some.inj (hr.symm.trans hr')
    refine ⟨s', update_self _ _ _, ?_⟩
    show PinOk c.watermark (update c.lru.refcount j' rc j') j' s'
    rwa [update_self]
  · have hne : r'.id ≠ r.id := fun hid => heq (h.entry_unique hj' hr' hj hr hid)
    obtain ⟨t, ht, hpin'⟩ := h.pins j' hj' r' hr'
    refine ⟨t, (update_of_ne hne _ _).trans ht, ?_⟩
    show PinOk c.watermark (update c.lru.refcount j rc j') j' t
    rwa [update_of_ne heq]

end CacheInv

/-! ## What a critical section does to the slots -/

structure SlotEvolves (s s' : PrefetchSlot W) : Prop where
  activeIdx : s'.activeIdx = s.activeIdx
  generation : s'.generation = s.generation
  maxOwner_le : s.maxOwner ≤ s'.maxOwner
  completed : s.state ≠ .pending → s'.state = s.state ∧ s'.value = s.value ∧ s'.err = s.err

theorem SlotEvolves.refl (s : PrefetchSlot W) : SlotEvolves s s :=
  ⟨rfl, rfl, le_rfl, fun _ => ⟨rfl, rfl, rfl⟩⟩

theorem SlotEvolves.trans {s'' : PrefetchSlot W} (h : SlotEvolves s s') (h' : SlotEvolves s' s'') :
    SlotEvolves s s'' := by
  refine ⟨h'.activeIdx.trans h.activeIdx, h'.generation.trans h.generation,
    h.maxOwner_le.trans h'.maxOwner_le, fun hs => ?_⟩
  obtain ⟨hstate, hvalue, herr⟩ := h.completed hs
  obtain ⟨hstate', hvalue', herr'⟩ := h'.completed (hstate ▸ hs)
  exact ⟨hstate'.trans hstate, hvalue'.trans hvalue, herr'.trans herr⟩

structure Evolves (c c' : PrefetchCache K W) : Prop where
  watermark_le : c.watermark ≤ c'.watermark
  created_le : c.created ≤ c'.created
  /-- Pending slots and those in use survive. -/
  survives : ∀ r ∈ c.lru.values, ∀ s, c.slots r.id = some s →
    s.state = .pending ∨ c'.watermark ≤ s.maxOwner → r ∈ c'.lru.values
  /-- The slots that were there before have survived. -/
  old : ∀ r ∈ c'.lru.values, r.id ≤ c.created → r ∈ c.lru.values ∧
    ∀ s, c.slots r.id = some s → ∃ s', c'.slots r.id = some s' ∧ SlotEvolves s s'

theorem Evolves.of_values {l : Lru (SlotRef K)} (hp : l.values.Perm c.lru.values) :
    Evolves c { c with lru := l } :=
  ⟨le_rfl, le_rfl, fun _ hr _ _ _ => hp.mem_iff.mpr hr,
    fun _ hr _ => ⟨hp.mem_iff.mp hr, fun s hs => ⟨s, hs, .refl s⟩⟩⟩

theorem Evolves.refl (c : PrefetchCache K W) : Evolves c c := .of_values (.refl _)

theorem Evolves.trans_of_values {l : Lru (SlotRef K)} (hp : l.values.Perm c.lru.values)
    (h : Evolves { c with lru := l } c') : Evolves c c' := by
  refine ⟨h.watermark_le, h.created_le, fun r hr => h.survives r (hp.mem_iff.mpr hr),
    fun r hr hid => ?_⟩
  obtain ⟨hmem, hslot⟩ := h.old r hr hid
  exact ⟨hp.mem_iff.mp hmem, hslot⟩

theorem Evolves.setSlot {l : Lru (SlotRef K)} (hp : l.values.Perm c.lru.values)
    (hs : c.slots r.id = some s) (he : SlotEvolves s s')
    (hslots : c'.slots = update c.slots r.id (some s'))
    (hlru : c'.lru = l) (hw : c.watermark ≤ c'.watermark) (hcreated : c'.created = c.created) :
    Evolves c c' := by
  refine ⟨hw, hcreated.ge, fun q hq _ _ _ => hlru ▸ hp.mem_iff.mpr hq, fun q hq _ =>
    ⟨hp.mem_iff.mp (hlru ▸ hq), fun t ht => ?_⟩⟩
  rw [hslots, update_apply]
  split
  · rename_i hid
    rw [hid, hs] at ht
    obtain rfl := Option.some.inj ht
    exact ⟨s', rfl, he⟩
  · exact ⟨t, ht, .refl t⟩

/-! ## Hits -/

theorem slotRegisterWaiter_eq_some {reallocOk : Bool} {gate : Option ℕ}
    (h : slotRegisterWaiter reallocOk s gate = some s') :
    s' = { s with waiters := s.waiters ++ gate.toList, capHeap := s'.capHeap } ∧
      (s'.capHeap = s.capHeap ∧ (gate ≠ none → s.waiters.length < waitersInline ∨
        s.waiters.length - waitersInline ≠ s.capHeap) ∨
        s'.capHeap = (if s.capHeap = 0 then 4 else u32 (s.capHeap * 2)) ∧ s'.capHeap ≠ 0 ∧
          s.waiters.length - waitersInline = s.capHeap) := by
  cases gate with
  | none =>
    obtain rfl := Option.some.inj h
    refine ⟨?_, .inl ⟨rfl, fun hno => (hno rfl).elim⟩⟩
    simp
  | some g =>
    rw [slotRegisterWaiter] at h
    split at h
    · rename_i hinline
      obtain rfl := Option.some.inj h
      exact ⟨rfl, .inl ⟨rfl, fun _ => .inl hinline⟩⟩
    · split at h
      · rename_i hfull
        dsimp only at h
        generalize (if s.capHeap = 0 then 4 else u32 (s.capHeap * 2)) = newCap at h
        split at h
        · rename_i hok
          obtain rfl := Option.some.inj h
          simp only [Bool.and_eq_true, decide_eq_true_eq] at hok
          exact ⟨rfl, .inr ⟨rfl, hok.2, hfull⟩⟩
        · cases h
      · rename_i hroom
        obtain rfl := Option.some.inj h
        exact ⟨rfl, .inl ⟨rfl, fun _ => .inr hroom⟩⟩

theorem u32_double {n k : ℕ} (hk : k ≤ 31) (hn : n = 2 ^ k) (hne : u32 (n * 2) ≠ 0) :
    u32 (n * 2) = n * 2 ∧ ∃ k ≤ 31, n * 2 = 2 ^ k := by
  have hk31 : k ≠ 31 := by
    rintro rfl
    rw [hn] at hne
    exact hne rfl
  have hpow : n * 2 = 2 ^ (k + 1) := by rw [hn, pow_succ]
  have hle : 2 ^ (k + 1) ≤ 2 ^ 31 := Nat.pow_le_pow_right (by decide) (by omega)
  exact ⟨u32_of_lt (by omega), k + 1, by omega, hpow⟩

theorem SlotOk.register {created id : ℕ} {reallocOk : Bool} {gate : Option ℕ}
    (hok : SlotOk created id s) (hpending : s.state = .pending)
    (h : slotRegisterWaiter reallocOk s gate = some s') : SlotOk created id s' := by
  obtain ⟨heq, hcap⟩ := slotRegisterWaiter_eq_some h
  have hstate : s'.state = s.state := by rw [heq]
  have hgen : s'.generation = s.generation := by rw [heq]
  have hlen : s'.waiters.length = s.waiters.length + gate.toList.length := by
    rw [heq, length_append]
  have hgate : gate.toList.length ≤ 1 := by cases gate <;> simp
  have hgate0 : gate = none → gate.toList.length = 0 := by
    rintro rfl
    rfl
  have hgrow : s'.capHeap = (if s.capHeap = 0 then 4 else u32 (s.capHeap * 2)) → s'.capHeap ≠ 0 →
      s.capHeap + 1 ≤ s'.capHeap ∧ ∃ k ≤ 31, s'.capHeap = 2 ^ k := by
    intro hnew hne
    rw [hnew] at hne ⊢
    split
    · rename_i hzero
      exact ⟨by omega, 2, by decide, rfl⟩
    · rename_i hpos
      rw [if_neg hpos] at hne
      obtain ⟨k, hk, hpow⟩ := hok.capHeap.resolve_left hpos
      obtain ⟨hdouble, hpow'⟩ := u32_double hk hpow hne
      rw [hdouble]
      exact ⟨by omega, hpow'⟩
  refine ⟨hok.id_pos, hok.id_le, hgen.trans hok.generation, fun hne => ?_, ?_, ?_⟩
  · exact (hne (hstate.trans hpending)).elim
  · have hw := hok.waiters_le
    rw [hlen, waitersInline] at *
    rcases hcap with ⟨hsame, hroom⟩ | ⟨hnew, hne, hfull⟩
    · by_cases hnone : gate = none
      · have := hgate0 hnone
        omega
      · have := hroom hnone
        omega
    · have := (hgrow hnew hne).1
      omega
  · rcases hcap with ⟨hsame, -⟩ | ⟨hnew, hne, -⟩
    · rw [hsame]
      exact hok.capHeap
    · exact .inr (hgrow hnew hne).2

/-- The slot after a hit: joined by the owner, with the gate among its waiters or not. -/
structure HitSlot (watermark entry owner : ℕ) (s s' : PrefetchSlot W) : Prop where
  eq : s' = { joinSlot watermark entry owner s with waiters := s'.waiters, capHeap := s'.capHeap }
  ok : ∀ created id, SlotOk created id s → SlotOk created id s'

inductive HitOutcome (gate : Option ℕ) (s s' : PrefetchSlot W) : RequestOutcome → Prop
  | registered (state : s.state = .pending) (waiters : s'.waiters = s.waiters ++ gate.toList) :
      HitOutcome gate s s' ⟨.ok, makeHandle (s.activeIdx.getD uint32Max) s.generation, false,
        gate.toList.map .incPending⟩
  | refused (state : s.state = .pending) (waiters : s'.waiters = s.waiters) :
      HitOutcome gate s s' ⟨.oom, prefetchHandleNone, false,
        gate.toList.flatMap fun g => [.incPending g, .decPending g]⟩
  | failed (state : s.state = .error) (waiters : s'.waiters = s.waiters) :
      HitOutcome gate s s' ⟨.ok, makeHandle (s.activeIdx.getD uint32Max) s.generation, false,
        gate.toList.map .setError⟩
  | ready (state : s.state = .ready) (waiters : s'.waiters = s.waiters) :
      HitOutcome gate s s' ⟨.ok, makeHandle (s.activeIdx.getD uint32Max) s.generation, false, []⟩

def hitLru (c : PrefetchCache K W) (entry owner : ℕ) (s : PrefetchSlot W) : Lru (SlotRef K) :=
  if needsPin c.watermark owner s then ((lruEntryAcquireLocked entry).run c.lru).2 else c.lru

@[simp] theorem hitLru_values (c : PrefetchCache K W) (entry owner : ℕ) (s : PrefetchSlot W) :
    (hitLru c entry owner s).values = c.lru.values := by
  rw [hitLru]
  split <;> rfl

theorem joinSlot_ok {watermark entry owner created id : ℕ} (h : SlotOk created id s) :
    SlotOk created id (joinSlot watermark entry owner s) :=
  ⟨h.id_pos, h.id_le, h.generation, h.idle, h.waiters_le, h.capHeap⟩

theorem requestHit_cases {entry : ℕ} (env : RequestEnv) (owner : ℕ) (gate : Option ℕ)
    (hr : (c.lru.slots entry).value = some r) (hs : c.slots r.id = some s) :
    ∃ o s', requestHit c env entry owner gate =
        some (o, { c with lru := hitLru c entry owner s }.setSlot r.id s') ∧
      HitSlot c.watermark entry owner s s' ∧ HitOutcome gate s s' o := by
  rw [requestHit, hr, Option.bind_eq_bind, Option.bind_some, hs, Option.bind_eq_bind,
    Option.bind_some]
  dsimp only
  have hjoin : HitSlot c.watermark entry owner s (joinSlot c.watermark entry owner s) :=
    ⟨rfl, fun _ _ => joinSlot_ok⟩
  have hstate : (joinSlot c.watermark entry owner s).state = s.state := rfl
  rw [hstate]
  split
  · rename_i hstate
    split
    · exact ⟨_, _, rfl, hjoin, .refused hstate rfl⟩
    · rename_i s₂ hreg
      obtain ⟨heq, -⟩ := slotRegisterWaiter_eq_some hreg
      have hout : HitOutcome gate s s₂ ⟨.ok, makeHandle (s.activeIdx.getD uint32Max) s.generation,
          false, gate.toList.map .incPending⟩ := .registered hstate (by rw [heq]; rfl)
      refine ⟨_, s₂, rfl, ⟨by rw [heq], fun _ _ hok => (joinSlot_ok hok).register hstate hreg⟩, ?_⟩
      rw [heq] at hout ⊢
      exact hout
  · rename_i hstate
    exact ⟨_, _, rfl, hjoin, .failed hstate rfl⟩
  · rename_i hstate
    exact ⟨_, _, rfl, hjoin, .ready hstate rfl⟩

theorem CacheInv.hit (h : CacheInv cfg ks c) {entry owner : ℕ} (hj : entry ∈ c.lru.order)
    (hr : (c.lru.slots entry).value = some r) (hs : c.slots r.id = some s)
    (hhit : HitSlot c.watermark entry owner s s') :
    CacheInv cfg ks ({ c with lru := hitLru c entry owner s }.setSlot r.id s') ∧
      Evolves c ({ c with lru := hitLru c entry owner s }.setSlot r.id s') ∧
      owner ≤ s'.maxOwner := by
  have hmem : r ∈ c.lru.values := Lru.mem_values.mpr ⟨entry, hj, hr⟩
  obtain ⟨t, ht, hidx, hok⟩ := h.slots.slot r hmem
  obtain rfl := Option.some.inj (hs.symm.trans ht)
  obtain ⟨t, ht, hpin⟩ := h.pins entry hj r hr
  obtain rfl := Option.some.inj (hs.symm.trans ht)
  have hmax : s'.maxOwner = if s.maxOwner < owner then owner else s.maxOwner := by rw [hhit.eq]; rfl
  have hent : s'.lruEnt = if needsPin c.watermark owner s then some entry else s.lruEnt := by
    rw [hhit.eq]
    rfl
  have hstate : s'.state = s.state := by rw [hhit.eq]; rfl
  have hevolves : SlotEvolves s s' := by
    refine ⟨by rw [hhit.eq]; rfl, by rw [hhit.eq]; rfl, ?_, fun _ => ?_⟩
    · rw [hmax]
      split <;> omega
    · rw [hhit.eq]
      exact ⟨rfl, rfl, rfl⟩
  refine ⟨?_, .setSlot (.of_eq (hitLru_values c entry owner s)) hs hevolves rfl rfl le_rfl rfl,
    by rw [hmax]; split <;> omega⟩
  by_cases hneeds : needsPin c.watermark owner s = true
  · -- the slot was not pinned, so the refcount goes from zero to one
    have hnone : s.lruEnt = none := by
      rw [needsPin, Bool.and_eq_true, Option.isNone_iff_eq_none] at hneeds
      exact hneeds.1
    obtain ⟨hsome, -⟩ | ⟨-, hzero, -, -⟩ := hpin
    · rw [hnone] at hsome
      cases hsome
    · have hlru : hitLru c entry owner s =
          { c.lru with refcount := update c.lru.refcount entry 1 } := by
        rw [hitLru, if_pos hneeds]
        show { c.lru with
          refcount := update c.lru.refcount entry (u32 (c.lru.refcount entry + 1)) } = _
        rw [hzero]
        rfl
      rw [hlru]
      refine h.write hj hr hs hevolves.activeIdx hstate (hhit.ok _ _ hok) (.inl ⟨?_, rfl⟩)
      rw [hent, if_pos hneeds]
  · have hlru : hitLru c entry owner s =
        { c.lru with refcount := update c.lru.refcount entry (c.lru.refcount entry) } := by
      rw [hitLru, if_neg hneeds, update_eq_self]
    rw [hlru]
    refine h.write hj hr hs hevolves.activeIdx hstate (hhit.ok _ _ hok) ?_
    rw [PinOk, hent, if_neg hneeds, hstate, hmax]
    obtain hpinned | ⟨hnone, hzero, hdone, hbelow⟩ := hpin
    · exact .inl hpinned
    · right
      refine ⟨hnone, hzero, hdone, ?_⟩
      rw [needsPin, hnone] at hneeds
      simp at hneeds
      split <;> omega

/-! ## Completions -/

theorem resolveHandle_eq_some {hd : PrefetchHandle} {id : ℕ}
    (h : c.resolveHandle cfg hd = some id) :
    0 < hd.slot ∧ hd.slot - 1 < cfg.capacity ∧ c.active (hd.slot - 1) = some id ∧
      ∃ s, c.slots id = some s ∧ s.generation = hd.generation := by
  rw [PrefetchCache.resolveHandle] at h
  split at h
  · cases h
  · split at h
    · cases h
    · split at h
      · cases h
      · rename_i hslot hcap id' hactive
        split at h
        · rename_i hgen
          obtain rfl := Option.some.inj h
          obtain ⟨s, hs, hsg⟩ := Option.map_eq_some_iff.mp hgen
          exact ⟨by omega, by omega, hactive, s, hs, hsg⟩
        · cases h

theorem CacheInv.refuseValue (h : CacheInv cfg ks c) (value : Option W) :
    CacheInv cfg ks (c.refuseValue value) := by
  refine ⟨h.lru, h.slots.congr (fun _ _ => rfl) le_rfl rfl rfl rfl rfl rfl ?_, h.pins, h.generation⟩
  intro id w hmem
  rcases mem_append.mp hmem with hmem | hmem
  · exact .inl hmem
  · simp at hmem

theorem CacheInv.complete (h : CacheInv cfg ks c) (hr : r ∈ c.lru.values)
    (hs : c.slots r.id = some s) (hpending : s.state = .pending) (value : Option W) (err : Status) :
    CacheInv cfg ks (slotComplete c r.id s value err).1 ∧
      Evolves c (slotComplete c r.id s value err).1 := by
  obtain ⟨rest, hperm, hsplit⟩ := h.split hr
  have hslots := (hsplit.complete cfg.capacity_le hs hpending value err).perm hperm.symm
  obtain ⟨s', hs', hent, hevolves, hlru, hw, hcreated, hgen⟩ : ∃ s',
      (slotComplete c r.id s value err).1.slots = update c.slots r.id (some s') ∧
      s'.lruEnt = s.lruEnt ∧ SlotEvolves s s' ∧ (slotComplete c r.id s value err).1.lru = c.lru ∧
      (slotComplete c r.id s value err).1.watermark = c.watermark ∧
      (slotComplete c r.id s value err).1.created = c.created ∧
      (slotComplete c r.id s value err).1.generationCounter = c.generationCounter := by
    rw [slotComplete]
    split <;> exact ⟨_, rfl, rfl, ⟨rfl, rfl, le_rfl, fun hno => (hno hpending).elim⟩,
      rfl, rfl, rfl, rfl⟩
  refine ⟨⟨hlru ▸ h.lru, hlru.symm ▸ hslots, fun j hj q hq => ?_,
      by rw [hgen, hcreated, h.generation]⟩,
    .setSlot (.refl _) hs hevolves hs' hlru hw.ge hcreated⟩
  rw [hlru] at hj hq ⊢
  rw [hs', hw]
  obtain ⟨t, ht, hpin⟩ := h.pins j hj q hq
  by_cases hid : q.id = r.id
  · rw [hid, hs] at ht
    obtain rfl := Option.some.inj ht
    refine ⟨s', by rw [hid, update_self], ?_⟩
    obtain ⟨hsome, hrc⟩ | ⟨-, -, hdone, -⟩ := hpin
    · exact .inl ⟨hent.trans hsome, hrc⟩
    · exact (hdone hpending).elim
  · exact ⟨t, by rw [update_of_ne hid, ht], hpin⟩

theorem CacheInv.cacheComplete (h : CacheInv cfg ks c) (hd : PrefetchHandle) (value : Option W)
    (err : Status) : CacheInv cfg ks (cacheComplete cfg c hd value err).1 ∧
      Evolves c (cacheComplete cfg c hd value err).1 := by
  have hrefuse := h.refuseValue value
  have hkept : Evolves c (c.refuseValue value) :=
    ⟨le_rfl, le_rfl, fun _ hr _ _ _ => hr, fun _ hr _ => ⟨hr, fun s hs => ⟨s, hs, .refl s⟩⟩⟩
  rw [Damacy.cacheComplete]
  split
  · exact ⟨hrefuse, hkept⟩
  · rename_i id hresolve
    obtain ⟨-, -, hactive, s, hs, -⟩ := resolveHandle_eq_some hresolve
    rw [hs]
    dsimp only
    split
    · rename_i hpending
      obtain ⟨r, hr, rfl, -⟩ := (h.slots.active _ _).mp hactive
      exact h.complete hr hs hpending value err
    · exact ⟨hrefuse, hkept⟩

/-! ## The watermark -/

theorem lruEntryRelease_run {V : Type} {l : Lru V} {slot : ℕ} (h : l.refcount slot ≠ 0) :
    ((lruEntryRelease slot [false]).run l).2 = l.decRefcount slot := by
  show ((releaseLoop slot [false] (l.refcount slot)).run l).2 = _
  rw [releaseLoop, if_neg h]
  show (Prog.run (if l.refcount slot = l.refcount slot ∧ false = false then _ else _)
    (if l.refcount slot = l.refcount slot ∧ false = false then _ else _)).2 = _
  rw [if_pos ⟨rfl, rfl⟩, if_pos ⟨rfl, rfl⟩]
  rfl

/-- What the loop over the slots may change: their pins. -/
structure Refreshes (c c' : PrefetchCache K W) : Prop where
  watermark : c'.watermark = c.watermark
  created : c'.created = c.created
  values : c'.lru.values = c.lru.values
  active : c'.active = c.active
  slots : ∀ id s, c.slots id = some s →
    ∃ s', c'.slots id = some s' ∧ s' = { s with lruEnt := s'.lruEnt } ∧
      (s'.lruEnt = s.lruEnt ∨ s'.lruEnt = none)

theorem Refreshes.refl (c : PrefetchCache K W) : Refreshes c c :=
  ⟨rfl, rfl, rfl, rfl, fun _ s hs => ⟨s, hs, rfl, .inl rfl⟩⟩

theorem Refreshes.trans {c'' : PrefetchCache K W} (h : Refreshes c c') (h' : Refreshes c' c'') :
    Refreshes c c'' := by
  refine ⟨h'.watermark.trans h.watermark, h'.created.trans h.created, h'.values.trans h.values,
    h'.active.trans h.active, fun id s hs => ?_⟩
  obtain ⟨s', hs', heq, hent⟩ := h.slots id s hs
  obtain ⟨s'', hs'', heq', hent'⟩ := h'.slots id s' hs'
  refine ⟨s'', hs'', ?_, ?_⟩
  · rw [heq', heq]
  · rcases hent' with hsame | hnone
    · rw [hsame]
      exact hent
    · exact .inr hnone

theorem CacheInv.releasePin (h : CacheInv cfg ks c) (i : ℕ) :
    CacheInv cfg ks (releasePin c.watermark c i) ∧ Refreshes c (releasePin c.watermark c i) ∧
      ∀ r ∈ c.lru.values, c.idxOf r = i →
        ∃ s, (Damacy.releasePin c.watermark c i).slots r.id = some s ∧
          (s.lruEnt = none ∨ s.state = .pending ∨ c.watermark ≤ s.maxOwner) := by
  rw [Damacy.releasePin]
  split
  · rename_i hnone
    refine ⟨h, .refl c, fun r hr hidx => ?_⟩
    rw [(h.slots.active i r.id).mpr ⟨r, hr, rfl, hidx⟩] at hnone
    cases hnone
  · rename_i id hactive
    obtain ⟨r, hr, rfl, hidx⟩ := (h.slots.active i id).mp hactive
    obtain ⟨s, hs, -, hok⟩ := h.slots.slot r hr
    rw [hs]
    dsimp only
    -- the slot at the index is the only one there
    have honly : ∀ q ∈ c.lru.values, c.idxOf q = i → q.id = r.id := fun q hq hqi =>
      Option.some.inj (((h.slots.active i q.id).mpr ⟨q, hq, rfl, hqi⟩).symm.trans hactive)
    split
    · rename_i hent
      exact ⟨h, .refl c, fun q hq hqi => ⟨s, honly q hq hqi ▸ hs, .inl hent⟩⟩
    · rename_i entry hent
      split
      · rename_i hrelease
        obtain ⟨j, hj, hjr⟩ := Lru.mem_values.mp hr
        obtain ⟨t, ht, hpin⟩ := h.pins j hj r hjr
        obtain rfl := Option.some.inj (hs.symm.trans ht)
        obtain ⟨hsome, hone⟩ | ⟨hnone, -⟩ := hpin
        · obtain rfl := Option.some.inj (hent.symm.trans hsome)
          rw [lruEntryRelease_run (by rw [hone]; decide)]
          have hidx' : ({ s with lruEnt := none } : PrefetchSlot W).activeIdx = s.activeIdx := rfl
          have hwrite := h.write hj hjr hs hidx' rfl
            ⟨hok.id_pos, hok.id_le, hok.generation, hok.idle, hok.waiters_le, hok.capHeap⟩
            (.inr ⟨rfl, rfl, hrelease.1, hrelease.2⟩)
          have hdec : c.lru.decRefcount entry =
              { c.lru with refcount := update c.lru.refcount entry 0 } := by
            rw [Lru.decRefcount, hone]
          rw [hdec]
          refine ⟨hwrite, ⟨rfl, rfl, rfl, rfl, fun id t ht => ?_⟩, fun q hq hqi => ?_⟩
          · show ∃ s', update c.slots r.id _ id = some s' ∧ _
            rw [update_apply]
            split
            · rename_i hid
              rw [hid, hs] at ht
              obtain rfl := Option.some.inj ht
              exact ⟨_, rfl, rfl, .inr rfl⟩
            · exact ⟨t, ht, rfl, .inl rfl⟩
          · refine ⟨{ s with lruEnt := none }, ?_, .inl rfl⟩
            rw [honly q hq hqi]
            exact update_self _ _ _
        · rw [hent] at hnone
          cases hnone
      · rename_i hkeep
        refine ⟨h, .refl c, fun q hq hqi => ⟨s, honly q hq hqi ▸ hs, .inr ?_⟩⟩
        by_cases hp : s.state = .pending
        · exact .inl hp
        · exact .inr (not_lt.mp fun hlt => hkeep ⟨hp, hlt⟩)

theorem CacheInv.releasePins (l : List ℕ) :
    ∀ {c : PrefetchCache K W} {w : ℕ}, CacheInv cfg ks c → c.watermark = w →
      CacheInv cfg ks (l.foldl (Damacy.releasePin w) c) ∧
      Refreshes c (l.foldl (Damacy.releasePin w) c) ∧
      ∀ r ∈ c.lru.values, c.idxOf r ∈ l → ∃ s, (l.foldl (Damacy.releasePin w) c).slots r.id = some s ∧
        (s.lruEnt = none ∨ s.state = .pending ∨ w ≤ s.maxOwner) := by
  induction l with
  | nil => exact fun h _ => ⟨h, .refl _, fun _ _ hmem => by cases hmem⟩
  | cons i l ih =>
    rintro c _ h rfl
    obtain ⟨h₁, hr₁, hat⟩ := h.releasePin i
    obtain ⟨h₂, hr₂, hrest⟩ := ih h₁ hr₁.watermark
    refine ⟨h₂, hr₁.trans hr₂, fun r hr hidx => ?_⟩
    rcases mem_cons.mp hidx with hi | hi
    · obtain ⟨s, hs, hdone⟩ := hat r hr hi
      obtain ⟨s', hs', heq, hent⟩ := hr₂.slots r.id s hs
      refine ⟨s', hs', ?_⟩
      rw [heq]
      rcases hdone with hnone | hkeep
      · left
        rcases hent with hent | hent
        · exact hent.trans hnone
        · exact hent
      · exact .inr hkeep
    · refine hrest r (hr₁.values ▸ hr) ?_
      obtain ⟨s, hs, -⟩ := h.slots.slot r hr
      obtain ⟨s', hs', heq, -⟩ := hr₁.slots r.id s hs
      have hsame : (Damacy.releasePin c.watermark c i).idxOf r = c.idxOf r := by
        rw [PrefetchCache.idxOf, PrefetchCache.idxOf, hs', hs, Option.bind_some, Option.bind_some, heq]
      rwa [hsame]

theorem CacheInv.raise (h : CacheInv cfg ks c) {w : ℕ} (hw : c.watermark ≤ w) :
    CacheInv cfg ks { c with watermark := w } := by
  refine ⟨h.lru, ⟨h.slots.nodup, h.slots.slot, h.slots.partition, h.slots.active, h.slots.nActive,
    h.slots.pending, h.slots.errored, h.slots.kept, h.slots.destroyed_le⟩, fun j hj r hr => ?_,
    h.generation⟩
  obtain ⟨s, hs, hpin⟩ := h.pins j hj r hr
  refine ⟨s, hs, hpin.imp id fun hfree => ?_⟩
  exact ⟨hfree.1, hfree.2.1, hfree.2.2.1, hfree.2.2.2.trans_le hw⟩

theorem CacheInv.advanceWatermark (h : CacheInv cfg ks c) (w : ℕ) :
    CacheInv cfg ks (advanceWatermark cfg c w) ∧ Evolves c (advanceWatermark cfg c w) := by
  rw [Damacy.advanceWatermark]
  split
  · exact ⟨h, .refl c⟩
  · rename_i hlt
    have hw : c.watermark ≤ w := by omega
    obtain ⟨hinv, hr, -⟩ := (h.raise hw).releasePins (List.range cfg.capacity) rfl
    refine ⟨hinv, hr.watermark ▸ hw, hr.created.ge, fun r hmem _ _ _ => hr.values ▸ hmem,
      fun r hmem _ => ⟨hr.values ▸ hmem, fun s hs => ?_⟩⟩
    obtain ⟨s', hs', heq, -⟩ := hr.slots r.id s hs
    refine ⟨s', hs', ?_⟩
    rw [heq]
    exact ⟨rfl, rfl, le_rfl, fun _ => ⟨rfl, rfl, rfl⟩⟩

end Damacy

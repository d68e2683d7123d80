import Damacy.Util.LruInvariant

/-!
# The operations of the LRU cache

Each operation restores `LruInv` while other threads release entries. `lru_put` moreover accounts
for its value, which ends up live or destroyed, and fails only for the reasons in `PutRefused`.
-/

open List Atomic ProbeTable Function

namespace Damacy

variable {K V : Type} {cfg : LruConfig} {ks : LruKeys K V} {s s' s₀ : Lru V} {slot : ℕ} {k : K}
  {value : V}

/-! ## Insertion -/

/-- What a successful `lru_put` ends with: the value is live and unpinned, and the other entries
were there before. -/
structure PutDone (cfg : LruConfig) (ks : LruKeys K V) (value : V) (slot : ℕ) (s₀ s : Lru V) :
    Prop where
  inv : LruInv cfg ks [] s
  accounted : (s.values ++ s.destroyed).Perm (value :: (s₀.values ++ s₀.destroyed))
  destroyed : s₀.destroyed <+: s.destroyed
  live : slot ∈ s.order
  slot_value : (s.slots slot).value = some value
  refcount : s.refcount slot = 0
  others : ∀ i ∈ s.order, i ≠ slot → i ∈ s₀.order ∧ s.slots i = s₀.slots i

/-- The reasons for which `lru_put` fails: the key is there and pinned, every slot is taken by a
pinned entry, or every cell that the entry may take is. -/
inductive PutRefused (cfg : LruConfig) (ks : LruKeys K V) (k : K) (s : Lru V) : Prop
  | present (i : ℕ) (v : V) (live : i ∈ s.order) (pinned : 0 < s.refcount i)
      (value : (s.slots i).value = some v) (same : ks.same (ks.keyOf v) k)
  | full (freelist : s.freelist = []) (pinned : ∀ i ∈ s.order, 0 < s.refcount i)
  | window (pinned : WindowPinned cfg (ks.hash k) s)

/-- What `lru_put` ends with. -/
def PutPost (cfg : LruConfig) (ks : LruKeys K V) (k : K) (value : V) (s₀ : Lru V) :
    EntryResult → Lru V → Prop
  | .null, s => PutFailed cfg ks value s₀ s ∧ PutRefused cfg ks k s₀
  | .entry slot, s => PutDone cfg ks value slot s₀ s
  | .searching, s => Released s₀ s ∧ cfg.maxProbe = uint32Max
  | .diverged, _ => False

theorem Since.absent (h : Since s₀ s) (habsent : Absent ks k s₀) : Absent ks k s := by
  intro i hi v hv
  rw [(h.live i hi).2] at hv
  exact habsent i (h.live i hi).1 v hv

theorem LruInv.putFailure (h : LruInv cfg ks [] s) (hs : Since s₀ s) (value : V) :
    PutGuar value s₀ s (putFailure value s) ∧ PutFailed cfg ks value s₀ (putFailure value s) := by
  have haccounted : ((Damacy.putFailure value s).values ++ (Damacy.putFailure value s).destroyed).Perm
      (value :: (s₀.values ++ s₀.destroyed)) := by
    show (s.values ++ (s.destroyed ++ [value])).Perm _
    rw [← append_assoc]
    exact (perm_append_singleton _ _).trans (hs.accounted.cons _)
  obtain ⟨ds, hds⟩ := hs.destroyed
  exact ⟨⟨⟨fun _ => le_rfl, fun _ _ _ => rfl, fun _ hi _ => ⟨hi, rfl, fun _ => Iff.rfl⟩,
    prefix_append _ _⟩, haccounted.subperm⟩,
    ⟨⟨h.toLruSlots.congr (.refl _) h.size_eq fun _ hi => ⟨hi, rfl⟩, h.index⟩, haccounted,
      ⟨ds, congrArg (· ++ [value]) hds.symm⟩, hs.live⟩⟩

theorem Placed.link (h : Placed cfg ks slot ⟨ks.hash k, some value⟩ s) (hs : Since s₀ s)
    (hkey : ks.same (ks.keyOf value) k) (habsent : Absent ks k s) :
    PutGuar value s₀ s (linkSlot slot s) ∧ PutDone cfg ks value slot s₀ (linkSlot slot s) := by
  have hnew : slot ∉ s.order := h.slots.notMem_order mem_cons_self
  have hvalue : (s.slots slot).value = some value := by rw [h.slot]
  have haccounted : ((linkSlot slot s).values ++ (linkSlot slot s).destroyed).Perm
      (value :: (s₀.values ++ s₀.destroyed)) := by
    have hcons : (linkSlot slot s).values = value :: s.values := filterMap_cons_some hvalue
    rw [hcons]
    exact hs.accounted.cons _
  have hinv : LruInv cfg ks [] (linkSlot slot s) := by
    refine ⟨⟨h.slots.perm, ?_, fun i hi => ?_, fun i hi j hj v w hv hw hvw => ?_⟩, ?_⟩
    · show u32 (s.size + 1) = s.order.length + 1
      have := h.slots.length_eq
      have := cfg.capacity_le
      rw [h.slots.size_eq, u32_of_lt (by omega)]
    · rcases mem_cons.mp hi with rfl | hi
      · exact ⟨value, by rw [ks.hash_congr hkey]; exact h.slot⟩
      · exact h.slots.value i hi
    · -- the key was absent, so it is no other entry's
      rcases mem_cons.mp hi with rfl | hi' <;> rcases mem_cons.mp hj with rfl | hj'
      · rfl
      · obtain rfl := Option.some.inj (hvalue.symm.trans hv)
        exact (habsent j hj' w hw (ks.equiv.trans (ks.equiv.symm hvw) hkey)).elim
      · obtain rfl := Option.some.inj (hvalue.symm.trans hw)
        exact (habsent i hi' v hv (ks.equiv.trans hvw hkey)).elim
      · exact h.slots.unique i hi' j hj' v w hv hw hvw
    · have hset : {i | i ∈ (linkSlot slot s).order} = insert slot {i | i ∈ s.order} := by
        ext i
        exact mem_cons
      rw [hset]
      exact h.index
  refine ⟨⟨⟨fun _ => le_rfl, fun _ _ _ => rfl,
    fun _ hi _ => ⟨mem_cons_of_mem _ hi, rfl, fun _ => Iff.rfl⟩, prefix_rfl⟩,
    haccounted.subperm⟩, hinv, haccounted, hs.destroyed, mem_cons_self, hvalue, h.refcount,
    fun i hi hne => ?_⟩
  exact hs.live i ((mem_cons.mp hi).resolve_left hne)

theorem insertNew_sat (h : LruInv cfg ks [] s) (hs : Since s₀ s)
    (hkey : ks.same (ks.keyOf value) k) (habsent : Absent ks k s₀) (hfree : s.freelist = s₀.freelist)
    (horder : s.order = s₀.order) :
    (insertNew cfg (ks.hash k) value).Sat Released (PutGuar value s₀) (PutPost cfg ks k value s₀)
      s := by
  refine Prog.Sat.bind ((sat_put (allocSlot_sat h) hs).mono ?_)
  rintro r s₁ ⟨hpost, hs₁⟩
  match r, hpost with
  | .inl .allPinned, hpost =>
    obtain ⟨h₁, hnil, hpinned⟩ := hpost
    intro s₂ hr₂
    obtain ⟨hguar, hfailed⟩ := (h₁.released hr₂).putFailure (hs₁.released hr₂) value
    refine ⟨hguar, hfailed, .full (hfree ▸ hnil) fun i hi => ?_⟩
    exact lt_of_lt_of_le (hpinned i (horder ▸ hi)) (hs.refcount_le i)
  | .inr slot, h₁ =>
    intro s₂ hr₂
    have h₂ := LruInv.released h₁ hr₂
    have hs₂ := hs₁.released hr₂
    have hnew : slot ∉ s₂.order := h₂.notMem_order mem_cons_self
    have hkeeps := fillSlot_keeps (ks.hash k) value hnew
    have hs₃ := hs₂.keeps hkeeps
    refine ⟨hs₃.guar hkeeps.toKeepsPinned, ?_⟩
    have hfuel : (fillSlot slot (ks.hash k) value s₂).order.length < cfg.capacity + 1 := by
      have := h₂.length_eq
      show s₂.order.length < _
      omega
    refine Prog.Sat.bind ((placeLoop_sat _ h₂.fill hs₃ hfuel).mono ?_)
    intro r s₄ hpost
    match r, hpost with
    | .evicted, hpost =>
      obtain ⟨h₄, hs₄⟩ := hpost
      intro s₅ hr₅
      have h₅ : Placed cfg ks slot ⟨ks.hash k, some value⟩ s₅ := by
        obtain ⟨rc, hle, rfl⟩ := hr₅
        exact ⟨h₄.slots.congr_index rfl, h₄.index, h₄.slot, Nat.le_zero.mp (h₄.refcount ▸ hle slot)⟩
      have hs₅ := hs₄.released hr₅
      exact h₅.link hs₅ hkey (hs₅.absent habsent)
    | .allPinned, hpost => exact ⟨hpost.1, .window hpost.2⟩

/-! ## Replacement and lookup -/

/-- What `lru_get` changes: the order of the entries, and counters. -/
structure Touched (s s' : Lru V) : Prop where
  order : s'.order.Perm s.order
  slots : s'.slots = s.slots
  refcount : s'.refcount = s.refcount
  cells : s'.cells = s.cells
  freelist : s'.freelist = s.freelist
  size : s'.size = s.size
  destroyed : s'.destroyed = s.destroyed

theorem Lru.touched {found : EntryResult} (h : ∀ slot, found = .entry slot → slot ∈ s.order) :
    Touched s (s.touch found) := by
  cases found with
  | entry slot => exact ⟨(perm_cons_erase (h slot rfl)).symm, rfl, rfl, rfl, rfl, rfl, rfl⟩
  | null | searching | diverged => exact ⟨.refl _, rfl, rfl, rfl, rfl, rfl, rfl⟩

theorem Touched.inv (ht : Touched s s') (h : LruInv cfg ks [] s) : LruInv cfg ks [] s' := by
  refine ⟨h.toLruSlots.congr ?_ ?_ fun i hi => ⟨ht.order.mem_iff.mp hi, by rw [ht.slots]⟩, ?_⟩
  · rw [ht.freelist]
    exact ht.order.append_right _
  · rw [ht.size, h.size_eq, ht.order.length_eq]
  · have hset : {i | i ∈ s'.order} = {i | i ∈ s.order} := by
      ext i
      exact ht.order.mem_iff
    rw [hset]
    exact Indexed.congr_slots h.index ht.cells fun i _ => by rw [ht.slots]

theorem Touched.accounted (ht : Touched s s') :
    (s'.values ++ s'.destroyed).Perm (s.values ++ s.destroyed) := by
  rw [ht.destroyed, Lru.values, ht.slots]
  exact (ht.order.filterMap _).append_right _

theorem Touched.sameEntry (ht : Touched s s') (hslot : slot ∈ s.order) : SameEntry s s' slot :=
  ⟨ht.order.mem_iff.mpr hslot, by rw [ht.slots], fun c => by rw [ht.cells]⟩

theorem LruInv.touch (h : LruInv cfg ks [] s) (k : K) :
    Touched s (s.touch (lookupEntry cfg ks.eq s (ks.hash k) k)) :=
  Lru.touched fun _ hfound => (h.lookup_eq_entry_iff.mp hfound).1

theorem LruInv.replaceValue (h : LruInv cfg ks [] s) (hs : Since s₀ s) (hslot : slot ∈ s.order)
    (hunpinned : s.refcount slot = 0) {old : V} (hold : (s.slots slot).value = some old)
    (hsame : ks.same (ks.keyOf old) k) (hkey : ks.same (ks.keyOf value) k) :
    PutGuar value s₀ s (replaceValue slot value s) ∧
      PutDone cfg ks value slot s₀ (replaceValue slot value s) := by
  have hperm := perm_cons_erase hslot
  have hne : ∀ i, 0 < s.refcount i → i ≠ slot := by
    rintro i hpin rfl
    omega
  have hat : (Damacy.replaceValue slot value s).slots slot =
      ⟨ks.hash (ks.keyOf value), some value⟩ := by
    obtain ⟨v, hv⟩ := h.value slot hslot
    obtain rfl := Option.some.inj (hold.symm.trans (congrArg LruEntry.value hv))
    refine (update_self _ _ _).trans ?_
    rw [hv, ks.hash_congr hsame, ks.hash_congr hkey]
  have hoff : ∀ i, i ≠ slot → (Damacy.replaceValue slot value s).slots i = s.slots i :=
    fun i hi => update_of_ne hi _ _
  have hmem : ∀ i, i ∈ (Damacy.replaceValue slot value s).order ↔ i ∈ s.order :=
    fun i => hperm.symm.mem_iff
  have haccounted : ((Damacy.replaceValue slot value s).values ++
      (Damacy.replaceValue slot value s).destroyed).Perm (value :: (s₀.values ++ s₀.destroyed)) := by
    have hrest : (Damacy.replaceValue slot value s).values =
        value :: (s.order.erase slot).filterMap fun i => (s.slots i).value := by
      refine (filterMap_cons_some (by rw [hat])).trans (congrArg _ ?_)
      refine filterMap_value_congr fun i hi => hoff i ?_
      rintro rfl
      exact h.order_nodup.not_mem_erase hi
    have hvalues := Lru.values_perm_erase hslot
    rw [hold] at hvalues
    rw [hrest, cons_append]
    refine List.Perm.cons _ (List.Perm.trans ?_ hs.accounted)
    show (_ ++ (s.destroyed ++ (s.slots slot).value.toList)).Perm _
    rw [hold, ← append_assoc]
    exact (perm_append_singleton _ _).trans (hvalues.symm.append_right s.destroyed)
  have hinv : LruInv cfg ks [] (Damacy.replaceValue slot value s) := by
    refine ⟨⟨?_, ?_, fun i hi => ?_, fun i hi j hj v w hv hw hvw => ?_⟩, ?_⟩
    · exact (hperm.symm.append_right s.freelist).trans h.perm
    · exact h.size_eq.trans hperm.length_eq
    · by_cases his : i = slot
      · exact ⟨value, his ▸ hat⟩
      · rw [hoff i his]
        exact h.value i ((hmem i).mp hi)
    · -- the replaced entry keeps its key, so it is compared by its old value
      have hold' : ∀ {i u}, ((Damacy.replaceValue slot value s).slots i).value = some u →
          ∃ u', (s.slots i).value = some u' ∧ ks.same (ks.keyOf u') (ks.keyOf u) := by
        intro i u hu
        by_cases his : i = slot
        · rw [his, hat] at hu
          obtain rfl := Option.some.inj hu
          exact ⟨old, his ▸ hold, ks.equiv.trans hsame (ks.equiv.symm hkey)⟩
        · rw [hoff i his] at hu
          exact ⟨u, hu, ks.equiv.refl _⟩
      obtain ⟨v', hv', hvv⟩ := hold' hv
      obtain ⟨w', hw', hww⟩ := hold' hw
      exact h.unique i ((hmem i).mp hi) j ((hmem j).mp hj) v' w' hv' hw'
        (ks.equiv.trans hvv (ks.equiv.trans hvw (ks.equiv.symm hww)))
    · have hset : {i | i ∈ (Damacy.replaceValue slot value s).order} = {i | i ∈ s.order} := by
        ext i
        exact hmem i
      rw [hset]
      refine h.index.congr_home fun i _ => congrArg (idealCell cfg) ?_
      by_cases his : i = slot
      · rw [his]
        show (update s.slots slot ⟨(s.slots slot).hash, some value⟩ slot).hash = _
        rw [update_self]
      · rw [hoff i his]
  refine ⟨⟨⟨fun _ => le_rfl, fun _ _ _ => rfl,
    fun i hi hpin => ⟨(hmem i).mpr hi, hoff i (hne i hpin), fun _ => Iff.rfl⟩,
    prefix_append _ _⟩, haccounted.subperm⟩, hinv, haccounted,
    hs.destroyed.trans (prefix_append _ _), mem_cons_self, by rw [hat], hunpinned,
    fun i hi hine => ?_⟩
  have hlive := hs.live i ((hmem i).mp hi)
  exact ⟨hlive.1, (hoff i hine).trans hlive.2⟩

/-- **`lru_put`** under releases by other threads. -/
theorem lruPut_sat (h : LruInv cfg ks [] s) (hkey : ks.same (ks.keyOf value) k) :
    (lruPut cfg ks.eq (ks.hash k) k value).Sat Released (PutGuar value s) (PutPost cfg ks k value s)
      s := by
  intro s₁ hr₁
  have h₁ := h.released hr₁
  have hs₁ := (Since.refl s).released hr₁
  refine ⟨hs₁.guar (.refl _), ?_⟩
  dsimp only [id_eq]
  rcases h₁.lookup_cases k with ⟨slot, hfound⟩ | ⟨habsent, hnull | ⟨hsearching, hmax⟩⟩
  · rw [hfound]
    obtain ⟨hslot, old, hold, hsame⟩ := h₁.lookup_eq_entry_iff.mp hfound
    dsimp only
    split
    · rename_i hpin
      intro s₂ hr₂
      obtain ⟨hguar, hfailed⟩ := (h₁.released hr₂).putFailure (hs₁.released hr₂) value
      have hlive := hs₁.live slot hslot
      refine ⟨hguar, hfailed, .present slot old hlive.1 ?_ (hlive.2 ▸ hold) hsame⟩
      exact lt_of_lt_of_le hpin (hs₁.refcount_le slot)
    · rename_i hunpinned
      intro s₂ hr₂
      have h₂ := h₁.released hr₂
      have hs₂ := hs₁.released hr₂
      have hrc := hr₂.refcount_le slot
      obtain ⟨rc, -, rfl⟩ := hr₂
      exact h₂.replaceValue hs₂ hslot (by omega) hold hsame hkey
  · rw [hnull]
    obtain ⟨rc, -, rfl⟩ := hr₁
    exact insertNew_sat h₁ hs₁ hkey habsent rfl rfl
  · rw [hsearching]
    exact ⟨hr₁, hmax⟩

/-! ## Sequential use -/

theorem KeepsPinned.trans {a b c : Lru V} (h : KeepsPinned a b) (h' : KeepsPinned b c) :
    KeepsPinned a c := by
  have hb : ∀ i ∈ a.order, 0 < a.refcount i → i ∈ b.order ∧ 0 < b.refcount i := by
    intro i hi hpin
    exact ⟨(h.pinned i hi hpin).live, h.refcount_eq i hi hpin ▸ hpin⟩
  refine ⟨fun i => (h'.refcount_le i).trans (h.refcount_le i), fun i hi hpin => ?_,
    fun i hi hpin => ?_, h.destroyed.trans h'.destroyed⟩
  · obtain ⟨hi', hpin'⟩ := hb i hi hpin
    exact (h'.refcount_eq i hi' hpin').trans (h.refcount_eq i hi hpin)
  · obtain ⟨hi', hpin'⟩ := hb i hi hpin
    exact (h.pinned i hi hpin).trans (h'.pinned i hi' hpin')

theorem lruPut_run (h : LruInv cfg ks [] s) (hkey : ks.same (ks.keyOf value) k) :
    PutPost cfg ks k value s ((lruPut cfg ks.eq (ks.hash k) k value).run s).1
        ((lruPut cfg ks.eq (ks.hash k) k value).run s).2 ∧
      KeepsPinned s ((lruPut cfg ks.eq (ks.hash k) k value).run s).2 := by
  have halone : (lruPut cfg ks.eq (ks.hash k) k value).Sat Eq KeepsPinned
      (PutPost cfg ks k value s) s :=
    (lruPut_sat h hkey).weaken (fun s s' heq => heq ▸ Released.refl s) fun _ _ hg => hg.toKeepsPinned
  exact (halone.history (P := KeepsPinned) (.refl s) (fun _ _ hP heq => heq ▸ hP)
    fun _ _ hP hG => hP.trans hG).run fun _ => rfl

def Saturated (cfg : LruConfig) (s : Lru V) : Prop :=
  s.size = cfg.capacity ∧ ∀ i ∈ s.order, 0 < s.refcount i

theorem LruInv.freelist_eq_nil_iff (h : LruInv cfg ks [] s) :
    s.freelist = [] ↔ s.size = cfg.capacity := by
  have hlen := h.length_eq
  rw [length_nil] at hlen
  rw [h.size_eq, eq_nil_iff_length_eq_zero]
  omega

/-- For a key that is not present `lru_put` fails only when every slot, or every cell that the entry
may take, is taken by a pinned entry. -/
theorem PutRefused.saturated_or_window (hr : PutRefused cfg ks k s) (h : LruInv cfg ks [] s)
    (habsent : Absent ks k s) : Saturated cfg s ∨ WindowPinned cfg (ks.hash k) s := by
  cases hr with
  | present i v live _ hvalue hsame => exact (habsent i live v hvalue hsame).elim
  | full hfree hpinned => exact .inl ⟨h.freelist_eq_nil_iff.mp hfree, hpinned⟩
  | window hpinned => exact .inr hpinned

theorem PutDone.not_windowPinned (h : PutDone cfg ks value slot s s') (hk : KeepsPinned s s')
    (hkey : ks.same (ks.keyOf value) k) : ¬ WindowPinned cfg (ks.hash k) s := by
  intro hwindow
  have hideal : idealCell cfg (ks.hash k) < cfg.nCells := Nat.mod_lt _ cfg.nCells_pos
  obtain ⟨c, hc⟩ := h.inv.index.found h.live
  have hhash : (s'.slots slot).hash = ks.hash k := by
    obtain ⟨v, hv⟩ := h.inv.value slot h.live
    obtain rfl := Option.some.inj (h.slot_value.symm.trans (congrArg LruEntry.value hv))
    rw [hv, ks.hash_congr hkey]
  have hdist := h.inv.index.dist_le hc
  rw [Lru.home, hhash] at hdist
  obtain ⟨i, hi, hpin, hcell⟩ := hwindow _ hdist
  rw [add_dist (h.inv.index.lt hc) hideal] at hcell
  -- a pinned entry stays in its cell, and the new one is unpinned
  have hsame := ((hk.pinned i hi hpin).cell c).mpr hcell
  obtain rfl := Option.some.inj (hsame.symm.trans hc)
  have := hk.refcount_eq i hi hpin
  have := h.refcount
  omega

theorem LruInv.not_windowPinned (h : LruInv cfg ks [] s) (hmax : cfg.maxProbe = uint32Max) (hash : ℕ) :
    ¬ WindowPinned cfg hash s := by
  intro hwindow
  have hideal : idealCell cfg hash < cfg.nCells := Nat.mod_lt _ cfg.nCells_pos
  obtain ⟨c, hc, hempty⟩ := h.index.exists_empty (fun _ hi => hi) h.order_length_lt
  obtain ⟨i, -, -, hcell⟩ := hwindow (dist cfg.nCells c (idealCell cfg hash)) (by
    have hlt := dist_lt cfg.nCells_pos c (idealCell cfg hash)
    obtain ⟨m, hm, hpow, -⟩ := cfg.nCells_spec
    have hle : 2 ^ m ≤ 2 ^ 31 := Nat.pow_le_pow_right (by decide) hm
    rw [hmax, uint32Max]
    omega)
  rw [add_dist hc hideal, hempty] at hcell
  cases hcell

theorem lruPut_eq_null_of_windowPinned (h : LruInv cfg ks [] s)
    (hkey : ks.same (ks.keyOf value) k) (hwindow : WindowPinned cfg (ks.hash k) s) :
    ((lruPut cfg ks.eq (ks.hash k) k value).run s).1 = .null := by
  obtain ⟨hpost, hkeeps⟩ := lruPut_run h hkey
  cases hr : ((lruPut cfg ks.eq (ks.hash k) k value).run s).1 with
  | null => rfl
  | entry slot =>
    rw [hr] at hpost
    exact (hpost.not_windowPinned hkeeps hkey hwindow).elim
  | searching =>
    rw [hr] at hpost
    exact (h.not_windowPinned hpost.2 _ hwindow).elim
  | diverged =>
    rw [hr] at hpost
    exact hpost.elim

end Damacy

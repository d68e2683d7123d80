import Damacy.Util.LruIndex

/-!
# The invariant of the LRU cache

`LruInv` is what holds whenever the mutex is free, and with some slots taken out of both lists also
in the middle of an insertion. Eviction, allocation and placement keep it under releases by other
threads; `lru_put` restores it, never diverges, and accounts for the value it was given.
-/

open List Atomic ProbeTable Function

namespace Damacy

variable {K V : Type}

/-- The keys of a cache: `ops.eq` compares the key of a value with a key up to an equivalence that
the hash respects. -/
structure LruKeys (K V : Type) where
  same : K → K → Prop
  equiv : Equivalence same
  hash : K → ℕ
  hash_congr : ∀ {a b}, same a b → hash a = hash b
  keyOf : V → K
  eq : V → K → Bool
  eq_iff : ∀ {v k}, eq v k = true ↔ same (keyOf v) k

/-- The slots outside the index: `out` are in neither list. -/
structure LruSlots (cfg : LruConfig) (ks : LruKeys K V) (out : List ℕ) (s : Lru V) : Prop where
  perm : (out ++ s.order ++ s.freelist).Perm (List.range cfg.capacity)
  size_eq : s.size = s.order.length
  value : ∀ i ∈ s.order, ∃ v, s.slots i = ⟨ks.hash (ks.keyOf v), some v⟩
  unique : ∀ i ∈ s.order, ∀ j ∈ s.order, ∀ v w, (s.slots i).value = some v →
    (s.slots j).value = some w → ks.same (ks.keyOf v) (ks.keyOf w) → i = j

abbrev Indexed (cfg : LruConfig) (s : Lru V) (live : Set ℕ) : Prop :=
  IsIndex cfg.nCells cfg.maxProbe (s.home cfg) s.cells live

structure LruInv (cfg : LruConfig) (ks : LruKeys K V) (out : List ℕ) (s : Lru V) : Prop
    extends LruSlots cfg ks out s where
  index : Indexed cfg s {i | i ∈ s.order}

variable {cfg : LruConfig} {ks : LruKeys K V} {out : List ℕ} {s s' s₀ : Lru V} {slot : ℕ}

namespace LruSlots

theorem nodup (h : LruSlots cfg ks out s) : (out ++ s.order ++ s.freelist).Nodup :=
  h.perm.nodup_iff.mpr nodup_range

theorem order_nodup (h : LruSlots cfg ks out s) : s.order.Nodup :=
  h.nodup.of_append_left.of_append_right

theorem length_eq (h : LruSlots cfg ks out s) :
    out.length + s.order.length + s.freelist.length = cfg.capacity := by
  have := h.perm.length_eq
  rwa [length_append, length_append, length_range] at this

theorem order_length_lt (h : LruSlots cfg ks out s) : s.order.length < cfg.nCells := by
  have := h.length_eq
  have := cfg.lt_nCells
  omega

theorem notMem_order (h : LruSlots cfg ks out s) (hslot : slot ∈ out) : slot ∉ s.order := fun hmem =>
  disjoint_of_nodup_append h.nodup.of_append_left hslot hmem

theorem congr {out' : List ℕ} (h : LruSlots cfg ks out s)
    (hperm : (out' ++ s'.order ++ s'.freelist).Perm (out ++ s.order ++ s.freelist))
    (hsize : s'.size = s'.order.length)
    (hlive : ∀ i ∈ s'.order, i ∈ s.order ∧ s'.slots i = s.slots i) : LruSlots cfg ks out' s' := by
  refine ⟨hperm.trans h.perm, hsize, fun i hi => ?_, fun i hi j hj v w hv hw => ?_⟩
  · rw [(hlive i hi).2]
    exact h.value i (hlive i hi).1
  · rw [(hlive i hi).2] at hv
    rw [(hlive j hj).2] at hw
    exact h.unique i (hlive i hi).1 j (hlive j hj).1 v w hv hw

theorem congr_index (h : LruSlots cfg ks out s) {rc : ℕ → ℕ} {cells : ℕ → Option ℕ} {probe : ℕ}
    (hs' : s' = { s with refcount := rc, cells := cells, maxProbeObserved := probe }) :
    LruSlots cfg ks out s' := by
  subst hs'
  exact ⟨h.perm, h.size_eq, h.value, h.unique⟩

end LruSlots

theorem LruInv.released (h : LruInv cfg ks out s) (hr : Released s s') : LruInv cfg ks out s' := by
  obtain ⟨rc, -, rfl⟩ := hr
  exact ⟨h.toLruSlots.congr_index rfl, h.index⟩

theorem Indexed.congr_slots {live : Set ℕ} (h : Indexed cfg s live) (hcells : s'.cells = s.cells)
    (hslots : ∀ i ∈ live, s'.slots i = s.slots i) : Indexed cfg s' live := by
  rw [Indexed, hcells]
  refine h.congr_home fun i hi => ?_
  rw [Lru.home, hslots i hi]
  rfl

theorem LruInv.create (cfg : LruConfig) (ks : LruKeys K V) : LruInv cfg ks [] (lruCreate cfg) := by
  refine ⟨⟨reverse_perm _, rfl, ?_, ?_⟩, ?_⟩
  · intro i hi
    cases hi
  · intro i hi
    cases hi
  · have hempty : {i | i ∈ (lruCreate (V := V) cfg).order} = ∅ := by
      ext i
      exact iff_of_false not_mem_nil (Set.notMem_empty i)
    rw [hempty]
    exact IsIndex.empty

/-! ## Lookup -/

theorem LruInv.of_found (h : LruInv cfg ks out s) {k : K} {c : ℕ}
    (hc : indexLookup cfg ks.eq s (ks.hash k) k = .found c) :
    ∃ i v, s.cells c = some i ∧ i ∈ s.order ∧ (s.slots i).value = some v ∧
      ks.same (ks.keyOf v) k := by
  obtain ⟨d, -, -, htest⟩ := indexSearch_eq_found (Nat.mod_lt _ cfg.nCells_pos) hc
  rw [Lru.matches] at htest
  split at htest
  · cases htest
  · rename_i i hi
    obtain ⟨-, hany⟩ := Bool.and_eq_true_iff.mp htest
    obtain ⟨v, hv, heq⟩ := (Option.any_eq_true _ _).mp hany
    exact ⟨i, v, hi, h.index.mem hi, hv, ks.eq_iff.mp heq⟩

theorem LruInv.lookup_eq_entry_iff (h : LruInv cfg ks out s) {k : K} :
    lookupEntry cfg ks.eq s (ks.hash k) k = .entry slot ↔
      slot ∈ s.order ∧ ∃ v, (s.slots slot).value = some v ∧ ks.same (ks.keyOf v) k := by
  have hideal : idealCell cfg (ks.hash k) < cfg.nCells := Nat.mod_lt _ cfg.nCells_pos
  constructor
  · intro hentry
    rw [lookupEntry] at hentry
    split at hentry
    · rename_i c hc
      obtain ⟨i, v, hi, hmem, hv, hsame⟩ := h.of_found hc
      rw [hi] at hentry
      cases hentry
      exact ⟨hmem, v, hv, hsame⟩
    · cases hentry
    · cases hentry
  · rintro ⟨hmem, v, hv, hsame⟩
    obtain ⟨c, hc⟩ := h.index.found hmem
    obtain ⟨w, hw⟩ := h.value slot hmem
    obtain rfl := Option.some.inj (hv.symm.trans (congrArg LruEntry.value hw))
    have hhash : (s.slots slot).hash = ks.hash k := by rw [hw, ks.hash_congr hsame]
    have hdist := h.index.dist_le hc
    rw [Lru.home, hhash] at hdist
    -- its cell is in the window, so the search finds an entry with the key, which is this one
    obtain ⟨c', hc'⟩ := exists_indexSearch_eq_found (s.matches ks.eq (ks.hash k) k) hideal
      hdist (by
        rw [add_dist (h.index.lt hc) hideal, Lru.matches, hc]
        simp [hhash, hv, ks.eq_iff.mpr hsame])
    obtain ⟨j, u, hj, hjmem, hu, husame⟩ := h.of_found hc'
    have hjs := h.unique j hjmem slot hmem u v hu hv
      (ks.equiv.trans husame (ks.equiv.symm hsame))
    rw [lookupEntry, indexLookup, hc']
    show (s.cells c').elim _ _ = _
    rw [hj, hjs]
    rfl

def Absent (ks : LruKeys K V) (k : K) (s : Lru V) : Prop :=
  ∀ i ∈ s.order, ∀ v, (s.slots i).value = some v → ¬ ks.same (ks.keyOf v) k

theorem LruInv.lookup_cases (h : LruInv cfg ks out s) (k : K) :
    (∃ slot, lookupEntry cfg ks.eq s (ks.hash k) k = .entry slot) ∨
      Absent ks k s ∧ (lookupEntry cfg ks.eq s (ks.hash k) k = .null ∨
        lookupEntry cfg ks.eq s (ks.hash k) k = .searching ∧ cfg.maxProbe = uint32Max) := by
  have habsent : (∀ slot, lookupEntry cfg ks.eq s (ks.hash k) k ≠ .entry slot) → Absent ks k s :=
    fun hno i hi v hv hsame => hno i (h.lookup_eq_entry_iff.mpr ⟨hi, v, hv, hsame⟩)
  cases hfind : indexLookup cfg ks.eq s (ks.hash k) k with
  | found c =>
    obtain ⟨i, -, hi, -⟩ := h.of_found hfind
    exact .inl ⟨i, by simp [lookupEntry, hfind, hi]⟩
  | missing =>
    have hnull : lookupEntry cfg ks.eq s (ks.hash k) k = .null := by rw [lookupEntry, hfind]
    exact .inr ⟨habsent fun _ => by simp [hnull], .inl hnull⟩
  | diverged =>
    have hnull : lookupEntry cfg ks.eq s (ks.hash k) k = .searching := by rw [lookupEntry, hfind]
    exact .inr ⟨habsent fun _ => by simp [hnull], .inr ⟨hnull, indexSearch_eq_diverged hfind⟩⟩

theorem LruInv.maxProbe_ne_of_lookup (h : LruInv cfg ks out s) {k : K}
    (hnull : lookupEntry cfg ks.eq s (ks.hash k) k = .null) : cfg.maxProbe ≠ uint32Max := by
  cases hfind : indexLookup cfg ks.eq s (ks.hash k) k with
  | found c =>
    obtain ⟨i, -, hi, -⟩ := h.of_found hfind
    simp [lookupEntry, hfind, hi] at hnull
  | missing =>
    rw [indexLookup, indexSearch] at hfind
    split at hfind
    · cases hfind
    · split at hfind
      · cases hfind
      · assumption
  | diverged => simp [lookupEntry, hfind] at hnull

/-! ## Dropping a slot -/

theorem filterMap_value_congr {slots slots' : ℕ → LruEntry V} {l : List ℕ}
    (h : ∀ i ∈ l, slots' i = slots i) :
    l.filterMap (fun i => (slots' i).value) = l.filterMap fun i => (slots i).value :=
  filterMap_congr fun i hi => by rw [h i hi]

theorem Lru.values_perm_erase (h : slot ∈ s.order) :
    s.values.Perm ((s.slots slot).value.toList ++
      (s.order.erase slot).filterMap fun i => (s.slots i).value) := by
  refine ((perm_cons_erase h).filterMap _).trans (List.Perm.of_eq ?_)
  cases hv : (s.slots slot).value <;> simp [hv]

theorem dropSlot_accounted (h : slot ∈ s.order) (hnodup : s.order.Nodup) :
    ((dropSlot slot s).values ++ (dropSlot slot s).destroyed).Perm (s.values ++ s.destroyed) := by
  have hrest : (dropSlot slot s).values =
      (s.order.erase slot).filterMap fun i => (s.slots i).value := by
    refine filterMap_value_congr fun i hi => update_of_ne ?_ _ _
    rintro rfl
    exact hnodup.not_mem_erase hi
  rw [hrest]
  refine (perm_append_comm.append_left _).trans ?_
  rw [← append_assoc]
  refine List.Perm.append_right _ (perm_append_comm.trans ?_)
  exact (Lru.values_perm_erase h).symm

theorem dropSlot_keeps (h : slot ∈ s.order) (hnodup : s.order.Nodup)
    (hunpinned : s.refcount slot = 0) : Keeps s (dropSlot slot s) := by
  have hne : ∀ i, 0 < s.refcount i → i ≠ slot := by
    rintro i hpin rfl
    omega
  refine ⟨⟨fun i => ?_, fun i _ hpin => ?_, fun i hi hpin => ⟨?_, ?_, fun _ => Iff.rfl⟩,
    prefix_append _ _⟩, fun i hi => ⟨mem_of_mem_erase hi, ?_⟩, dropSlot_accounted h hnodup⟩
  · show update s.refcount slot 0 i ≤ s.refcount i
    rw [update_apply]
    split_ifs <;> omega
  · exact update_of_ne (hne i hpin) _ _
  · exact (mem_erase_of_ne (hne i hpin)).mpr hi
  · exact update_of_ne (hne i hpin) _ _
  · refine update_of_ne ?_ _ _
    rintro rfl
    exact hnodup.not_mem_erase hi

theorem LruSlots.drop (h : LruSlots cfg ks out s) (hslot : slot ∈ s.order)
    (hunpinned : s.refcount slot = 0) : LruSlots cfg ks out (dropSlot slot s) := by
  refine h.congr ?_ ?_ (dropSlot_keeps hslot h.order_nodup hunpinned).live
  · show (out ++ s.order.erase slot ++ slot :: s.freelist).Perm _
    rw [append_assoc, append_assoc]
    refine List.Perm.append_left _ (perm_middle.trans ?_)
    exact (perm_cons_erase hslot).symm.append_right s.freelist
  · show u32Pred s.size = (s.order.erase slot).length
    have hpos := length_pos_of_mem hslot
    have hsize := h.size_eq
    rw [length_erase_of_mem hslot, u32Pred]
    split <;> omega

theorem Indexed.drop {live : Set ℕ} (h : Indexed cfg s live) (hslot : slot ∉ live) :
    Indexed cfg (dropSlot slot s) live := by
  refine h.congr_slots rfl fun i hi => update_of_ne ?_ _ _
  rintro rfl
  exact hslot hi

theorem setOf_mem_erase (hnodup : s.order.Nodup) :
    {i | i ∈ (dropSlot slot s).order} = {i | i ∈ s.order} \ {slot} := by
  ext i
  show i ∈ s.order.erase slot ↔ _
  rw [hnodup.mem_erase_iff]
  exact and_comm

/-! ## Eviction -/

/-- What an eviction ends with: one entry less, and its slot is free. -/
structure EvictPost (cfg : LruConfig) (ks : LruKeys K V) (out : List ℕ) (s₀ s : Lru V) : Prop where
  inv : LruInv cfg ks out s
  shorter : s.order.length < s₀.order.length
  freelist : s.freelist ≠ []
  slots : ∀ i ∉ s₀.order, s.slots i = s₀.slots i
  refcount_le : ∀ i, s.refcount i ≤ s₀.refcount i

theorem evictSlot_sat (h : LruInv cfg ks out s) (hslot : slot ∈ s.order)
    (hunpinned : s.refcount slot = 0) :
    (evictSlot cfg slot).Sat Released Keeps (fun r s' => r = .evicted ∧ EvictPost cfg ks out s s')
      s := by
  intro s₁ hr₁
  have h₁ := h.released hr₁
  obtain ⟨rc₁, hle₁, rfl⟩ := hr₁
  refine ⟨Keeps.refl _, ?_⟩
  obtain ⟨cell, hcell⟩ := h₁.index.found hslot
  have hrc₁ : rc₁ slot = 0 := Nat.le_zero.mp (hunpinned ▸ hle₁ slot)
  dsimp only
  rw [indexLocate_eq h₁.index hcell]
  refine Prog.Sat.bind ((indexErase_sat h₁.index h₁.order_length_lt hcell hrc₁).mono ?_)
  rintro _ s₂ ⟨rfl, h₂⟩ s₃ hr₃
  have h₃ := h₂.released hr₃
  have hslots₃ := h₁.toLruSlots.congr_index h₃.frame
  have horder : s₃.order = s.order := by rw [h₃.frame]
  have hhome : s₃.home cfg = s.home cfg := by rw [h₃.frame]; rfl
  have hslot₃ : slot ∈ s₃.order := horder ▸ hslot
  have hrc₃ : s₃.refcount slot = 0 := Nat.le_zero.mp (hrc₁ ▸ h₃.refcount_le slot)
  have hkeeps := dropSlot_keeps hslot₃ hslots₃.order_nodup hrc₃
  refine ⟨hkeeps, rfl, ⟨hslots₃.drop hslot₃ hrc₃, ?_⟩, ?_, cons_ne_nil _ _, fun i hi => ?_,
    fun i => (hkeeps.refcount_le i).trans ((h₃.refcount_le i).trans (hle₁ i))⟩
  · rw [setOf_mem_erase hslots₃.order_nodup, horder]
    refine Indexed.drop ?_ fun hmem => hmem.2 rfl
    rw [Indexed, hhome]
    exact h₃.index
  · show (s₃.order.erase slot).length < _
    have := length_pos_of_mem hslot
    rw [length_erase_of_mem hslot₃, horder]
    omega
  · have hne : i ≠ slot := by
      rintro rfl
      exact hi hslot
    show update s₃.slots slot _ i = s.slots i
    rw [update_of_ne hne, h₃.frame]

/-- What `evict_lru_tail` ends with. Every entry it passed over was pinned, also in the state in
which it started. -/
def EvictTailPost (cfg : LruConfig) (ks : LruKeys K V) (out : List ℕ) (s₀ : Lru V) :
    EvictResult → Lru V → Prop
  | .evicted, s => EvictPost cfg ks out s₀ s
  | .allPinned, s => Released s₀ s ∧ ∀ i ∈ s₀.order, 0 < s₀.refcount i
  | .diverged, _ => False

theorem evictScan_sat (h₀ : LruInv cfg ks out s₀) (l : List ℕ) :
    ∀ {s : Lru V}, Released s₀ s → (∀ i ∈ l, i ∈ s₀.order) →
      (∀ i ∈ s₀.order, i ∈ l ∨ 0 < s₀.refcount i) →
      (evictScan cfg l).Sat Released Keeps (EvictTailPost cfg ks out s₀) s := by
  induction l with
  | nil =>
    intro s hr _ hpinned
    exact ⟨hr, fun i hi => (hpinned i hi).resolve_left not_mem_nil⟩
  | cons slot rest ih =>
    intro s hr hmem hpinned s₁ hr₁
    have hr' := hr.trans _ _ _ hr₁
    refine ⟨Keeps.refl _, ?_⟩
    show Prog.Sat _ _ _ (if s₁.refcount slot = 0 then _ else _) s₁
    split
    · rename_i hunpinned
      have h₁ := h₀.released hr'
      obtain ⟨rc, hle, rfl⟩ := hr'
      refine (evictSlot_sat h₁ (hmem slot mem_cons_self) hunpinned).mono ?_
      rintro _ s₂ ⟨rfl, h₂⟩
      exact ⟨h₂.inv, h₂.shorter, h₂.freelist, h₂.slots, fun i => (h₂.refcount_le i).trans (hle i)⟩
    · rename_i hpin
      refine ih hr' (fun i hi => hmem i (mem_cons_of_mem _ hi)) fun i hi => ?_
      rcases hpinned i hi with hi | hi
      · rcases mem_cons.mp hi with rfl | hi
        · have := hr'.refcount_le i
          exact .inr (by omega)
        · exact .inl hi
      · exact .inr hi

theorem evictLruTail_sat (h : LruInv cfg ks out s) :
    (evictLruTail cfg).Sat Released Keeps (EvictTailPost cfg ks out s) s := by
  intro s₁ hr₁
  refine ⟨Keeps.refl _, ?_⟩
  have horder : s₁.order = s.order := by
    obtain ⟨rc, -, rfl⟩ := hr₁
    rfl
  show (evictScan cfg s₁.order.reverse).Sat _ _ _ s₁
  rw [horder]
  exact evictScan_sat h _ hr₁ (fun i hi => mem_reverse.mp hi)
    fun i hi => .inl (mem_reverse.mpr hi)

/-! ## Insertion -/

/-- What relates the states of `lru_put` to that in which it started, `s₀`, until the new value is
linked or destroyed. -/
structure Since (s₀ s : Lru V) : Prop where
  refcount_le : ∀ i, s.refcount i ≤ s₀.refcount i
  pinned : ∀ i ∈ s₀.order, 0 < s.refcount i → SameEntry s₀ s i
  destroyed : s₀.destroyed <+: s.destroyed
  live : ∀ i ∈ s.order, i ∈ s₀.order ∧ s.slots i = s₀.slots i
  accounted : (s.values ++ s.destroyed).Perm (s₀.values ++ s₀.destroyed)

theorem Since.refl (s : Lru V) : Since s s :=
  ⟨fun _ => le_rfl, fun _ hi _ => .refl hi, prefix_rfl, fun _ hi => ⟨hi, rfl⟩, .refl _⟩

theorem Since.released (h : Since s₀ s) (hr : Released s s') : Since s₀ s' := by
  obtain ⟨rc, hle, rfl⟩ := hr
  refine ⟨fun i => (hle i).trans (h.refcount_le i), fun i hi hpin => ?_, h.destroyed, h.live,
    h.accounted⟩
  obtain ⟨hlive, hslot, hcell⟩ := h.pinned i hi (lt_of_lt_of_le hpin (hle i))
  exact ⟨hlive, hslot, hcell⟩

theorem Since.keeps (h : Since s₀ s) (hk : Keeps s s') : Since s₀ s' := by
  refine ⟨fun i => (hk.refcount_le i).trans (h.refcount_le i), fun i hi hpin => ?_,
    h.destroyed.trans hk.destroyed, fun i hi => ?_, hk.accounted.trans h.accounted⟩
  · have hpin' := lt_of_lt_of_le hpin (hk.refcount_le i)
    have hsame := h.pinned i hi hpin'
    exact hsame.trans (hk.pinned i hsame.live hpin')
  · obtain ⟨hi', hslot⟩ := hk.live i hi
    exact ⟨(h.live i hi').1, hslot.trans (h.live i hi').2⟩

/-- What every action of `lru_put` guarantees: pinned entries stay as they are, and no value is live
or destroyed that was not before, but for the one passed in. -/
structure PutGuar (value : V) (s₀ s s' : Lru V) : Prop extends KeepsPinned s s' where
  accounted : (s'.values ++ s'.destroyed).Subperm (value :: (s₀.values ++ s₀.destroyed))

theorem Since.guar {value : V} (h : Since s₀ s') (hk : KeepsPinned s s') : PutGuar value s₀ s s' :=
  ⟨hk, h.accounted.subperm.trans (sublist_cons_self _ _).subperm⟩

theorem sat_put {α : Type} {p : Prog (Lru V) α} {Q : α → Lru V → Prop} {value : V}
    (h : p.Sat Released Keeps Q s) (hs : Since s₀ s) :
    p.Sat Released (PutGuar value s₀) (fun a s' => Q a s' ∧ Since s₀ s') s :=
  (h.history hs (fun _ _ => Since.released) (fun _ _ => Since.keeps)).weaken (fun _ _ h => h)
    fun _ _ h => h.2.guar h.1.toKeepsPinned

/-- What `lru_put` gets from the free list. -/
def AllocPost (cfg : LruConfig) (ks : LruKeys K V) (s₀ : Lru V) : EvictResult ⊕ ℕ → Lru V → Prop
  | .inr slot, s => LruInv cfg ks [slot] s
  | .inl .allPinned, s => LruInv cfg ks [] s ∧ s₀.freelist = [] ∧ ∀ i ∈ s₀.order, 0 < s₀.refcount i
  | .inl _, _ => False

theorem LruInv.pop (h : LruInv cfg ks [] s) {rest : List ℕ} (hfree : s.freelist = slot :: rest) :
    LruInv cfg ks [slot] { s with freelist := s.freelist.tail } := by
  refine ⟨⟨List.Perm.trans ?_ h.perm, h.size_eq, h.value, h.unique⟩, h.index⟩
  show ([slot] ++ s.order ++ s.freelist.tail).Perm ([] ++ s.order ++ s.freelist)
  rw [hfree]
  exact perm_middle.symm

theorem popped_keeps (s : Lru V) : Keeps s { s with freelist := s.freelist.tail } :=
  ⟨⟨fun _ => le_rfl, fun _ _ _ => rfl, fun _ hi _ => ⟨hi, rfl, fun _ => Iff.rfl⟩, prefix_rfl⟩,
    fun _ hi => ⟨hi, rfl⟩, .refl _⟩

theorem allocSlot_sat_of_free (fuel : ℕ) (h : LruInv cfg ks [] s) (hfree : s.freelist ≠ []) :
    (allocSlot cfg (fuel + 1)).Sat Released Keeps (AllocPost cfg ks s₀) s := by
  intro s₁ hr₁
  have h₁ := h.released hr₁
  obtain ⟨rc₁, -, rfl⟩ := hr₁
  refine ⟨popped_keeps _, ?_⟩
  dsimp only
  split
  · rename_i slot rest hl
    exact h₁.pop hl
  · rename_i hl
    exact (hfree hl).elim

theorem allocSlot_sat (h : LruInv cfg ks [] s) :
    (allocSlot cfg 2).Sat Released Keeps (AllocPost cfg ks s) s := by
  by_cases hfree : s.freelist = []
  · intro s₁ hr₁
    have h₁ := h.released hr₁
    obtain ⟨rc₁, hle₁, rfl⟩ := hr₁
    refine ⟨popped_keeps _, ?_⟩
    dsimp only
    split
    · rename_i slot rest hl
      rw [hfree] at hl
      cases hl
    · have htail : s.freelist.tail = s.freelist := by
        rw [hfree]
        rfl
      have h₁' : LruInv cfg ks [] { s with refcount := rc₁, freelist := s.freelist.tail } := by
        rw [htail]
        exact h₁
      refine Prog.Sat.bind ((evictLruTail_sat h₁').mono ?_)
      intro r s₂ hpost
      cases r with
      | evicted => exact allocSlot_sat_of_free 0 hpost.inv hpost.freelist
      | allPinned =>
        exact ⟨h₁'.released hpost.1, hfree, fun i hi => lt_of_lt_of_le (hpost.2 i hi) (hle₁ i)⟩
      | diverged => exact hpost.elim
  · exact allocSlot_sat_of_free 1 h hfree

section Place

variable {new hash : ℕ} {value : V}

/-- The new entry is filled in, and in neither list. -/
structure Filled (cfg : LruConfig) (ks : LruKeys K V) (new : ℕ) (entry : LruEntry V) (s : Lru V) :
    Prop where
  inv : LruInv cfg ks [new] s
  slot : s.slots new = entry
  refcount : s.refcount new = 0

/-- The new entry is in the index, and in neither list. -/
structure Placed (cfg : LruConfig) (ks : LruKeys K V) (new : ℕ) (entry : LruEntry V) (s : Lru V) :
    Prop where
  slots : LruSlots cfg ks [new] s
  index : Indexed cfg s (insert new {i | i ∈ s.order})
  slot : s.slots new = entry
  refcount : s.refcount new = 0

theorem fillSlot_keeps (hash : ℕ) (value : V) (hnew : new ∉ s.order) :
    Keeps s (fillSlot new hash value s) := by
  have hne : ∀ i ∈ s.order, i ≠ new := by
    rintro i hi rfl
    exact hnew hi
  refine ⟨⟨fun i => ?_, fun i hi _ => update_of_ne (hne i hi) _ _,
    fun i hi _ => ⟨hi, update_of_ne (hne i hi) _ _, fun _ => Iff.rfl⟩, prefix_rfl⟩,
    fun i hi => ⟨hi, update_of_ne (hne i hi) _ _⟩, ?_⟩
  · show update s.refcount new 0 i ≤ s.refcount i
    rw [update_apply]
    split_ifs <;> omega
  · refine List.Perm.append_right _ (List.Perm.of_eq ?_)
    exact filterMap_value_congr fun i hi => update_of_ne (hne i hi) _ _

theorem LruInv.fill (h : LruInv cfg ks [new] s) :
    Filled cfg ks new ⟨hash, some value⟩ (fillSlot new hash value s) := by
  have hnew : new ∉ s.order := h.notMem_order mem_cons_self
  have hlive := (fillSlot_keeps hash value hnew).live
  exact ⟨⟨h.toLruSlots.congr (.refl _) h.size_eq hlive,
      h.index.congr_slots rfl fun i hi => (hlive i hi).2⟩,
    update_self _ _ _, update_self _ _ _⟩

/-- Every cell that an entry with the hash may take holds a pinned entry. -/
def WindowPinned (cfg : LruConfig) (hash : ℕ) (s : Lru V) : Prop :=
  ∀ d ≤ cfg.maxProbe, ∃ i ∈ s.order, 0 < s.refcount i ∧
    s.cells ((idealCell cfg hash + d) % cfg.nCells) = some i

/-- What a failed insertion ends with: the value is destroyed last. -/
structure PutFailed (cfg : LruConfig) (ks : LruKeys K V) (value : V) (s₀ s : Lru V) : Prop where
  inv : LruInv cfg ks [] s
  accounted : (s.values ++ s.destroyed).Perm (value :: (s₀.values ++ s₀.destroyed))
  destroyed : ∃ ds, s.destroyed = s₀.destroyed ++ ds ++ [value]
  live : ∀ i ∈ s.order, i ∈ s₀.order ∧ s.slots i = s₀.slots i

/-- What the loop around `index_insert_robin` ends with. -/
def PlacePost (cfg : LruConfig) (ks : LruKeys K V) (new hash : ℕ) (value : V) (s₀ : Lru V) :
    EvictResult → Lru V → Prop
  | .evicted, s => Placed cfg ks new ⟨hash, some value⟩ s ∧ Since s₀ s
  | .allPinned, s => PutFailed cfg ks value s₀ s ∧ WindowPinned cfg hash s₀
  | .diverged, _ => False

theorem insert_sdiff_self {α : Type} {a : α} {t : Set α} (ha : a ∉ t) : insert a t \ {a} = t := by
  rw [Set.insert_sdiff_of_mem _ (Set.mem_singleton a), Set.sdiff_singleton_eq_self ha]

theorem Filled.abandon (h : Filled cfg ks new ⟨hash, some value⟩ s) (hs : Since s₀ s) :
    PutGuar value s₀ s (abandonSlot new s) ∧ PutFailed cfg ks value s₀ (abandonSlot new s) := by
  have hnew : new ∉ s.order := h.inv.notMem_order mem_cons_self
  have hne : ∀ i ∈ s.order, i ≠ new := by
    rintro i hi rfl
    exact hnew hi
  have hdestroyed : (abandonSlot new s).destroyed = s.destroyed ++ [value] := by
    show s.destroyed ++ (s.slots new).value.toList = _
    rw [h.slot]
    rfl
  have hvalues : (abandonSlot new s).values = s.values :=
    filterMap_value_congr fun i hi => update_of_ne (hne i hi) _ _
  have haccounted : ((abandonSlot new s).values ++ (abandonSlot new s).destroyed).Perm
      (value :: (s₀.values ++ s₀.destroyed)) := by
    rw [hvalues, hdestroyed, ← append_assoc]
    exact (perm_append_singleton _ _).trans (hs.accounted.cons _)
  have hslots : ∀ i ∈ s.order, (abandonSlot new s).slots i = s.slots i :=
    fun i hi => update_of_ne (hne i hi) _ _
  refine ⟨⟨⟨fun i => ?_, fun i hi _ => update_of_ne (hne i hi) _ _,
    fun i hi _ => ⟨hi, hslots i hi, fun _ => Iff.rfl⟩, ?_⟩, haccounted.subperm⟩,
    ⟨h.inv.toLruSlots.congr perm_middle h.inv.size_eq fun i hi => ⟨hi, hslots i hi⟩,
      h.inv.index.congr_slots rfl hslots⟩, haccounted, ?_, fun i hi => ?_⟩
  · show update s.refcount new 0 i ≤ s.refcount i
    rw [update_apply]
    split_ifs <;> omega
  · rw [hdestroyed]
    exact prefix_append _ _
  · obtain ⟨ds, hds⟩ := hs.destroyed
    exact ⟨ds, by rw [hdestroyed, hds]⟩
  · exact ⟨(hs.live i hi).1, (hslots i hi).trans (hs.live i hi).2⟩

theorem RobinState.window (h : RobinState cfg s new new s') (hpost : ∀ d ≤ cfg.maxProbe,
      s'.cells ((s.home cfg new + d) % cfg.nCells) ≠ none)
    (hindex : Indexed cfg s {i | i ∈ s.order}) (hs : Since s₀ s')
    (hpinned : ∀ i ∈ s'.order, 0 < s'.refcount i) : WindowPinned cfg (s.slots new).hash s₀ := by
  intro d hd
  obtain ⟨i, hi⟩ := Option.ne_none_iff_exists'.mp (hpost d hd)
  have hmem : i ∈ s'.order := by
    rw [h.order_eq]
    refine hindex.mem (c := (s.home cfg new + d) % cfg.nCells) ?_
    rw [← h.unchanged rfl]
    exact hi
  have hmem₀ := (hs.live i hmem).1
  refine ⟨i, hmem₀, lt_of_lt_of_le (hpinned i hmem) (hs.refcount_le i), ?_⟩
  exact ((hs.pinned i hmem₀ (hpinned i hmem)).cell _).mp hi

theorem Filled.robin (h : Filled cfg ks new ⟨hash, some value⟩ s) (hr : RobinState cfg s new new s') :
    Filled cfg ks new ⟨hash, some value⟩ s' := by
  have hnew : new ∉ s.order := h.inv.notMem_order mem_cons_self
  refine ⟨⟨h.inv.toLruSlots.congr_index hr.frame, ?_⟩, ?_, ?_⟩
  · rw [hr.order_eq, Indexed, hr.home_eq, ← insert_sdiff_self (t := {i | i ∈ s.order}) hnew]
    exact hr.index
  · rw [hr.frame]
    exact h.slot
  · exact Nat.le_zero.mp (h.refcount ▸ hr.refcount_le new)

theorem Filled.evict (h : Filled cfg ks new ⟨hash, some value⟩ s)
    (hr : EvictPost cfg ks [new] s s') : Filled cfg ks new ⟨hash, some value⟩ s' := by
  have hnew : new ∉ s.order := h.inv.notMem_order mem_cons_self
  exact ⟨hr.inv, (hr.slots new hnew).trans h.slot,
    Nat.le_zero.mp (h.refcount ▸ hr.refcount_le new)⟩

theorem Filled.released (h : Filled cfg ks new ⟨hash, some value⟩ s) (hr : Released s s') :
    Filled cfg ks new ⟨hash, some value⟩ s' := by
  refine ⟨h.inv.released hr, ?_, Nat.le_zero.mp (h.refcount ▸ hr.refcount_le new)⟩
  obtain ⟨rc, -, rfl⟩ := hr
  exact h.slot

/-- **The placement loop** places the new slot, evicting from the tail as long as the walk cannot. -/
theorem placeLoop_sat (fuel : ℕ) :
    ∀ {s : Lru V}, Filled cfg ks new ⟨hash, some value⟩ s → Since s₀ s → s.order.length < fuel →
      (placeLoop cfg new fuel).Sat Released (PutGuar value s₀)
        (PlacePost cfg ks new hash value s₀) s := by
  induction fuel with
  | zero =>
    intro s _ _ hfuel
    omega
  | succ fuel ih =>
    intro s h hs hfuel
    have hnew : new ∉ s.order := h.inv.notMem_order mem_cons_self
    have hhash : (s.slots new).hash = hash := by rw [h.slot]
    rw [placeLoop]
    refine Prog.Sat.bind ((sat_put (indexInsertRobin_sat hnew h.inv.index h.inv.order_length_lt)
      hs).mono ?_)
    rintro r s₁ ⟨hpost, hs₁⟩
    match r, hpost with
    | .placed, hpost =>
      obtain ⟨hframe, hle, hindex⟩ := hpost
      refine ⟨⟨h.inv.toLruSlots.congr_index hframe, ?_, ?_, ?_⟩, hs₁⟩
      · rw [hframe]
        exact hindex
      · rw [hframe]
        exact h.slot
      · exact Nat.le_zero.mp (h.refcount ▸ hle new)
    | .orphan slot, hpost =>
      obtain ⟨hr, hwindow⟩ := hpost
      dsimp only
      split
      · -- the new slot itself found no cell
        rename_i heq
        subst heq
        have h₁ := h.robin hr
        refine Prog.Sat.bind ((sat_put (evictLruTail_sat h₁.inv) hs₁).mono ?_)
        rintro r s₂ ⟨hpost₂, hs₂⟩
        match r, hpost₂ with
        | .evicted, hpost₂ =>
          refine ih (h₁.evict hpost₂) hs₂ ?_
          have := hpost₂.shorter
          rw [hr.order_eq] at this
          omega
        | .allPinned, hpost₂ =>
          intro s₃ hr₃
          obtain ⟨hguar, hfailed⟩ := ((h₁.released hpost₂.1).released hr₃).abandon (hs₂.released hr₃)
          refine ⟨hguar, hfailed, ?_⟩
          rw [← hhash]
          exact hr.window (hwindow rfl) h.inv.index hs₁ (hr.order_eq ▸ hpost₂.2)
      · -- another slot lost its cell and is dropped
        rename_i hne
        intro s₃ hr₃
        have hr' := hr.released hr₃
        have hs₃ := hs₁.released hr₃
        have hslots₃ := h.inv.toLruSlots.congr_index hr'.frame
        have hmem : slot ∈ s₃.order := by
          rw [hr'.order_eq]
          exact hr'.carry_mem.resolve_left hne
        have hrc := hr'.unpinned hne
        have hkeeps := dropSlot_keeps hmem hslots₃.order_nodup hrc
        have hs₄ := hs₃.keeps hkeeps
        refine ⟨hs₄.guar hkeeps.toKeepsPinned, ⟨hslots₃.drop hmem hrc, ?_, ?_, ?_⟩, hs₄⟩
        · rw [setOf_mem_erase hslots₃.order_nodup, hr'.order_eq,
            ← Set.insert_sdiff_of_notMem _ (fun heq => hne heq.symm)]
          refine Indexed.drop ?_ fun hmem => hmem.2 rfl
          rw [Indexed, hr'.home_eq]
          exact hr'.index
        · refine (update_of_ne (Ne.symm hne) _ _).trans ?_
          rw [hr'.frame]
          exact h.slot
        · refine (update_of_ne (Ne.symm hne) _ _).trans ?_
          exact Nat.le_zero.mp (h.refcount ▸ hr'.refcount_le new)

end Place

end Damacy

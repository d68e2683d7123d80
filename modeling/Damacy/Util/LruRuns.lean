import Damacy.Util.LruOps

/-!
# Runs of the LRU cache

The cache as its callers drive it: lookups, insertions and `lru_entry_acquire_locked` one at a time
under the mutex, and calls of `lru_entry_release` at any time by any number of threads. What holds of
a single operation under releases then holds in every interleaving.
-/

open List Atomic ProbeTable Function

namespace Damacy

variable {K V : Type} {cfg : LruConfig} {ks : LruKeys K V} {s s' : Lru V} {slot : ℕ}

/-! ## The operations -/

/-- A call under the mutex. The value passed to `lru_put` has the key passed with it. -/
inductive LruOp (ks : LruKeys K V)
  | put (k : K) (value : V) (key : ks.same (ks.keyOf value) k)
  | get (k : K)
  | peek (k : K)
  | acquire (slot : ℕ)

def EntryResult.returned : EntryResult → Option EntryResult
  | searching => none
  | r => some r

def LruOp.prog (cfg : LruConfig) : LruOp ks → Prog (Lru V) (Option EntryResult)
  | put k value _ => (lruPut cfg ks.eq (ks.hash k) k value).bind fun r => .done r.returned
  | get k => (lruGet cfg ks.eq (ks.hash k) k).bind fun r => .done r.returned
  | peek k => (lruPeek cfg ks.eq (ks.hash k) k).bind fun r => .done r.returned
  | acquire slot => (lruEntryAcquireLocked slot).bind fun _ => .done (some .null)

def LruOp.putValue : LruOp ks → Option V
  | put _ value _ => some value
  | _ => none

/-- An action of some call of `lru_entry_release`. -/
def ReleaseAction (s s' : Lru V) : Prop :=
  ∃ slot attempts, (lruEntryRelease slot attempts).Action s s'

def LruReachable (cfg : LruConfig) (ks : LruKeys K V) (c : LockState (LruOp ks) EntryResult (Lru V)) :
    Prop :=
  LockReachable (LruOp.prog cfg) ReleaseAction (lruCreate cfg) c

/-! ## Releases -/

theorem release_rest {attempts : List Bool} {p : Prog (Lru V) Bool}
    (h : (lruEntryRelease slot attempts).Rest p) :
    p = lruEntryRelease slot attempts ∨ ∃ attempts cur, p = releaseLoop slot attempts cur := by
  induction h with
  | refl => exact .inl rfl
  | next s h ih =>
    right
    rcases ih with heq | ⟨attempts', cur, heq⟩
    · cases heq
      exact ⟨_, _, rfl⟩
    · cases attempts' with
      | nil => cases heq
      | cons spurious attempts' =>
        rw [releaseLoop] at heq
        split at heq
        · cases heq
        · cases heq
          dsimp only
          split
          · exact ⟨[false], 0, rfl⟩
          · exact ⟨_, _, rfl⟩

theorem release_action {attempts : List Bool} (h : (lruEntryRelease slot attempts).Action s s') :
    s' = s ∨ 0 < s.refcount slot ∧ s' = s.decRefcount slot := by
  obtain ⟨write, next, hrest, rfl⟩ := h
  rcases release_rest hrest with heq | ⟨attempts', cur, heq⟩
  · cases heq
    exact .inl rfl
  · cases attempts' with
    | nil => cases heq
    | cons spurious attempts' =>
      rw [releaseLoop] at heq
      split at heq
      · cases heq
      · rename_i hcur
        cases heq
        dsimp only
        split
        · rename_i hcas
          exact .inr ⟨by omega, rfl⟩
        · exact .inl rfl

theorem ReleaseAction.released (h : ReleaseAction s s') : Released s s' := by
  obtain ⟨slot, attempts, h⟩ := h
  rcases release_action h with rfl | ⟨-, rfl⟩
  · exact .refl _
  · refine ⟨update s.refcount slot (s.refcount slot - 1), fun i => ?_, rfl⟩
    rw [update_apply]
    split
    · rename_i heq
      subst heq
      exact Nat.sub_le _ _
    · exact le_rfl

/-! ## The invariant of a run -/

def putValues (started : List (LruOp ks)) : List V := started.filterMap LruOp.putValue

/-- What every action guarantees: pinned entries stay as they are, and no value is live or destroyed
more often than it was passed in. -/
structure RunGuar (started : List (LruOp ks)) (s s' : Lru V) : Prop where
  pinned : ∀ i ∈ s.order, 0 < s.refcount i → SameEntry s s' i
  accounted : (s'.values ++ s'.destroyed).Subperm (putValues started)

/-- What holds while the mutex is free: every value passed in is live or destroyed. -/
structure RunInv (cfg : LruConfig) (ks : LruKeys K V) (started : List (LruOp ks)) (s : Lru V) :
    Prop where
  inv : LruInv cfg ks [] s
  accounted : (s.values ++ s.destroyed).Perm (putValues started)

theorem putValues_append_put (started : List (LruOp ks)) {k : K} {value : V}
    (key : ks.same (ks.keyOf value) k) :
    putValues (started ++ [.put k value key]) = putValues started ++ [value] := by
  rw [putValues, filterMap_append]
  rfl

theorem putValues_append_of_none {started : List (LruOp ks)} (op : LruOp ks)
    (h : op.putValue = none) : putValues (started ++ [op]) = putValues started := by
  rw [putValues, filterMap_append, filterMap_cons_none h]
  exact append_nil _

theorem RunInv.released {started : List (LruOp ks)} (h : RunInv cfg ks started s)
    (hr : Released s s') : RunInv cfg ks started s' := by
  refine ⟨h.inv.released hr, ?_⟩
  obtain ⟨rc, -, rfl⟩ := hr
  exact h.accounted

theorem LruInv.lookup_returned (h : LruInv cfg ks [] s) {k : K} {r : EntryResult}
    (hr : (lookupEntry cfg ks.eq s (ks.hash k) k).returned = some r) : r ≠ .diverged := by
  rintro rfl
  rcases h.lookup_cases k with ⟨slot, heq⟩ | ⟨-, heq | ⟨heq, -⟩⟩ <;> rw [heq] at hr <;> cases hr

theorem LruOp.prog_sat {started : List (LruOp ks)} (h : RunInv cfg ks started s) (op : LruOp ks) :
    (op.prog cfg).Sat Released (RunGuar (started ++ [op]))
      (fun r s => ∀ a, r = some a → a ≠ .diverged ∧ RunInv cfg ks (started ++ [op]) s) s := by
  cases op with
  | put k value key =>
    have hputs : (value :: (s.values ++ s.destroyed)).Perm
        (putValues (started ++ [.put k value key])) := by
      rw [putValues_append_put]
      exact (h.accounted.cons value).trans (perm_append_singleton _ _).symm
    refine Prog.Sat.bind (((lruPut_sat h.inv key).weaken (fun _ _ h => h) fun _ _ hguar => ?_).mono
      fun r s' hpost a ha => ?_)
    · exact ⟨hguar.pinned, hguar.accounted.trans hputs.subperm⟩
    · cases r with
      | null =>
        cases ha
        exact ⟨fun heq => (by cases heq), hpost.1.inv, hpost.1.accounted.trans hputs⟩
      | entry slot =>
        cases ha
        exact ⟨fun heq => (by cases heq), hpost.inv, hpost.accounted.trans hputs⟩
      | searching => cases ha
      | diverged => exact hpost.elim
  | get k =>
    intro s₁ hr₁
    have h₁ := h.released hr₁
    have ht := h₁.inv.touch k
    have haccounted := ht.accounted.trans h₁.accounted
    rw [← putValues_append_of_none (.get k) rfl] at haccounted
    exact ⟨⟨fun i hi _ => ht.sameEntry hi, haccounted.subperm⟩,
      fun a ha => ⟨h₁.inv.lookup_returned ha, ht.inv h₁.inv, haccounted⟩⟩
  | peek k =>
    intro s₁ hr₁
    have h₁ := h.released hr₁
    have haccounted := h₁.accounted
    rw [← putValues_append_of_none (.peek k) rfl] at haccounted
    exact ⟨⟨fun i hi _ => .refl hi, haccounted.subperm⟩,
      fun a ha => ⟨h₁.inv.lookup_returned ha, h₁.inv, haccounted⟩⟩
  | acquire slot =>
    intro s₁ hr₁
    have h₁ := h.released hr₁
    have haccounted := h₁.accounted
    rw [← putValues_append_of_none (.acquire slot) rfl] at haccounted
    refine ⟨⟨fun i hi _ => ⟨hi, rfl, fun _ => Iff.rfl⟩, haccounted.subperm⟩, fun a ha => ?_⟩
    cases ha
    exact ⟨fun heq => (by cases heq), ⟨h₁.inv.toLruSlots.congr_index rfl, h₁.inv.index⟩, haccounted⟩

variable {c c' : LockState (LruOp ks) EntryResult (Lru V)}

theorem LruReachable.lockInv (h : LruReachable cfg ks c) :
    LockInv Released RunGuar (· ≠ .diverged) (RunInv cfg ks) c :=
  LockReachable.inv Released.refl Released.trans (fun _ _ => ReleaseAction.released)
    ⟨LruInv.create cfg ks, .refl _⟩ (fun _ _ _ h => h.released) (fun op _ _ h => op.prog_sat h) h

theorem LruReachable.runInv {started : List (LruOp ks)} (h : LruReachable cfg ks ⟨started, none, s⟩) :
    RunInv cfg ks started s :=
  h.lockInv

/-! ## The shape of the cache -/

structure LruWellFormed (cfg : LruConfig) (ks : LruKeys K V) (s : Lru V) : Prop where
  /-- The two lists partition the slots. -/
  partition : (s.order ++ s.freelist).Perm (List.range cfg.capacity)
  /-- Cells hold live slots. -/
  cell_live : ∀ c i, s.cells c = some i → c < cfg.nCells ∧ i ∈ s.order
  /-- Every live slot is in one cell. -/
  cell_unique : ∀ i ∈ s.order, ∃! c, s.cells c = some i
  /-- That cell is at most `max_probe` cells after the ideal one. -/
  cell_near : ∀ c i, s.cells c = some i →
    ∃ d ≤ cfg.maxProbe, c = (idealCell cfg (s.slots i).hash + d) % cfg.nCells
  /-- A lookup of the key of a live entry finds the entry. -/
  lookup : ∀ i ∈ s.order, ∃ v, (s.slots i).value = some v ∧
    ∀ k, ks.same (ks.keyOf v) k → lookupEntry cfg ks.eq s (ks.hash k) k = .entry i
  /-- Two live entries have different keys. -/
  key_unique : ∀ i ∈ s.order, ∀ j ∈ s.order, ∀ v w, (s.slots i).value = some v →
    (s.slots j).value = some w → ks.same (ks.keyOf v) (ks.keyOf w) → i = j
  size_eq : s.size = s.order.length
  size_le : s.size ≤ cfg.capacity

theorem LruInv.wellFormed (h : LruInv cfg ks [] s) : LruWellFormed cfg ks s := by
  refine ⟨h.perm, fun c i hc => ⟨h.index.lt hc, h.index.mem hc⟩, fun i hi => ?_, fun c i hc => ?_,
    fun i hi => ?_, h.unique, h.size_eq, ?_⟩
  · obtain ⟨c, hc⟩ := h.index.found hi
    exact ⟨c, hc, fun c' hc' => h.index.inj hc' hc⟩
  · exact ⟨_, h.index.dist_le hc,
      (add_dist (h.index.lt hc) (Nat.mod_lt _ cfg.nCells_pos)).symm⟩
  · obtain ⟨v, hv⟩ := h.value i hi
    have hvalue : (s.slots i).value = some v := congrArg LruEntry.value hv
    exact ⟨v, hvalue, fun k hk => h.lookup_eq_entry_iff.mpr ⟨hi, v, hvalue, hk⟩⟩
  · have := h.length_eq
    rw [h.size_eq]
    omega

/-- **The cache is well formed whenever its mutex is free**, and no call ends without a result of its
insertion, erase and eviction loops. -/
theorem lru_wellFormed (h : LruReachable cfg ks c) :
    (c.running = none → LruWellFormed cfg ks c.shared) ∧
      c.running ≠ some (.done (some .diverged)) := by
  obtain ⟨started, running, shared⟩ := c
  have hinv := h.lockInv
  constructor
  · rintro rfl
    exact hinv.inv.wellFormed
  · rintro rfl
    exact (hinv .diverged rfl).1 rfl

/-! ## Ownership of the values -/

theorem LruReachable.accounted (h : LruReachable cfg ks c) :
    (c.shared.values ++ c.shared.destroyed).Subperm (putValues c.started) := by
  induction h with
  | refl => exact nil_subperm
  | tail hreach hstep ih =>
    have hinv := LruReachable.lockInv hreach
    cases hstep with
    | start op l s =>
      refine ih.trans (List.Sublist.subperm ?_)
      exact (sublist_append_left l [op]).filterMap _
    | own write next l s => exact (hinv s (Released.refl s)).1.accounted
    | finish a l s => exact ih
    | other l p s s' hs =>
      obtain ⟨rc, -, rfl⟩ := ReleaseAction.released hs
      exact ih

theorem lruDestroy_sat (s : Lru V) :
    lruDestroy.Sat Released (fun _ _ => True) (fun freed s' =>
      if freed then s'.destroyed = s.destroyed ++ s.values
      else s'.values = s.values ∧ s'.destroyed = s.destroyed) s := by
  have hloop : ∀ (l : List ℕ) (pinned : ℕ) (t : Lru V), Released s t →
      (pinnedLoop l pinned).Sat Released (fun _ _ => True) (fun _ => Released s) t := by
    intro l
    induction l with
    | nil => exact fun _ _ ht => ht
    | cons slot rest ih =>
      intro pinned t ht t' ht'
      exact ⟨trivial, ih _ _ (ht.trans _ _ _ ht')⟩
  intro s₁ hr₁
  refine ⟨trivial, Prog.Sat.bind ((hloop _ _ _ hr₁).mono fun pinned s₂ hr₂ => ?_)⟩
  split
  · intro s₃ hr₃
    obtain ⟨rc, -, rfl⟩ := hr₂.trans _ _ _ hr₃
    exact ⟨trivial, rfl⟩
  · obtain ⟨rc, -, rfl⟩ := hr₂
    exact ⟨rfl, rfl⟩

/-- **Every value passed to `lru_put` is live once or was destroyed once.** While an entry is pinned
no step of any thread moves it or takes its value, and releasing an unpinned entry does nothing.
`lru_destroy` leaves no value undestroyed unless it leaks the cache. -/
theorem lru_ownership (h : LruReachable cfg ks c) :
    (c.running = none →
      (c.shared.values ++ c.shared.destroyed).Perm (putValues c.started) ∧
      lruDestroy.Sat Released (fun _ _ => True) (fun freed s =>
        (if freed then s.destroyed else s.values ++ s.destroyed).Perm (putValues c.started))
        c.shared) ∧
    (c.shared.values ++ c.shared.destroyed).Subperm (putValues c.started) ∧
    (∀ c', LockStep (LruOp.prog cfg) ReleaseAction c c' → ∀ i ∈ c.shared.order,
      0 < c.shared.refcount i → SameEntry c.shared c'.shared i) ∧
    ∀ slot attempts s', (lruEntryRelease slot attempts).Action c.shared s' →
      c.shared.refcount slot = 0 → s' = c.shared := by
  have hinv := h.lockInv
  refine ⟨fun hidle => ?_, h.accounted, fun c' hstep i hi hpin => ?_,
    fun slot attempts s' haction hzero => ?_⟩
  · obtain ⟨started, running, shared⟩ := c
    obtain rfl : running = none := hidle
    have haccounted := hinv.accounted
    refine ⟨haccounted, (lruDestroy_sat shared).mono fun freed s hs => ?_⟩
    cases freed with
    | false => exact hs.1.symm ▸ hs.2.symm ▸ haccounted
    | true =>
      rw [if_pos rfl] at hs ⊢
      exact hs ▸ perm_append_comm.trans haccounted
  · exact hstep.rel (P := fun s s' => ∀ i ∈ s.order, 0 < s.refcount i → SameEntry s s' i)
      Released.refl (fun s i hi _ => .refl hi)
      (fun s s' hs i hi _ => by
        obtain ⟨rc, -, rfl⟩ := ReleaseAction.released hs
        exact ⟨hi, rfl, fun _ => Iff.rfl⟩)
      (fun s s' hguar => hguar.pinned) hinv i hi hpin
  · rcases release_action haction with heq | ⟨hpos, -⟩
    · exact heq
    · omega

/-! ## Failures -/

/-- A failed insertion of an absent key means a full cache of pinned entries, unless the cells that
the key may take are all taken by pinned entries. -/
theorem lruPut_null_saturated_iff {started : List (LruOp ks)}
    (h : LruReachable cfg ks ⟨started, none, s⟩) {k : K} {value : V}
    (hkey : ks.same (ks.keyOf value) k) (habsent : Absent ks k s) :
    (((lruPut cfg ks.eq (ks.hash k) k value).run s).1 = .null → Saturated cfg s) ↔
      (WindowPinned cfg (ks.hash k) s → Saturated cfg s) := by
  have hinv := h.runInv.inv
  constructor
  · exact fun hnull hwindow => hnull (lruPut_eq_null_of_windowPinned hinv hkey hwindow)
  · intro hwindow hnull
    obtain ⟨hpost, -⟩ := lruPut_run hinv hkey
    rw [hnull] at hpost
    exact (hpost.2.saturated_or_window hinv habsent).elim id hwindow

theorem beq_key_iff {v k : ℕ} : (v == k) = true ↔ v = k := beq_iff_eq

def residueKeys : LruKeys ℕ ℕ where
  same := Eq
  equiv := eq_equivalence
  hash k := k % 8
  hash_congr h := by rw [h]
  keyOf v := v
  eq v k := v == k
  eq_iff := @beq_key_iff

def smallLru : LruConfig := { capacity := 4, maxProbe := 1, maxProbe_pos := Nat.one_pos }

/-- Two pinned entries with hash 0, in both cells that the hash may take, and a third with hash 4. -/
def crowdedOps : List (LruOp residueKeys) :=
  [.put 0 0 rfl, .acquire 3, .put 8 8 rfl, .acquire 2, .put 4 4 rfl]

def crowdedLru : Lru ℕ :=
  crowdedOps.foldl (fun s op => ((op.prog smallLru).run s).2) (lruCreate smallLru)

theorem crowdedLru_reachable : LruReachable smallLru residueKeys ⟨crowdedOps, none, crowdedLru⟩ := by
  have h0 : LruReachable smallLru residueKeys ⟨[], none, lruCreate smallLru⟩ := .refl
  have h1 := h0.run (.put 0 0 rfl) (a := .entry 3) (by decide +kernel)
  have h2 := h1.run (.acquire 3) (a := .null) rfl
  have h3 := h2.run (.put 8 8 rfl) (a := .entry 2) (by decide +kernel)
  have h4 := h3.run (.acquire 2) (a := .null) rfl
  exact h4.run (.put 4 4 rfl) (a := .entry 1) (by decide +kernel)

theorem absent_of_values {l : Lru ℕ} {k : ℕ} (h : k ∉ l.values) : Absent residueKeys k l := by
  intro i hi v hv hsame
  obtain rfl : v = k := hsame
  exact h (mem_filterMap.mpr ⟨i, hi, hv⟩)

/-- The insertion of another key with hash 0 fails with a slot free and an entry unpinned. -/
theorem crowdedLru_put_null :
    LruReachable smallLru residueKeys ⟨crowdedOps, none, crowdedLru⟩ ∧
      Absent residueKeys 16 crowdedLru ∧
      ((lruPut smallLru residueKeys.eq (residueKeys.hash 16) 16 16).run crowdedLru).1 = .null ∧
      crowdedLru.size = 3 ∧ crowdedLru.refcount 1 = 0 ∧ ¬ Saturated smallLru crowdedLru := by
  refine ⟨crowdedLru_reachable, absent_of_values (by decide +kernel), by decide +kernel,
    by decide +kernel, by decide +kernel, fun hsat => ?_⟩
  have hsize : crowdedLru.size ≠ 4 := by decide +kernel
  exact hsize hsat.1

def fullOps : List (LruOp residueKeys) :=
  [.put 1 1 rfl, .acquire 3, .put 2 2 rfl, .acquire 2, .put 3 3 rfl, .acquire 1, .put 4 4 rfl,
    .acquire 0]

def fullLru : Lru ℕ :=
  fullOps.foldl (fun s op => ((op.prog smallLru).run s).2) (lruCreate smallLru)

theorem fullLru_reachable : LruReachable smallLru residueKeys ⟨fullOps, none, fullLru⟩ := by
  have h0 : LruReachable smallLru residueKeys ⟨[], none, lruCreate smallLru⟩ := .refl
  have h1 := h0.run (.put 1 1 rfl) (a := .entry 3) (by decide +kernel)
  have h2 := h1.run (.acquire 3) (a := .null) rfl
  have h3 := h2.run (.put 2 2 rfl) (a := .entry 2) (by decide +kernel)
  have h4 := h3.run (.acquire 2) (a := .null) rfl
  have h5 := h4.run (.put 3 3 rfl) (a := .entry 1) (by decide +kernel)
  have h6 := h5.run (.acquire 1) (a := .null) rfl
  have h7 := h6.run (.put 4 4 rfl) (a := .entry 0) (by decide +kernel)
  exact h7.run (.acquire 0) (a := .null) rfl

/-- A full cache of pinned entries: the insertion of a key fails although its window is free, and
that it is full and pinned follows. -/
theorem lruPut_null_saturated_iff_full :
    ((lruPut smallLru residueKeys.eq (residueKeys.hash 5) 5 5).run fullLru).1 = .null ∧
      ¬ WindowPinned smallLru (residueKeys.hash 5) fullLru ∧ Saturated smallLru fullLru := by
  have hnull : ((lruPut smallLru residueKeys.eq (residueKeys.hash 5) 5 5).run fullLru).1 = .null := by
    decide +kernel
  have hfree : fullLru.cells ((idealCell smallLru (residueKeys.hash 5) + 0) % smallLru.nCells) =
      none := by decide +kernel
  have hopen : ¬ WindowPinned smallLru (residueKeys.hash 5) fullLru := by
    intro hwindow
    obtain ⟨i, -, -, hcell⟩ := hwindow 0 (Nat.zero_le _)
    cases hfree.symm.trans hcell
  have habsent : Absent residueKeys 5 fullLru := absent_of_values (by decide +kernel)
  exact ⟨hnull, hopen, (lruPut_null_saturated_iff fullLru_reachable rfl habsent).mpr
    (fun hwindow => (hopen hwindow).elim) hnull⟩

theorem lru_wellFormed_crowded :
    LruReachable smallLru residueKeys ⟨crowdedOps, none, crowdedLru⟩ ∧
      LruWellFormed smallLru residueKeys crowdedLru :=
  ⟨crowdedLru_reachable, (lru_wellFormed crowdedLru_reachable).1 rfl⟩

theorem lru_ownership_crowded :
    LruReachable smallLru residueKeys ⟨crowdedOps, none, crowdedLru⟩ ∧
      (crowdedLru.values ++ crowdedLru.destroyed).Perm [0, 8, 4] :=
  ⟨crowdedLru_reachable, ((lru_ownership crowdedLru_reachable).1 rfl).1⟩

end Damacy

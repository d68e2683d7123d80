import Damacy.Util.Lru

/-!
# The index of the LRU cache

`index_insert_robin` and `index_erase` keep the index: every live slot in one cell, at most
`max_probe` cells after its ideal cell. Pinned slots keep their cells, so the textbook ordering of
the probe distances is lost and nothing here relies on it. Both walks end because the table has an
empty cell.
-/

open Atomic ProbeTable Function

namespace Damacy

/-! ## The number of cells -/

def SmearedBits (m k r : ℕ) : Prop := ∀ i, r.testBit i = true ↔ ∃ d < k, m.testBit (i + d) = true

theorem SmearedBits.double {m k r : ℕ} (h : SmearedBits m k r) :
    SmearedBits m (2 * k) (r ||| (r >>> k)) := by
  intro i
  rw [Nat.testBit_or, Nat.testBit_shiftRight, Bool.or_eq_true, h, h]
  constructor
  · rintro (⟨d, hd, hm⟩ | ⟨d, hd, hm⟩)
    · exact ⟨d, by omega, hm⟩
    · exact ⟨k + d, by omega, by rwa [show i + (k + d) = k + i + d by omega]⟩
  · rintro ⟨d, hd, hm⟩
    by_cases hdk : d < k
    · exact .inl ⟨d, hdk, hm⟩
    · exact .inr ⟨d - k, by omega, by rwa [show k + i + (d - k) = i + d by omega]⟩

theorem nextPow2Ge_spec {v : ℕ} (hv : 2 ≤ v) (hle : v ≤ 2 ^ 31) :
    ∃ k ≤ 31, nextPow2Ge v = 2 ^ k ∧ v ≤ 2 ^ k := by
  set m := v - 1 with hm
  have hmne : m ≠ 0 := by omega
  have hlog : m.log2 < 31 := (Nat.log2_lt hmne).mpr (by omega)
  have hlt : m < 2 ^ (m.log2 + 1) := Nat.lt_log2_self
  have h1 : SmearedBits m 1 m := by
    intro i
    constructor
    · exact fun h => ⟨0, Nat.one_pos, h⟩
    · rintro ⟨d, hd, h⟩
      rwa [show d = 0 by omega] at h
  obtain ⟨r, hgoal, hsmear⟩ : ∃ r, nextPow2Ge v = u32 (r + 1) ∧ SmearedBits m 32 r := by
    refine ⟨_, ?_, h1.double.double.double.double.double⟩
    rw [nextPow2Ge, if_neg (by omega)]
  have hones : r = 2 ^ (m.log2 + 1) - 1 := by
    apply Nat.eq_of_testBit_eq
    intro i
    rw [Nat.testBit_two_pow_sub_one, Bool.eq_iff_iff, hsmear i, decide_eq_true_iff]
    constructor
    · rintro ⟨d, -, hbit⟩
      by_contra hge
      have hbig : m < 2 ^ (i + d) :=
        hlt.trans_le (Nat.pow_le_pow_right (by decide) (by omega))
      rw [Nat.testBit_lt_two_pow hbig] at hbit
      cases hbit
    · intro hi
      refine ⟨m.log2 - i, by omega, ?_⟩
      rw [show i + (m.log2 - i) = m.log2 by omega]
      exact Nat.testBit_log2 hmne
  refine ⟨m.log2 + 1, by omega, ?_, by omega⟩
  have hpow : 2 ^ (m.log2 + 1) ≤ 2 ^ 31 := Nat.pow_le_pow_right (by decide) (by omega)
  have hpos : 0 < 2 ^ (m.log2 + 1) := Nat.two_pow_pos _
  rw [hgoal, hones, u32_of_lt (by omega)]
  omega

namespace LruConfig

variable (cfg : LruConfig)

theorem nCells_spec : ∃ k ≤ 31, cfg.nCells = 2 ^ k ∧ 2 * cfg.capacity ≤ 2 ^ k := by
  have hpos := cfg.capacity_pos
  have hle := cfg.capacity_le
  rw [nCells, u32_of_lt (by omega)]
  exact nextPow2Ge_spec (by omega) (by omega)

theorem lt_nCells : cfg.capacity < cfg.nCells := by
  obtain ⟨k, -, hk, hle⟩ := cfg.nCells_spec
  have := cfg.capacity_pos
  omega

theorem two_le_nCells : 2 ≤ cfg.nCells := by
  have := cfg.lt_nCells
  have := cfg.capacity_pos
  omega

theorem nCells_pos : 0 < cfg.nCells := by
  have := cfg.two_le_nCells
  omega

end LruConfig

/-! ## What other threads and the operations may change -/

variable {V : Type}

def Released (s s' : Lru V) : Prop :=
  ∃ rc : ℕ → ℕ, (∀ i, rc i ≤ s.refcount i) ∧ s' = { s with refcount := rc }

theorem Released.refl (s : Lru V) : Released s s := ⟨s.refcount, fun _ => le_rfl, rfl⟩

theorem Released.trans (a b c : Lru V) (h1 : Released a b) (h2 : Released b c) : Released a c := by
  obtain ⟨rc1, hle1, rfl⟩ := h1
  obtain ⟨rc2, hle2, rfl⟩ := h2
  exact ⟨rc2, fun i => (hle2 i).trans (hle1 i), rfl⟩

theorem Released.refcount_le {s s' : Lru V} (h : Released s s') (i : ℕ) :
    s'.refcount i ≤ s.refcount i := by
  obtain ⟨rc, hle, rfl⟩ := h
  exact hle i

/-- The entry in slot `i` is live after the step, with the same value, in the same cell. -/
structure SameEntry (s s' : Lru V) (i : ℕ) : Prop where
  live : i ∈ s'.order
  slot : s'.slots i = s.slots i
  cell : ∀ c, s'.cells c = some i ↔ s.cells c = some i

/-- What an action of `lru_put` may change: no refcount is raised, the pinned entries stay as they
are, and what was destroyed stays destroyed. -/
structure KeepsPinned (s s' : Lru V) : Prop where
  refcount_le : ∀ i, s'.refcount i ≤ s.refcount i
  refcount_eq : ∀ i ∈ s.order, 0 < s.refcount i → s'.refcount i = s.refcount i
  pinned : ∀ i ∈ s.order, 0 < s.refcount i → SameEntry s s' i
  destroyed : s.destroyed <+: s'.destroyed

/-- What it may change before its value is linked or destroyed: entries go, none comes or gets
another value, and the values that go are destroyed. -/
structure Keeps (s s' : Lru V) : Prop extends KeepsPinned s s' where
  live : ∀ i ∈ s'.order, i ∈ s.order ∧ s'.slots i = s.slots i
  accounted : (s'.values ++ s'.destroyed).Perm (s.values ++ s.destroyed)

theorem SameEntry.refl {s : Lru V} {i : ℕ} (h : i ∈ s.order) : SameEntry s s i :=
  ⟨h, rfl, fun _ => Iff.rfl⟩

theorem SameEntry.trans {s s' s'' : Lru V} {i : ℕ} (h : SameEntry s s' i) (h' : SameEntry s' s'' i) :
    SameEntry s s'' i :=
  ⟨h'.live, h'.slot.trans h.slot, fun c => (h'.cell c).trans (h.cell c)⟩

theorem KeepsPinned.refl (s : Lru V) : KeepsPinned s s :=
  ⟨fun _ => le_rfl, fun _ _ _ => rfl, fun _ hi _ => .refl hi, List.prefix_rfl⟩

theorem Keeps.refl (s : Lru V) : Keeps s s :=
  ⟨.refl s, fun _ hi => ⟨hi, rfl⟩, .refl _⟩

theorem Keeps.setCell {s : Lru V} {cell : ℕ} {slot : Option ℕ} {probe : ℕ}
    (hcell : ∀ i, s.cells cell = some i → s.refcount i = 0)
    (hslot : ∀ i, slot = some i → i ∈ s.order → s.refcount i = 0) :
    Keeps s { s.setCell cell slot with maxProbeObserved := probe } := by
  refine ⟨⟨fun _ => le_rfl, fun _ _ _ => rfl, fun i hi hpin => ⟨hi, rfl, fun c => ?_⟩,
    List.prefix_rfl⟩, fun _ hi => ⟨hi, rfl⟩, .refl _⟩
  show update s.cells cell slot c = some i ↔ _
  by_cases hc : c = cell
  · subst hc
    rw [update_self]
    constructor
    · intro h
      have := hslot i h hi
      omega
    · intro h
      have := hcell i h
      omega
  · rw [update_of_ne hc]

/-! ## Insertion -/

section Robin

variable {cfg : LruConfig} {s₀ s s' : Lru V} {newSlot carry : ℕ}

/-- The state of the robin-hood walk, which started in `s₀` with `newSlot` and now carries `carry`:
all slots but that one are stored. -/
structure RobinState (cfg : LruConfig) (s₀ : Lru V) (newSlot carry : ℕ) (s : Lru V) : Prop where
  frame : s = { s₀ with
    refcount := s.refcount, cells := s.cells, maxProbeObserved := s.maxProbeObserved }
  refcount_le : ∀ i, s.refcount i ≤ s₀.refcount i
  index : IsIndex cfg.nCells cfg.maxProbe (s₀.home cfg) s.cells
    (insert newSlot {i | i ∈ s₀.order} \ {carry})
  carry_mem : carry = newSlot ∨ carry ∈ s₀.order
  unchanged : carry = newSlot → s.cells = s₀.cells
  unpinned : carry ≠ newSlot → s.refcount carry = 0

/-- What the walk ends with: the new slot and all others are stored, or all but the orphan; when the
orphan is the new slot, every cell that it may take holds another one. -/
def RobinPost (cfg : LruConfig) (s₀ : Lru V) (newSlot : ℕ) : InsertResult → Lru V → Prop
  | .placed, s => s = { s₀ with
      refcount := s.refcount, cells := s.cells, maxProbeObserved := s.maxProbeObserved } ∧
      (∀ i, s.refcount i ≤ s₀.refcount i) ∧
      IsIndex cfg.nCells cfg.maxProbe (s₀.home cfg) s.cells (insert newSlot {i | i ∈ s₀.order})
  | .orphan slot, s => RobinState cfg s₀ newSlot slot s ∧
      (slot = newSlot → ∀ d ≤ cfg.maxProbe,
        s.cells ((s₀.home cfg newSlot + d) % cfg.nCells) ≠ none)
  | .diverged, _ => False

theorem RobinState.order_eq (h : RobinState cfg s₀ newSlot carry s) : s.order = s₀.order := by
  rw [h.frame]

theorem RobinState.home_eq (h : RobinState cfg s₀ newSlot carry s) : s.home cfg = s₀.home cfg := by
  rw [h.frame]
  rfl

theorem RobinState.released (h : RobinState cfg s₀ newSlot carry s) (hr : Released s s') :
    RobinState cfg s₀ newSlot carry s' := by
  obtain ⟨rc, hle, rfl⟩ := hr
  refine ⟨?_, fun i => (hle i).trans (h.refcount_le i), h.index, h.carry_mem, h.unchanged,
    fun hne => ?_⟩
  · conv_lhs => rw [h.frame]
  · have := h.unpinned hne
    have := hle carry
    show rc carry = 0
    omega

theorem RobinState.home_lt (cfg : LruConfig) (s₀ : Lru V) (i : ℕ) : s₀.home cfg i < cfg.nCells :=
  Nat.mod_lt _ cfg.nCells_pos

theorem RobinState.insert_carry (h : RobinState cfg s₀ newSlot carry s) :
    insert carry (insert newSlot {i | i ∈ s₀.order} \ {carry}) =
      insert newSlot {i | i ∈ s₀.order} := by
  rw [Set.insert_sdiff_singleton]
  apply Set.insert_eq_of_mem
  rcases h.carry_mem with rfl | hmem
  · exact .inl rfl
  · exact .inr hmem

theorem RobinState.carry_unpinned (h : RobinState cfg s₀ newSlot carry s)
    (hnew : newSlot ∉ s₀.order) (hmem : carry ∈ s.order) : s.refcount carry = 0 := by
  apply h.unpinned
  rintro rfl
  rw [h.order_eq] at hmem
  exact hnew hmem

theorem RobinState.take_empty {cell probe : ℕ} (h : RobinState cfg s₀ newSlot carry s)
    (hc : cell < cfg.nCells) (hempty : s.cells cell = none)
    (hd : dist cfg.nCells cell (s₀.home cfg carry) ≤ cfg.maxProbe) :
    RobinPost cfg s₀ newSlot .placed (takeCell cell carry probe s) := by
  refine ⟨?_, h.refcount_le, ?_⟩
  · conv_lhs => rw [h.frame]
    rfl
  · have hplace := h.index.place hc hempty (fun hm => hm.2 rfl) hd
    rwa [h.insert_carry] at hplace

theorem RobinState.take_cell {cell probe incumbent : ℕ} (h : RobinState cfg s₀ newSlot carry s)
    (hcell : s.cells cell = some incumbent) (hne : incumbent ≠ newSlot)
    (hunpinned : s.refcount incumbent = 0)
    (hd : dist cfg.nCells cell (s₀.home cfg carry) ≤ cfg.maxProbe) :
    RobinState cfg s₀ newSlot incumbent (takeCell cell carry probe s) := by
  obtain ⟨hmem, hcarry⟩ := h.index.mem hcell
  refine ⟨?_, h.refcount_le, ?_, ?_, fun heq => (hne heq).elim, fun _ => hunpinned⟩
  · conv_lhs => rw [h.frame]
    rfl
  · have hset : insert carry ((insert newSlot {i | i ∈ s₀.order} \ {carry}) \ {incumbent}) =
        insert newSlot {i | i ∈ s₀.order} \ {incumbent} := by
      rw [← Set.insert_sdiff_of_notMem _ (fun heq => hcarry heq.symm), h.insert_carry]
    rw [← hset]
    exact h.index.swap hcell (fun hm => hm.2 rfl) hd
  · rcases hmem with heq | hmem
    · exact (hne heq).elim
    · exact .inr hmem

/-- **The robin-hood walk** places the new slot or finds an orphan, under releases by other
threads. `e` is the number of cells up to the first empty one, which the walk does not pass. -/
theorem robinLoop_sat (hnew : newSlot ∉ s₀.order) (fuel : ℕ) :
    ∀ {carry probe cell e : ℕ} {s : Lru V}, RobinState cfg s₀ newSlot carry s → cell < cfg.nCells →
      probe = dist cfg.nCells cell (s₀.home cfg carry) → probe + e < cfg.nCells → e < fuel →
      s.cells ((cell + e) % cfg.nCells) = none →
      (∀ t < e, s.cells ((cell + t) % cfg.nCells) ≠ none) →
      (∀ t ≤ e, s.cells ((cell + t) % cfg.nCells) ≠ some newSlot) →
      (carry = newSlot → ∀ d < probe,
        s.cells ((s₀.home cfg newSlot + d) % cfg.nCells) ≠ none) →
      (robinLoop cfg fuel carry probe cell).Sat Released Keeps (RobinPost cfg s₀ newSlot) s := by
  induction fuel with
  | zero =>
    intro carry probe cell e s _ _ _ _ hfuel
    omega
  | succ fuel ih =>
    intro carry probe cell e s h hc hprobe hroom hfuel hgap hfull hahead hwindow
    rw [robinLoop]
    split
    · rename_i hmax
      exact ⟨h, fun heq d hd => hwindow heq d (by omega)⟩
    · rename_i hmax
      push Not at hmax
      have hd : dist cfg.nCells cell (s₀.home cfg carry) ≤ cfg.maxProbe := hprobe ▸ hmax
      have hcell0 : (cell + 0) % cfg.nCells = cell := by rw [Nat.add_zero, Nat.mod_eq_of_lt hc]
      intro s₁ hr₁
      have h₁ := h.released hr₁
      have hcells₁ : s₁.cells = s.cells := by
        obtain ⟨rc, -, rfl⟩ := hr₁
        rfl
      rw [← hcells₁] at hgap hfull hahead hwindow
      refine ⟨Keeps.refl _, ?_⟩
      dsimp only [id_eq]
      split
      · -- the empty cell is reached
        rename_i hempty
        intro s₂ hr₂
        have h₂ := h₁.released hr₂
        obtain ⟨rc₂, hle₂, rfl⟩ := hr₂
        refine ⟨Keeps.setCell (fun i hi => ?_) (fun i hi hmem => ?_), h₂.take_empty hc hempty hd⟩
        · rw [show _ = s₁.cells cell from rfl, hempty] at hi
          cases hi
        · obtain rfl := Option.some.inj hi
          exact h₂.carry_unpinned hnew hmem
      · rename_i incumbent hinc
        have he : e ≠ 0 := by
          rintro rfl
          rw [hcell0, hinc] at hgap
          cases hgap
        obtain ⟨e, rfl⟩ := Nat.exists_eq_succ_of_ne_zero he
        have hnext := next_lt cfg.nCells_pos cell
        -- the first empty cell is one cell closer from the next one
        have hgap' : s₁.cells ((next cfg.nCells cell + e) % cfg.nCells) = none := by
          rw [next_add]
          exact hgap
        have hfull' : ∀ t < e, s₁.cells ((next cfg.nCells cell + t) % cfg.nCells) ≠ none := by
          intro t ht
          rw [next_add]
          exact hfull (t + 1) (by omega)
        have hahead' : ∀ t ≤ e, s₁.cells ((next cfg.nCells cell + t) % cfg.nCells) ≠ some newSlot := by
          intro t ht
          rw [next_add]
          exact hahead (t + 1) (by omega)
        split
        · -- the incumbent is carried on
          rename_i hswap
          have hne : incumbent ≠ newSlot := by
            rintro rfl
            refine hahead 0 (Nat.zero_le _) ?_
            rw [hcell0, hinc]
          have hdist : s₁.probeDist cfg cell incumbent =
              dist cfg.nCells cell (s₀.home cfg incumbent) := by
            rw [Lru.probeDist, h₁.home_eq]
          intro s₂ hr₂
          have h₂ := h₁.released hr₂
          obtain ⟨rc₂, hle₂, rfl⟩ := hr₂
          have hrc : rc₂ incumbent = 0 := Nat.le_zero.mp (hswap.1 ▸ hle₂ incumbent)
          refine ⟨Keeps.setCell (fun i hi => ?_) (fun i hi hmem => ?_), ?_⟩
          · obtain rfl := Option.some.inj (hinc.symm.trans hi)
            exact hrc
          · obtain rfl := Option.some.inj hi
            exact h₂.carry_unpinned hnew hmem
          · have hoff : ∀ t ≤ e, update s₁.cells cell (some carry)
                ((next cfg.nCells cell + t) % cfg.nCells) =
                s₁.cells ((next cfg.nCells cell + t) % cfg.nCells) := by
              intro t ht
              rw [next_add, update_of_ne (add_mod_ne hc (by omega) (by omega))]
            refine ih (e := e) (h₂.take_cell hinc hne hrc hd) hnext ?_ (by omega) (by omega) ?_ ?_ ?_
              (fun heq => (hne heq).elim)
            · rw [hdist, dist_next hc (RobinState.home_lt cfg s₀ incumbent) (by omega)]
            · exact (hoff e le_rfl).trans hgap'
            · exact fun t ht => ne_of_eq_of_ne (hoff t ht.le) (hfull' t ht)
            · exact fun t ht => ne_of_eq_of_ne (hoff t ht) (hahead' t ht)
        · refine ih h₁ hnext ?_ (by omega) (by omega) hgap' hfull' hahead' ?_
          · rw [dist_next hc (RobinState.home_lt cfg s₀ carry) (by omega), hprobe]
          · intro heq d hlt
            rcases Nat.lt_succ_iff_lt_or_eq.mp hlt with hlt | rfl
            · exact hwindow heq d hlt
            · subst heq
              rw [hprobe, add_dist hc (RobinState.home_lt cfg s₀ carry), hinc]
              exact Option.some_ne_none _

theorem indexInsertRobin_sat (hnew : newSlot ∉ s₀.order)
    (hindex : IsIndex cfg.nCells cfg.maxProbe (s₀.home cfg) s₀.cells {i | i ∈ s₀.order})
    (hlen : s₀.order.length < cfg.nCells) :
    (indexInsertRobin cfg newSlot).Sat Released Keeps (RobinPost cfg s₀ newSlot) s₀ := by
  have hhome := RobinState.home_lt cfg s₀ newSlot
  obtain ⟨e, he, hgap, hfull⟩ := exists_gap (hindex.exists_empty (fun _ hi => hi) hlen) hhome
  intro s hr
  refine ⟨Keeps.refl _, ?_⟩
  obtain ⟨rc, hle, rfl⟩ := hr
  have hset : insert newSlot {i | i ∈ s₀.order} \ {newSlot} = {i | i ∈ s₀.order} := by
    rw [Set.insert_sdiff_of_mem _ (Set.mem_singleton newSlot)]
    exact Set.sdiff_singleton_eq_self (s := {i | i ∈ s₀.order}) hnew
  refine robinLoop_sat hnew _ (e := e) ⟨rfl, hle, ?_, .inl rfl, fun _ => rfl, fun h => (h rfl).elim⟩
    hhome (dist_self hhome).symm (by omega) (by omega) hgap hfull ?_ ?_
  · rw [hset]
    exact hindex
  · intro t _ hcell
    exact hnew (hindex.mem hcell)
  · intro _ d hd
    omega

end Robin

/-! ## Erasure -/

section Erase

variable {cfg : LruConfig} {s₀ s : Lru V} {live : Set ℕ}

/-- What `index_erase` ends with: the slots of `live` are stored, and nothing else has changed. -/
structure ErasePost (cfg : LruConfig) (s₀ : Lru V) (live : Set ℕ) (s : Lru V) : Prop where
  frame : s = { s₀ with refcount := s.refcount, cells := s.cells }
  refcount_le : ∀ i, s.refcount i ≤ s₀.refcount i
  index : IsIndex cfg.nCells cfg.maxProbe (s₀.home cfg) s.cells live

theorem ErasePost.released {s' : Lru V} (h : ErasePost cfg s₀ live s) (hr : Released s s') :
    ErasePost cfg s₀ live s' := by
  obtain ⟨rc, hle, rfl⟩ := hr
  refine ⟨?_, fun i => (hle i).trans (h.refcount_le i), h.index⟩
  conv_lhs => rw [h.frame]

/-- **The backshift** closes the hole at `cell`. `e + 1` is the number of cells from the hole to an
empty one. -/
theorem eraseLoop_sat (fuel : ℕ) :
    ∀ {cell e : ℕ} {s : Lru V}, ErasePost cfg s₀ live (s.setCell cell none) → cell < cfg.nCells →
      (∀ i, s.cells cell = some i → s.refcount i = 0) → e + 1 < cfg.nCells → e < fuel →
      s.cells ((cell + (e + 1)) % cfg.nCells) = none →
      (eraseLoop cfg fuel cell).Sat Released Keeps
        (fun ended s => ended = true ∧ ErasePost cfg s₀ live s) s := by
  induction fuel with
  | zero =>
    intro cell e s _ _ _ _ hfuel
    omega
  | succ fuel ih =>
    intro cell e s h hc hhole he hfuel hgap
    rw [eraseLoop]
    intro s₁ hr₁
    obtain ⟨rc₁, hle₁, rfl⟩ := hr₁
    refine ⟨Keeps.refl _, ?_⟩
    have hhole₁ : ∀ i, s.cells cell = some i → rc₁ i = 0 :=
      fun i hi => Nat.le_zero.mp (hhole i hi ▸ hle₁ i)
    have h₁ : ErasePost cfg s₀ live ({ s with refcount := rc₁ }.setCell cell none) :=
      h.released ⟨rc₁, hle₁, rfl⟩
    -- the walk ends by emptying the hole
    have hstop : (Prog.act (Lru.setCell cell none) fun _ => .done true).Sat Released Keeps
        (fun ended s => ended = true ∧ ErasePost cfg s₀ live s) { s with refcount := rc₁ } := by
      intro s₂ hr₂
      obtain ⟨rc₂, hle₂, rfl⟩ := hr₂
      refine ⟨Keeps.setCell (fun i hi => ?_) (fun i hi => by cases hi), rfl, ?_⟩
      · exact Nat.le_zero.mp (hhole₁ i hi ▸ hle₂ i)
      · exact h₁.released ⟨rc₂, hle₂, rfl⟩
    dsimp only
    split
    · exact hstop
    · rename_i nextSlot hslot
      split
      · exact hstop
      · rename_i hmove
        push Not at hmove
        obtain ⟨hunpinned, haway⟩ := hmove
        intro s₂ hr₂
        obtain ⟨rc₂, hle₂, rfl⟩ := hr₂
        have h₂ : ErasePost cfg s₀ live ({ s with refcount := rc₂ }.setCell cell none) :=
          h₁.released ⟨rc₂, hle₂, rfl⟩
        have hrc : rc₂ nextSlot = 0 := by
          have : rc₂ nextSlot ≤ rc₁ nextSlot := hle₂ nextSlot
          have : rc₁ nextSlot ≤ 0 := hunpinned
          omega
        refine ⟨Keeps.setCell (fun i hi => ?_) (fun i hi _ => ?_), ?_⟩
        · exact Nat.le_zero.mp (hhole₁ i hi ▸ hle₂ i)
        · obtain rfl := Option.some.inj (hslot.symm.trans hi)
          exact hrc
        · have hn := cfg.two_le_nCells
          have hnc : next cfg.nCells cell ≠ cell := next_ne hc hn
          have hhome : s.home cfg = s₀.home cfg := by
            rw [show s.home cfg = (s.setCell cell none).home cfg from rfl, h.frame]
            rfl
          have hd : dist cfg.nCells (next cfg.nCells cell) (s₀.home cfg nextSlot) ≠ 0 := by
            rw [← hhome]
            exact haway
          have hpos : e ≠ 0 := by
            rintro rfl
            rw [show (cell + (0 + 1)) % cfg.nCells = next cfg.nCells cell from rfl, hslot] at hgap
            cases hgap
          obtain ⟨e, rfl⟩ := Nat.exists_eq_succ_of_ne_zero hpos
          refine ih (e := e) ⟨?_, h₂.refcount_le, ?_⟩ (next_lt cfg.nCells_pos cell) ?_ (by omega)
            (by omega) ?_
          · exact congrArg (fun t : Lru V => { t with
              refcount := rc₂
              cells := update (update s.cells cell (s.cells (next cfg.nCells cell)))
                (next cfg.nCells cell) none }) h.frame
          · have hshift := h₂.index.shift hn hc (RobinState.home_lt cfg s₀ nextSlot) hslot hd
            rw [← hslot] at hshift
            exact hshift
          · intro i hi
            have hkept : update s.cells cell (s.cells (next cfg.nCells cell)) (next cfg.nCells cell) =
                some nextSlot := by rw [update_of_ne hnc, hslot]
            obtain rfl := Option.some.inj (hkept.symm.trans hi)
            exact hrc
          · show update s.cells cell _ _ = none
            rw [next_add, update_of_ne (add_mod_ne hc (by omega) (by omega))]
            exact hgap

theorem indexErase_sat {cell slot : ℕ}
    (hindex : IsIndex cfg.nCells cfg.maxProbe (s.home cfg) s.cells {i | i ∈ s.order})
    (hlen : s.order.length < cfg.nCells) (hcell : s.cells cell = some slot)
    (hunpinned : s.refcount slot = 0) :
    (indexErase cfg cell).Sat Released Keeps
      (fun ended s' => ended = true ∧ ErasePost cfg s ({i | i ∈ s.order} \ {slot}) s') s := by
  have hc := hindex.lt hcell
  obtain ⟨e, he, hgap, -⟩ := exists_gap (hindex.exists_empty (fun _ hi => hi) hlen) hc
  have hpos : e ≠ 0 := by
    rintro rfl
    rw [Nat.add_zero, Nat.mod_eq_of_lt hc, hcell] at hgap
    cases hgap
  obtain ⟨e, rfl⟩ := Nat.exists_eq_succ_of_ne_zero hpos
  refine eraseLoop_sat _ (e := e) ⟨rfl, fun _ => le_rfl, hindex.clear hcell⟩ hc ?_ he (by omega) hgap
  intro i hi
  obtain rfl := Option.some.inj (hcell.symm.trans hi)
  exact hunpinned

end Erase

/-! ## Lookup -/

section Find

variable {cfg : LruConfig} {test : ℕ → Bool}

theorem probeFind_eq_some (probes : ℕ) :
    ∀ {cell c : ℕ}, cell < cfg.nCells → probeFind cfg test probes cell = some c →
      ∃ d < probes, c = (cell + d) % cfg.nCells ∧ test c = true := by
  induction probes with
  | zero =>
    intro cell c _ h
    cases h
  | succ probes ih =>
    intro cell c hc h
    rw [probeFind] at h
    split at h
    · rename_i htest
      obtain rfl := Option.some.inj h
      exact ⟨0, Nat.succ_pos _, (Nat.mod_eq_of_lt hc).symm, htest⟩
    · obtain ⟨d, hd, rfl, htest⟩ := ih (next_lt cfg.nCells_pos cell) h
      exact ⟨d + 1, by omega, next_add, htest⟩

theorem probeFind_ne_none (probes : ℕ) :
    ∀ {cell d : ℕ}, cell < cfg.nCells → d < probes → test ((cell + d) % cfg.nCells) = true →
      probeFind cfg test probes cell ≠ none := by
  induction probes with
  | zero =>
    intro cell d _ hd
    omega
  | succ probes ih =>
    intro cell d hc hd htest
    rw [probeFind]
    split
    · exact Option.some_ne_none _
    · rename_i hnot
      cases d with
      | zero =>
        rw [Nat.add_zero, Nat.mod_eq_of_lt hc] at htest
        exact (hnot htest).elim
      | succ d =>
        refine ih (d := d) (next_lt cfg.nCells_pos cell) (by omega) ?_
        rw [next_add]
        exact htest

theorem indexSearch_eq_found {cell c : ℕ} (hc : cell < cfg.nCells)
    (h : indexSearch cfg test cell = .found c) :
    ∃ d ≤ cfg.maxProbe, c = (cell + d) % cfg.nCells ∧ test c = true := by
  rw [indexSearch] at h
  split at h
  · rename_i hfind
    cases h
    obtain ⟨d, hd, heq, htest⟩ := probeFind_eq_some _ hc hfind
    exact ⟨d, Nat.lt_succ_iff.mp hd, heq, htest⟩
  · split at h <;> cases h

theorem exists_indexSearch_eq_found (test : ℕ → Bool) {cell d : ℕ} (hc : cell < cfg.nCells)
    (hd : d ≤ cfg.maxProbe) (htest : test ((cell + d) % cfg.nCells) = true) :
    ∃ c, indexSearch cfg test cell = .found c := by
  obtain ⟨c, hfind⟩ := Option.ne_none_iff_exists'.mp
    (probeFind_ne_none _ hc (Nat.lt_succ_of_le hd) htest)
  exact ⟨c, by rw [indexSearch, hfind]⟩

theorem indexSearch_eq_diverged {cell : ℕ} (h : indexSearch cfg test cell = .diverged) :
    cfg.maxProbe = uint32Max := by
  rw [indexSearch] at h
  split at h
  · cases h
  · split at h
    · assumption
    · cases h

theorem indexLocate_eq {s : Lru V} {live : Set ℕ} {cell slot : ℕ}
    (hindex : IsIndex cfg.nCells cfg.maxProbe (s.home cfg) s.cells live)
    (hcell : s.cells cell = some slot) : indexLocate cfg s slot = .found cell := by
  have hhome := RobinState.home_lt cfg s slot
  obtain ⟨c, hc⟩ := exists_indexSearch_eq_found (fun cell => s.cells cell == some slot) hhome
    (hindex.dist_le hcell) (by
      rw [add_dist (hindex.lt hcell) hhome, hcell]
      exact beq_self_eq_true _)
  obtain ⟨d, -, -, htest⟩ := indexSearch_eq_found hhome hc
  rw [indexLocate, hc, hindex.inj hcell (eq_of_beq htest)]

end Find

end Damacy

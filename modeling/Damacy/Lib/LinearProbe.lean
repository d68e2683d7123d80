import Mathlib.Algebra.Order.Ring.Nat
import Mathlib.Algebra.Order.Sub.Basic
import Mathlib.Data.Nat.SuccPred

/-!
# Linear probing

An insertion-only hash table with open addressing: a cell holds `0` when it is empty and `i + 1`
when it refers to item `i`, and the bucket of an item is looked for from its home bucket on,
cell after cell, round the table. `Inv` says that every item can be reached from its home without
crossing an empty cell. While there are fewer items than cells the search ends, at the item that
matches or at an empty cell (`Inv.lookup`), and inserting there keeps the invariant
(`Inv.insert`).
-/

namespace LinearProbe

/-- The search loop: from `bucket`, move on until `stop`, for at most `fuel` moves. -/
def probe (next : ℕ → ℕ) (stop : ℕ → Bool) : (fuel bucket : ℕ) → ℕ
  | 0, bucket => bucket
  | fuel + 1, bucket => if stop bucket then bucket else probe next stop fuel (next bucket)

/-- The search for an item: stop at an empty cell or at an item that `isItem` accepts. -/
def stopAt (table : List ℕ) (isItem : ℕ → Bool) (bucket : ℕ) : Bool :=
  table.getD bucket 0 == 0 || isItem (table.getD bucket 0 - 1)

theorem probe_lt {m : ℕ} {next : ℕ → ℕ} (hnext : ∀ b, next b < m) {stop : ℕ → Bool}
    {fuel home : ℕ} (hhome : home < m) : probe next stop fuel home < m := by
  induction fuel generalizing home with
  | zero => exact hhome
  | succ fuel ih =>
    rw [probe]
    split
    · exact hhome
    · exact ih (hnext home)

theorem probe_spec {m : ℕ} {next : ℕ → ℕ} (hnext : ∀ b < m, next b = (b + 1) % m)
    {stop : ℕ → Bool} {fuel home k : ℕ} (hhome : home < m) (hk : k < fuel)
    (hstop : stop ((home + k) % m) = true) :
    ∃ j ≤ k, probe next stop fuel home = (home + j) % m ∧ stop ((home + j) % m) = true ∧
      ∀ i < j, stop ((home + i) % m) = false := by
  induction fuel generalizing home k with
  | zero => omega
  | succ fuel ih =>
    rw [probe]
    cases hs : stop home with
    | true =>
      refine ⟨0, Nat.zero_le _, ?_⟩
      simp [Nat.mod_eq_of_lt hhome, hs]
    | false =>
      have hk0 : k ≠ 0 := by
        rintro rfl
        rw [Nat.add_zero, Nat.mod_eq_of_lt hhome, hs] at hstop
        cases hstop
      -- shifting the start by one shifts the distances by one
      have hshift : ∀ i, (next home + i) % m = (home + (i + 1)) % m := by
        intro i
        rw [hnext home hhome, Nat.mod_add_mod, Nat.add_assoc, Nat.add_comm 1 i]
      have hlt : next home < m := by
        rw [hnext home hhome]
        exact Nat.mod_lt _ (by omega)
      obtain ⟨j, hj, hprobe, hj', hbefore⟩ := ih (k := k - 1) hlt (by omega) (by
        rw [hshift, Nat.sub_add_cancel (by omega)]
        exact hstop)
      refine ⟨j + 1, by omega, ?_, ?_, ?_⟩
      · simpa [hshift] using hprobe
      · rwa [hshift] at hj'
      · intro i hi
        cases i with
        | zero => simpa [Nat.mod_eq_of_lt hhome] using hs
        | succ i =>
          rw [← hshift]
          exact hbefore i (by omega)

/-- The invariant of a table of `m` cells whose items have the home buckets `homes`. -/
structure Inv (m : ℕ) (homes table : List ℕ) : Prop where
  length : table.length = m
  items : ∀ b v : ℕ, table[b]? = some (v + 1) → v < homes.length
  chain : ∀ i h : ℕ, homes[i]? = some h →
    ∃ k < m, table[(h + k) % m]? = some (i + 1) ∧ ∀ j < k, table[(h + j) % m]? ≠ some 0
  used : table.countP (· != 0) ≤ homes.length

theorem Inv.empty (m : ℕ) : Inv m [] (List.replicate m 0) where
  length := by simp
  items := by
    intro b v h
    rw [List.getElem?_replicate] at h
    split at h <;> simp at h
  chain := by simp
  used := by simp [List.countP_replicate]

variable {m : ℕ} {homes table : List ℕ}

theorem Inv.exists_empty (h : Inv m homes table) (hlt : homes.length < m) :
    ∃ b < m, table[b]? = some 0 := by
  by_contra hno
  push Not at hno
  have hall : table.countP (· != 0) = table.length := by
    rw [List.countP_eq_length]
    intro v hv
    obtain ⟨b, hb, rfl⟩ := List.getElem_of_mem hv
    have := hno b (h.length ▸ hb)
    simpa [List.getElem?_eq_getElem hb] using this
  have := h.used
  have := h.length
  omega

/-- Where the search for an item ends: the bucket is on the item's probe sequence, nothing before
it is empty, and it holds the item that is looked for or is empty, in which case there is none. -/
theorem Inv.lookup (h : Inv m homes table) (hlt : homes.length < m) {home : ℕ} (hhome : home < m)
    {next : ℕ → ℕ} (hnext : ∀ b < m, next b = (b + 1) % m) {isItem : ℕ → Bool}
    (hitem : ∀ i g : ℕ, homes[i]? = some g → isItem i = true → g = home) :
    ∃ k < m, probe next (stopAt table isItem) m home = (home + k) % m ∧
      (∀ j < k, table[(home + j) % m]? ≠ some 0) ∧
      ((table[(home + k) % m]? = some 0 ∧ ∀ i < homes.length, isItem i = false) ∨
        ∃ i < homes.length, table[(home + k) % m]? = some (i + 1) ∧ isItem i = true) := by
  have hm : 0 < m := by omega
  have hcell : ∀ b, b < m → ∃ v, table[b]? = some v := fun b hb =>
    ⟨_, List.getElem?_eq_getElem (h.length ▸ hb)⟩
  -- an empty cell is at some distance below `m`
  obtain ⟨b, hb, hb0⟩ := h.exists_empty hlt
  obtain ⟨d, hd, hdb⟩ : ∃ d < m, (home + d) % m = b := by
    rcases Nat.le_total home b with hle | hle
    · exact ⟨b - home, by omega, by rw [Nat.add_sub_cancel' hle, Nat.mod_eq_of_lt hb]⟩
    · rcases Nat.eq_or_lt_of_le hle with rfl | hlt'
      · exact ⟨0, hm, by simp [Nat.mod_eq_of_lt hb]⟩
      · refine ⟨b + m - home, by omega, ?_⟩
        rw [Nat.add_sub_cancel' (by omega), Nat.add_mod_right, Nat.mod_eq_of_lt hb]
  have hstop : stopAt table isItem ((home + d) % m) = true := by
    simp [stopAt, hdb, List.getD, hb0]
  obtain ⟨k, hk, hprobe, hkstop, hbefore⟩ := probe_spec hnext hhome hd hstop
  have hnonzero : ∀ j < k, table[(home + j) % m]? ≠ some 0 := by
    intro j hj h0
    have := hbefore j hj
    simp [stopAt, List.getD, h0] at this
  refine ⟨k, by omega, hprobe, hnonzero, ?_⟩
  obtain ⟨v, hv⟩ := hcell ((home + k) % m) (Nat.mod_lt _ hm)
  cases v with
  | succ v =>
    refine .inr ⟨v, h.items _ v hv, hv, ?_⟩
    simpa [stopAt, List.getD, hv] using hkstop
  | zero =>
    refine .inl ⟨hv, fun i hi => ?_⟩
    by_contra hitemi
    rw [Bool.not_eq_false] at hitemi
    -- a matching item would be reached before the empty cell
    obtain ⟨g, hg⟩ : ∃ g, homes[i]? = some g := ⟨_, List.getElem?_eq_getElem hi⟩
    obtain ⟨n, hn, hcelln, hchain⟩ := h.chain i g hg
    obtain rfl := hitem i g hg hitemi
    rcases Nat.lt_trichotomy n k with hnk | rfl | hkn
    · have := hbefore n hnk
      simp [stopAt, List.getD, hcelln, hitemi] at this
    · rw [hv] at hcelln
      cases hcelln
    · exact hchain k hkn hv

theorem Inv.insert (h : Inv m homes table) {home k : ℕ} (hk : k < m)
    (hbefore : ∀ j < k, table[(home + j) % m]? ≠ some 0)
    (hempty : table[(home + k) % m]? = some 0) :
    Inv m (homes ++ [home]) (table.set ((home + k) % m) (homes.length + 1)) := by
  have hm : 0 < m := by omega
  have hlt : (home + k) % m < table.length := by
    rw [h.length]
    exact Nat.mod_lt _ hm
  have hother : ∀ b, b ≠ (home + k) % m →
      (table.set ((home + k) % m) (homes.length + 1))[b]? = table[b]? := by
    intro b hb
    rw [List.getElem?_set, if_neg (Ne.symm hb)]
  have hself : (table.set ((home + k) % m) (homes.length + 1))[(home + k) % m]? =
      some (homes.length + 1) := by
    rw [List.getElem?_set, if_pos rfl, if_pos hlt]
  -- filling a cell never empties another one
  have hfill : ∀ b : ℕ, table[b]? ≠ some 0 →
      (table.set ((home + k) % m) (homes.length + 1))[b]? ≠ some 0 := by
    intro b hb
    by_cases hbe : b = (home + k) % m
    · rw [hbe, hself]
      simp
    · rwa [hother b hbe]
  refine ⟨by simp [h.length], ?_, ?_, ?_⟩
  · intro b v hv
    by_cases hb : b = (home + k) % m
    · rw [hb, hself] at hv
      simp at hv ⊢
      omega
    · have := h.items b v (hother b hb ▸ hv)
      simp
      omega
  · intro i g hi
    by_cases hil : i < homes.length
    · obtain ⟨n, hn, hcell, hchain⟩ := h.chain i g (by rwa [List.getElem?_append_left hil] at hi)
      refine ⟨n, hn, ?_, fun j hj => hfill _ (hchain j hj)⟩
      rw [hother _ (fun heq => ?_), hcell]
      rw [heq, hempty] at hcell
      cases hcell
    · obtain ⟨rfl, rfl⟩ : i = homes.length ∧ g = home := by
        rw [List.getElem?_append_right (by omega)] at hi
        have : i - homes.length = 0 := by
          by_contra hne
          rw [List.getElem?_eq_none (by simp; omega)] at hi
          cases hi
        rw [this] at hi
        simp at hi
        exact ⟨by omega, hi.symm⟩
      exact ⟨k, hk, hself, fun j hj => hfill _ (hbefore j hj)⟩
  · have hget : table[(home + k) % m] = 0 := by
      rw [List.getElem?_eq_getElem hlt] at hempty
      simpa using hempty
    have hset := List.countP_set (p := (· != 0)) (l := table) (i := (home + k) % m)
      (a := homes.length + 1) hlt
    have := h.used
    simp [hget] at hset
    simp
    omega

end LinearProbe

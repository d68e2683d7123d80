import Mathlib.Data.Finset.Card
import Mathlib.Data.Set.Insert
import Mathlib.Logic.Function.Basic
import Mathlib.Order.Nat
import Mathlib.Data.Nat.Find

/-!
# Open addressing

A table of `n` cells, each empty or with the number of an item. An item has a home cell and is
stored at most `maxProbe` cells after it, around the end of the table (`IsIndex`). The lemmas say
which single writes keep that: placing an item in an empty cell, taking the cell of another item,
clearing a cell, and moving an item one cell back into the hole left by an erased one. Nothing is
assumed of the cells between an item and its home, so some items may be held in place while others
move.
-/

namespace ProbeTable

variable {n : ℕ}

def dist (n cell home : ℕ) : ℕ := (cell + n - home) % n

def next (n cell : ℕ) : ℕ := (cell + 1) % n

theorem next_lt (hn : 0 < n) (cell : ℕ) : next n cell < n := Nat.mod_lt _ hn

theorem dist_lt (hn : 0 < n) (cell home : ℕ) : dist n cell home < n := Nat.mod_lt _ hn

theorem dist_eq {cell home : ℕ} (hc : cell < n) (hh : home < n) :
    dist n cell home = if home ≤ cell then cell - home else cell + n - home := by
  unfold dist
  split
  · rw [show cell + n - home = cell - home + n by omega, Nat.add_mod_right,
      Nat.mod_eq_of_lt (by omega)]
  · exact Nat.mod_eq_of_lt (by omega)

theorem next_eq {cell : ℕ} (hc : cell < n) : next n cell = if cell + 1 = n then 0 else cell + 1 := by
  unfold next
  split
  · rename_i h
    rw [h, Nat.mod_self]
  · exact Nat.mod_eq_of_lt (by omega)

theorem add_mod_eq {cell d : ℕ} (hc : cell < n) (hd : d < n) :
    (cell + d) % n = if cell + d < n then cell + d else cell + d - n := by
  split
  · exact Nat.mod_eq_of_lt ‹_›
  · rw [Nat.mod_eq_sub_mod (by omega), Nat.mod_eq_of_lt (by omega)]

@[simp] theorem dist_self {home : ℕ} (hh : home < n) : dist n home home = 0 := by
  rw [dist_eq hh hh, if_pos le_rfl, Nat.sub_self]

theorem dist_next {cell home : ℕ} (hc : cell < n) (hh : home < n) (h : dist n cell home + 1 < n) :
    dist n (next n cell) home = dist n cell home + 1 := by
  have hn : 0 < n := by omega
  rw [dist_eq hc hh] at h ⊢
  rw [dist_eq (next_lt hn cell) hh, next_eq hc]
  split_ifs at h ⊢ <;> omega

theorem dist_of_next {cell home : ℕ} (hc : cell < n) (hh : home < n)
    (h : dist n (next n cell) home ≠ 0) : dist n cell home + 1 = dist n (next n cell) home := by
  have hn : 0 < n := by omega
  rw [dist_eq (next_lt hn cell) hh, next_eq hc] at h ⊢
  rw [dist_eq hc hh]
  split_ifs at h ⊢ <;> omega

theorem add_dist {cell home : ℕ} (hc : cell < n) (hh : home < n) :
    (home + dist n cell home) % n = cell := by
  rw [add_mod_eq hh (dist_lt (by omega) _ _), dist_eq hc hh]
  split_ifs <;> omega

theorem next_add {cell d : ℕ} : (next n cell + d) % n = (cell + (d + 1)) % n := by
  rw [next, Nat.mod_add_mod, Nat.add_assoc, Nat.add_comm 1 d]

theorem next_ne {cell : ℕ} (hc : cell < n) (hn : 2 ≤ n) : next n cell ≠ cell := by
  rw [next_eq hc]
  split_ifs <;> omega

theorem add_mod_ne {cell d : ℕ} (hc : cell < n) (hpos : 0 < d) (hd : d < n) :
    (cell + d) % n ≠ cell := by
  rw [add_mod_eq hc hd]
  split_ifs <;> omega

/-- The table holds the items of `live`, each in one cell, near its home. -/
structure IsIndex (n maxProbe : ℕ) (home : ℕ → ℕ) (cells : ℕ → Option ℕ) (live : Set ℕ) : Prop where
  lt : ∀ {c i}, cells c = some i → c < n
  mem : ∀ {c i}, cells c = some i → i ∈ live
  inj : ∀ {c c' i}, cells c = some i → cells c' = some i → c = c'
  found : ∀ {i}, i ∈ live → ∃ c, cells c = some i
  dist_le : ∀ {c i}, cells c = some i → dist n c (home i) ≤ maxProbe

namespace IsIndex

open Function

variable {maxProbe : ℕ} {home : ℕ → ℕ} {cells : ℕ → Option ℕ} {live : Set ℕ} {c i j : ℕ}

theorem empty : IsIndex n maxProbe home (fun _ => none) ∅ := by
  constructor <;> simp

theorem congr_home {home' : ℕ → ℕ} (h : IsIndex n maxProbe home cells live)
    (hhome : ∀ i ∈ live, home' i = home i) : IsIndex n maxProbe home' cells live :=
  ⟨h.lt, h.mem, h.inj, h.found, fun hc => by rw [hhome _ (h.mem hc)]; exact h.dist_le hc⟩

theorem put (h : IsIndex n maxProbe home cells live) (hc : c < n) (hi : i ∉ live)
    (hd : dist n c (home i) ≤ maxProbe) :
    IsIndex n maxProbe home (update cells c (some i)) (insert i {j ∈ live | cells c ≠ some j}) := by
  have hne : ∀ {c' j}, c' ≠ c → update cells c (some i) c' = some j → cells c' = some j :=
    fun hcc hj => by rwa [update_of_ne hcc] at hj
  have hat : ∀ {j}, update cells c (some i) c = some j → j = i := fun hj => by
    rw [update_self] at hj
    exact (Option.some.inj hj).symm
  constructor
  case lt =>
    intro c' j hj
    by_cases hcc : c' = c
    · exact hcc ▸ hc
    · exact h.lt (hne hcc hj)
  case mem =>
    intro c' j hj
    by_cases hcc : c' = c
    · subst hcc
      exact .inl (hat hj)
    · have hj' := hne hcc hj
      exact .inr ⟨h.mem hj', fun hcj => hcc (h.inj hj' hcj)⟩
  case inj =>
    intro c1 c2 j h1 h2
    by_cases hc1 : c1 = c
    · subst hc1
      obtain rfl := hat h1
      by_contra hc2
      exact hi (h.mem (hne (Ne.symm hc2) h2))
    · by_cases hc2 : c2 = c
      · subst hc2
        obtain rfl := hat h2
        exact (hi (h.mem (hne hc1 h1))).elim
      · exact h.inj (hne hc1 h1) (hne hc2 h2)
  case found =>
    rintro j (rfl | ⟨hj, hcj⟩)
    · exact ⟨c, update_self _ _ _⟩
    · obtain ⟨c', hc'⟩ := h.found hj
      have hcc : c' ≠ c := fun heq => hcj (heq ▸ hc')
      exact ⟨c', by rw [update_of_ne hcc, hc']⟩
  case dist_le =>
    intro c' j hj
    by_cases hcc : c' = c
    · subst hcc
      rw [hat hj]
      exact hd
    · exact h.dist_le (hne hcc hj)

theorem place (h : IsIndex n maxProbe home cells live) (hc : c < n) (hempty : cells c = none)
    (hi : i ∉ live) (hd : dist n c (home i) ≤ maxProbe) :
    IsIndex n maxProbe home (update cells c (some i)) (insert i live) := by
  have := h.put hc hi hd
  rwa [show {j ∈ live | cells c ≠ some j} = live by simp [hempty]] at this

theorem swap (h : IsIndex n maxProbe home cells live) (hj : cells c = some j)
    (hi : i ∉ live) (hd : dist n c (home i) ≤ maxProbe) :
    IsIndex n maxProbe home (update cells c (some i)) (insert i (live \ {j})) := by
  have := h.put (h.lt hj) hi hd
  rwa [show {k ∈ live | cells c ≠ some k} = live \ {j} by
    ext k
    simp [hj, eq_comm]] at this

theorem clear (h : IsIndex n maxProbe home cells live) (hi : cells c = some i) :
    IsIndex n maxProbe home (update cells c none) (live \ {i}) := by
  have hne : ∀ {c' j}, update cells c none c' = some j → c' ≠ c ∧ cells c' = some j := by
    intro c' j hj
    by_cases hcc : c' = c
    · rw [hcc, update_self] at hj
      cases hj
    · exact ⟨hcc, by rwa [update_of_ne hcc] at hj⟩
  constructor
  case lt => exact fun hj => h.lt (hne hj).2
  case mem =>
    intro c' j hj
    obtain ⟨hcc, hj'⟩ := hne hj
    refine ⟨h.mem hj', ?_⟩
    rintro rfl
    exact hcc (h.inj hj' hi)
  case inj => exact fun h1 h2 => h.inj (hne h1).2 (hne h2).2
  case found =>
    rintro j ⟨hj, hji⟩
    obtain ⟨c', hc'⟩ := h.found hj
    refine ⟨c', ?_⟩
    rw [update_of_ne, hc']
    rintro rfl
    exact hji (Option.some.inj (hc'.symm.trans hi))
  case dist_le => exact fun hj => h.dist_le (hne hj).2

theorem shift (h : IsIndex n maxProbe home (update cells c none) live) (hn : 2 ≤ n) (hc : c < n)
    (hhome : home i < n) (hi : cells (next n c) = some i) (hd : dist n (next n c) (home i) ≠ 0) :
    IsIndex n maxProbe home (update (update cells c (some i)) (next n c) none) live := by
  have hnc : next n c ≠ c := next_ne hc hn
  have hi' : update cells c none (next n c) = some i := by rw [update_of_ne hnc, hi]
  have hclear := h.clear hi'
  have hhole : update (update cells c none) (next n c) none c = none := by
    rw [update_of_ne (Ne.symm hnc), update_self]
  have hdist := dist_of_next hc hhome hd
  have hle := h.dist_le hi'
  have hput := hclear.place hc hhole (i := i) (fun hm => hm.2 rfl) (by omega)
  have hlive : insert i (live \ {i}) = live := by
    rw [Set.insert_sdiff_singleton, Set.insert_eq_of_mem (h.mem hi')]
  rw [hlive] at hput
  have hcells : update (update (update cells c none) (next n c) none) c (some i) =
      update (update cells c (some i)) (next n c) none := by
    rw [update_comm hnc, update_idem]
  rwa [hcells] at hput

theorem exists_empty (h : IsIndex n maxProbe home cells live) {l : List ℕ} (hl : ∀ i ∈ live, i ∈ l)
    (hlen : l.length < n) : ∃ c < n, cells c = none := by
  by_contra hno
  push Not at hno
  have hcard : (Finset.range n).card ≤ l.toFinset.card := by
    refine Finset.card_le_card_of_injOn (fun c => (cells c).getD 0) ?_ ?_
    · intro c hc
      obtain ⟨i, hi⟩ := Option.ne_none_iff_exists'.mp (hno c (Finset.mem_range.mp hc))
      simp only [hi, Option.getD_some, Finset.mem_coe, List.mem_toFinset]
      exact hl i (h.mem hi)
    · intro c hc c' hc' heq
      obtain ⟨i, hi⟩ := Option.ne_none_iff_exists'.mp (hno c (Finset.mem_range.mp hc))
      obtain ⟨i', hi'⟩ := Option.ne_none_iff_exists'.mp (hno c' (Finset.mem_range.mp hc'))
      simp only [hi, hi', Option.getD_some] at heq
      subst heq
      exact h.inj hi hi'
  have := l.toFinset_card_le
  rw [Finset.card_range] at hcard
  omega

end IsIndex

theorem exists_gap {ι : Type*} {cells : ℕ → Option ι} (hempty : ∃ c < n, cells c = none) {start : ℕ}
    (hs : start < n) : ∃ e < n, cells ((start + e) % n) = none ∧
      ∀ t < e, cells ((start + t) % n) ≠ none := by
  obtain ⟨c, hc, hnone⟩ := hempty
  have hex : ∃ e, cells ((start + e) % n) = none := ⟨dist n c start, by rw [add_dist hc hs, hnone]⟩
  classical
  refine ⟨Nat.find hex, ?_, Nat.find_spec hex, fun t ht => Nat.find_min hex ht⟩
  refine (Nat.find_min' hex ?_).trans_lt (dist_lt (by omega) c start)
  rw [add_dist hc hs, hnone]

end ProbeTable

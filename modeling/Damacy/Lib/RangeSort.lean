import Mathlib.Data.List.Nodup
import Mathlib.Order.Lattice

/-!
# Sorting a range in place

What a step of an in-place sort may do to a list: rearrange the entries of a range and leave the
others alone. Two sorted ranges with a pivot between them make a sorted range, and a rearrangement of
a range keeps what is known about all of its entries. Ranges are half open; positions outside of the
list read as a default.
-/

namespace RangeSort

variable {α κ : Type*} {d : α} {lo mid hi : ℕ} {xs ys zs : List α}

/-! ## Rearrangements -/

/-- The entries of a range in another order, the others where they were. -/
structure Rearranges (d : α) (lo hi : ℕ) (xs ys : List α) : Prop where
  perm : ys.Perm xs
  outside : ∀ k, k < lo ∨ hi ≤ k → ys.getD k d = xs.getD k d
  inside : ∀ k, lo ≤ k → k < hi → ∃ l, lo ≤ l ∧ l < hi ∧ ys.getD k d = xs.getD l d

theorem Rearranges.refl (d : α) (lo hi : ℕ) (xs : List α) : Rearranges d lo hi xs xs :=
  ⟨.refl xs, fun _ _ => rfl, fun k hlo hhi => ⟨k, hlo, hhi, rfl⟩⟩

theorem Rearranges.trans (h : Rearranges d lo hi xs ys) (h' : Rearranges d lo hi ys zs) :
    Rearranges d lo hi xs zs := by
  refine ⟨h'.perm.trans h.perm, fun k hk => (h'.outside k hk).trans (h.outside k hk), ?_⟩
  intro k hlo hhi
  obtain ⟨l, hlo, hhi, hl⟩ := h'.inside k hlo hhi
  obtain ⟨m, hlo, hhi, hm⟩ := h.inside l hlo hhi
  exact ⟨m, hlo, hhi, hl.trans hm⟩

theorem Rearranges.length_eq (h : Rearranges d lo hi xs ys) : ys.length = xs.length :=
  h.perm.length_eq

theorem Rearranges.widen {lo' hi' : ℕ} (h : Rearranges d lo hi xs ys) (hlo : lo' ≤ lo)
    (hhi : hi ≤ hi') : Rearranges d lo' hi' xs ys := by
  refine ⟨h.perm, fun k hk => h.outside k (by omega), fun k hk hk' => ?_⟩
  by_cases hin : lo ≤ k ∧ k < hi
  · obtain ⟨l, hl, hl', heq⟩ := h.inside k hin.1 hin.2
    exact ⟨l, by omega, by omega, heq⟩
  · exact ⟨k, hk, hk', h.outside k (by omega)⟩

theorem Rearranges.forall_inside (h : Rearranges d lo hi xs ys) (P : α → Prop)
    (hP : ∀ k, lo ≤ k → k < hi → P (xs.getD k d)) : ∀ k, lo ≤ k → k < hi → P (ys.getD k d) := by
  intro k hlo hhi
  obtain ⟨l, hlo, hhi, heq⟩ := h.inside k hlo hhi
  exact heq ▸ hP l hlo hhi

/-! ## Exchanges -/

def exchange (d : α) (xs : List α) (i j : ℕ) : List α := (xs.set i (xs.getD j d)).set j (xs.getD i d)

section Exchange

variable {i j : ℕ}

theorem getD_set {k : ℕ} (hi : i < xs.length) (v : α) :
    (xs.set i v).getD k d = if k = i then v else xs.getD k d := by
  by_cases hk : k = i
  · subst hk
    simp [List.getD, hi]
  · rw [if_neg hk, List.getD, List.getD, List.getElem?_set_ne (Ne.symm hk)]

theorem getD_exchange (hi : i < xs.length) (hj : j < xs.length) (k : ℕ) :
    (exchange d xs i j).getD k d =
      if k = j then xs.getD i d else if k = i then xs.getD j d else xs.getD k d := by
  rw [exchange, getD_set (by simpa using hj), getD_set hi]

theorem exchange_perm (hi : i < xs.length) (hj : j < xs.length) : (exchange d xs i j).Perm xs := by
  have hgi : xs.getD i d = xs[i] := by simp [List.getD, hi]
  have hgj : xs.getD j d = xs[j] := by simp [List.getD, hj]
  rw [exchange, hgi, hgj]
  exact List.set_set_perm hi hj

theorem Rearranges.exchange (hlo : lo ≤ i ∧ lo ≤ j) (hhi : i < hi ∧ j < hi) (hlen : hi ≤ xs.length) :
    Rearranges d lo hi xs (exchange d xs i j) := by
  have hi : i < xs.length := by omega
  have hj : j < xs.length := by omega
  refine ⟨exchange_perm hi hj, fun k hk => ?_, fun k hk hk' => ?_⟩
  · rw [getD_exchange hi hj, if_neg (by omega), if_neg (by omega)]
  · rw [getD_exchange hi hj]
    split_ifs
    · exact ⟨i, hlo.1, hhi.1, rfl⟩
    · exact ⟨j, hlo.2, hhi.2, rfl⟩
    · exact ⟨k, hk, hk', rfl⟩

end Exchange

/-! ## Sorted ranges -/

variable [LinearOrder κ] {key : α → κ}

def SortedOn (key : α → κ) (d : α) (lo hi : ℕ) (xs : List α) : Prop :=
  ∀ a b, lo ≤ a → a ≤ b → b < hi → key (xs.getD a d) ≤ key (xs.getD b d)

theorem SortedOn.of_le (h : hi ≤ lo + 1) : SortedOn key d lo hi xs := by
  intro a b hlo hab hhi
  obtain rfl : a = b := by omega
  exact le_rfl

/-- The entries before a position are at most as large as the one at it, and those behind it at
least. -/
structure Partitioned (key : α → κ) (d : α) (lo mid hi : ℕ) (xs : List α) : Prop where
  lo_le : lo ≤ mid
  lt_hi : mid < hi
  left : ∀ k, lo ≤ k → k < mid → key (xs.getD k d) ≤ key (xs.getD mid d)
  right : ∀ k, mid + 1 ≤ k → k < hi → key (xs.getD mid d) ≤ key (xs.getD k d)

structure Sorts (key : α → κ) (d : α) (lo hi : ℕ) (xs ys : List α) : Prop
    extends Rearranges d lo hi xs ys where
  sorted : SortedOn key d lo hi ys

theorem Sorts.of_le (h : hi ≤ lo + 1) (xs : List α) : Sorts key d lo hi xs xs :=
  ⟨.refl d lo hi xs, .of_le h⟩

theorem Partitioned.sortedOn (h : Partitioned key d lo mid hi xs) (hleft : SortedOn key d lo mid xs)
    (hright : SortedOn key d (mid + 1) hi xs) : SortedOn key d lo hi xs := by
  have hbelow (a : ℕ) (hlo : lo ≤ a) (ha : a ≤ mid) : key (xs.getD a d) ≤ key (xs.getD mid d) := by
    rcases Nat.lt_or_eq_of_le ha with ha | rfl
    · exact h.left a hlo ha
    · exact le_rfl
  have habove (b : ℕ) (hb : mid ≤ b) (hhi : b < hi) : key (xs.getD mid d) ≤ key (xs.getD b d) := by
    rcases Nat.lt_or_eq_of_le hb with hb | rfl
    · exact h.right b hb hhi
    · exact le_rfl
  intro a b hlo hab hhi
  rcases Nat.lt_or_ge b mid with hb | hb
  · exact hleft a b hlo hab hb
  · rcases Nat.lt_or_ge mid a with ha | ha
    · exact hright a b ha hab hhi
    · exact (hbelow a hlo ha).trans (habove b hb hhi)

theorem Partitioned.rearranges_left (h : Partitioned key d lo mid hi xs)
    (hleft : Rearranges d lo mid xs ys) : Partitioned key d lo mid hi ys := by
  have hmid := hleft.outside mid (.inr le_rfl)
  refine ⟨h.lo_le, h.lt_hi, ?_, fun k hk hk' => ?_⟩
  · rw [hmid]
    exact hleft.forall_inside (key · ≤ key (xs.getD mid d)) h.left
  · rw [hmid, hleft.outside k (.inr (by omega))]
    exact h.right k hk hk'

theorem Partitioned.rearranges_right (h : Partitioned key d lo mid hi xs)
    (hright : Rearranges d (mid + 1) hi xs ys) : Partitioned key d lo mid hi ys := by
  have hmid := hright.outside mid (.inl (Nat.lt_succ_self mid))
  refine ⟨h.lo_le, h.lt_hi, fun k hk hk' => ?_, ?_⟩
  · rw [hmid, hright.outside k (.inl (by omega))]
    exact h.left k hk hk'
  · rw [hmid]
    exact hright.forall_inside (key (xs.getD mid d) ≤ key ·) h.right

theorem Partitioned.sorts_left_right (h : Partitioned key d lo mid hi xs)
    (hleft : Sorts key d lo mid xs ys) (hright : Sorts key d (mid + 1) hi ys zs) :
    Sorts key d lo hi xs zs := by
  have hys := h.rearranges_left hleft.toRearranges
  have hlt := h.lt_hi
  have hle := h.lo_le
  refine ⟨(hleft.widen le_rfl hlt.le).trans (hright.widen (by omega) le_rfl),
    (hys.rearranges_right hright.toRearranges).sortedOn (fun a b hlo hab hb => ?_) hright.sorted⟩
  rw [hright.outside a (.inl (by omega)), hright.outside b (.inl (by omega))]
  exact hleft.sorted a b hlo hab hb

theorem Partitioned.sorts_right_left (h : Partitioned key d lo mid hi xs)
    (hright : Sorts key d (mid + 1) hi xs ys) (hleft : Sorts key d lo mid ys zs) :
    Sorts key d lo hi xs zs := by
  have hys := h.rearranges_right hright.toRearranges
  have hlt := h.lt_hi
  have hle := h.lo_le
  refine ⟨(hright.widen (by omega) le_rfl).trans (hleft.widen le_rfl hlt.le),
    (hys.rearranges_left hleft.toRearranges).sortedOn hleft.sorted (fun a b hlo hab hb => ?_)⟩
  rw [hleft.outside a (.inr (by omega)), hleft.outside b (.inr (by omega))]
  exact hright.sorted a b hlo hab hb

theorem Sorts.pairwise (h : Sorts key d 0 xs.length xs ys) (hnodup : (xs.map key).Nodup) :
    ys.Pairwise fun a b => key a < key b := by
  have hlen := h.length_eq
  have hys : (ys.map key).Nodup := (h.perm.map key).nodup_iff.2 hnodup
  rw [List.pairwise_iff_getElem]
  intro i j hi hj hij
  have hle := h.sorted i j (Nat.zero_le i) hij.le (hlen ▸ hj)
  have hgi : ys.getD i d = ys[i] := by simp [List.getD, hi]
  have hgj : ys.getD j d = ys[j] := by simp [List.getD, hj]
  rw [hgi, hgj] at hle
  have hi' : i < (ys.map key).length := by simpa using hi
  have hj' : j < (ys.map key).length := by simpa using hj
  refine lt_of_le_of_ne hle fun heq => hij.ne ?_
  have heq' : (ys.map key)[i] = (ys.map key)[j] := by simpa using heq
  exact hys.getElem_inj_iff.1 heq'

end RangeSort

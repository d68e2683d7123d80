import Mathlib.Algebra.Order.Ring.Nat
import Mathlib.Data.List.Basic
import Mathlib.Data.Nat.SuccPred

/-!
# Counting sort

Elements with keys below `R` are sorted in three passes over an array of `R + 1` counters: count the
keys, add the counters up so that each is the start of its key's range, and store every element at
the counter of its key, which moves on. The result lists the elements key by key, each key's in
their old order (`scatterByKey_eq`), so the sort is stable and a rearrangement.
-/

open List

namespace CountingSort

variable {α : Type*} (key : α → ℕ)

def grouped (R : ℕ) (l : List α) : List α :=
  (List.range R).flatMap fun r => l.filter fun x => key x == r

/-- The number of elements with a key below `r`: where the range of key `r` starts. -/
def start (l : List α) (r : ℕ) : ℕ := l.countP fun x => decide (key x < r)

theorem start_zero (l : List α) : start key l 0 = 0 := by
  simp [start]

theorem start_succ (l : List α) (r : ℕ) :
    start key l (r + 1) = start key l r + (l.filter fun x => key x == r).length := by
  induction l with
  | nil => rfl
  | cons x l ih =>
    simp only [start, countP_cons, filter_cons, decide_eq_true_eq, beq_iff_eq] at ih ⊢
    rw [ih]
    rcases Nat.lt_trichotomy (key x) r with h | h | h
    · simp [h, Nat.lt_succ_of_lt h, h.ne]
      omega
    · simp [h]
      omega
    · simp [h.ne', Nat.not_lt_of_lt h, Nat.not_lt_of_le (Nat.succ_le_of_lt h)]

theorem start_eq_length {l : List α} {R : ℕ} (h : ∀ x ∈ l, key x < R) : start key l R = l.length := by
  rw [start, countP_eq_length]
  simpa using h

theorem grouped_succ (R : ℕ) (l : List α) :
    grouped key (R + 1) l = grouped key R l ++ l.filter fun x => key x == R := by
  simp [grouped, range_succ]

theorem length_grouped (R : ℕ) (l : List α) : (grouped key R l).length = start key l R := by
  induction R with
  | zero => simp [grouped, start_zero]
  | succ R ih => rw [grouped_succ, length_append, ih, start_succ]

theorem grouped_perm {R : ℕ} {l : List α} (h : ∀ x ∈ l, key x < R) : (grouped key R l).Perm l := by
  have hsplit : ∀ R, (grouped key R l).Perm (l.filter fun x => decide (key x < R)) := by
    intro R
    induction R with
    | zero => simp [grouped]
    | succ R ih =>
      rw [grouped_succ]
      refine (ih.append_right _).trans ?_
      -- the keys below `R + 1` are those below `R` and `R` itself
      have hperm := filter_append_perm (fun x => decide (key x < R))
        (l.filter fun x => decide (key x < R + 1))
      rw [filter_filter, filter_filter] at hperm
      refine List.Perm.trans (List.Perm.of_eq ?_) hperm
      congr 1
      · apply filter_congr
        intro x _
        by_cases hx : key x < R
        · simp [hx, Nat.lt_succ_of_lt hx]
        · simp [hx]
      · apply filter_congr
        intro x _
        rcases Nat.lt_trichotomy (key x) R with hx | hx | hx
        · simp [hx, hx.ne]
        · simp [hx]
        · simp [hx.ne', Nat.not_lt_of_le (Nat.succ_le_of_lt hx)]
  refine (hsplit R).trans (List.Perm.of_eq ?_)
  rw [filter_eq_self]
  simpa using h

theorem grouped_split {R r : ℕ} (hr : r < R) (l : List α) :
    ∃ tail, grouped key R l = grouped key r l ++ (l.filter (fun x => key x == r) ++ tail) := by
  obtain ⟨n, rfl⟩ := Nat.exists_eq_add_of_lt hr
  refine ⟨(List.range n).flatMap fun q => l.filter fun x => key x == r + 1 + q, ?_⟩
  rw [grouped, show r + n + 1 = r + 1 + n by omega, range_add, flatMap_append,
    range_succ, flatMap_append, flatMap_singleton, flatMap_map,
    append_assoc]
  rfl

theorem grouped_getElem? {R r : ℕ} (hr : r < R) (l : List α) {j : ℕ}
    (hj : j < (l.filter fun x => key x == r).length) :
    (grouped key R l)[start key l r + j]? = (l.filter fun x => key x == r)[j]? := by
  obtain ⟨tail, hsplit⟩ := grouped_split key hr l
  rw [hsplit, getElem?_append_right (by rw [length_grouped]; omega), length_grouped,
    Nat.add_sub_cancel_left, getElem?_append_left hj]

theorem grouped_range {R r : ℕ} (hr : r < R) (l : List α) :
    ((grouped key R l).drop (start key l r)).take (start key l (r + 1) - start key l r) =
      l.filter fun x => key x == r := by
  obtain ⟨tail, hsplit⟩ := grouped_split key hr l
  rw [hsplit, ← length_grouped key r l, drop_left, length_grouped, start_succ,
    Nat.add_sub_cancel_left, take_left]

theorem filter_grouped (R : ℕ) (l : List α) (r : ℕ) :
    (grouped key R l).filter (fun x => key x == r) =
      if r < R then l.filter fun x => key x == r else [] := by
  induction R with
  | zero => simp [grouped]
  | succ R ih =>
    rw [grouped_succ, filter_append, ih, filter_filter]
    by_cases hrR : r = R
    · simp [hrR]
    · have hnil : l.filter (fun x => key x == r && key x == R) = [] := by
        rw [filter_eq_nil_iff]
        simp only [Bool.and_eq_true, beq_iff_eq]
        omega
      rw [hnil, append_nil]
      exact if_congr (by omega) rfl rfl

theorem pairwise_grouped (R : ℕ) (l : List α) :
    (grouped key R l).Pairwise fun x y => key x ≤ key y := by
  have hkey : ∀ r, ∀ x ∈ l.filter (fun x => key x == r), key x = r := fun r x hx =>
    eq_of_beq (mem_filter.mp hx).2
  rw [grouped, pairwise_flatMap]
  constructor
  · intro r _
    rw [pairwise_iff_forall_sublist]
    intro x y hxy
    rw [hkey r x (hxy.subset (by simp)), hkey r y (hxy.subset (by simp))]
  · refine pairwise_lt_range.imp fun {q r} hqr x hx y hy => ?_
    rw [hkey q x hx, hkey r y hy]
    exact hqr.le

/-! ## The passes -/

def countKeys (R : ℕ) (l : List α) : List ℕ :=
  l.foldl (fun head x => head.modify (key x + 1) (· + 1)) (List.replicate (R + 1) 0)

def addUp (R : ℕ) (head : List ℕ) : List ℕ :=
  (List.range' 1 R).foldl (fun head r => head.set r (head.getD r 0 + head.getD (r - 1) 0)) head

def scatterByKey (head : List ℕ) (scratch : List α) (l : List α) : List ℕ × List α :=
  l.foldl (fun s x =>
    (s.1.modify (key x) (· + 1), s.2.set (s.1.getD (key x) 0) x)) (head, scratch)

theorem foldl_count_getElem? (l : List α) (head : List ℕ) (q : ℕ) :
    (l.foldl (fun head x => head.modify (key x + 1) (· + 1)) head)[q]? =
      head[q]?.map (· + (l.filter fun x => key x + 1 == q).length) := by
  induction l generalizing head with
  | nil => simp
  | cons x l ih =>
    rw [foldl_cons, ih, getElem?_modify]
    by_cases hq : key x + 1 = q
    · cases head[q]? with
      | none => simp
      | some n => simp [hq, Nat.add_assoc, Nat.add_comm 1]
    · cases head[q]? with
      | none => simp
      | some n => simp [hq]

theorem countKeys_getElem? {R r : ℕ} (hr : r < R) (l : List α) :
    (countKeys key R l)[r + 1]? = some (l.filter fun x => key x == r).length := by
  rw [countKeys, foldl_count_getElem?, getElem?_replicate_of_lt (by omega), Option.map_some,
    Nat.zero_add]
  simp

theorem countKeys_zero (R : ℕ) (l : List α) : (countKeys key R l)[0]? = some 0 := by
  rw [countKeys, foldl_count_getElem?, getElem?_replicate_of_lt (by omega)]
  simp

theorem addUp_countKeys {R r : ℕ} (hr : r ≤ R) (l : List α) :
    (addUp R (countKeys key R l))[r]? = some (start key l r) := by
  -- the first `m` rounds have finished the counters up to `m` and not touched the others
  have hrounds : ∀ m ≤ R, ∀ q ≤ R, ((List.range' 1 m).foldl
      (fun head r => head.set r (head.getD r 0 + head.getD (r - 1) 0)) (countKeys key R l))[q]? =
      if q ≤ m then some (start key l q) else (countKeys key R l)[q]? := by
    intro m
    induction m with
    | zero =>
      intro _ q _
      by_cases hq : q ≤ 0
      · obtain rfl : q = 0 := by omega
        simp [countKeys_zero, start_zero]
      · simp [hq]
    | succ m ih =>
      intro hm q hq
      rw [List.range'_concat, foldl_append, foldl_cons, foldl_nil, Nat.one_mul,
        Nat.add_comm 1 m]
      set head := (List.range' 1 m).foldl
        (fun head r => head.set r (head.getD r 0 + head.getD (r - 1) 0)) (countKeys key R l)
      have hprev : head[m]? = some (start key l m) := by
        rw [ih (by omega) m (by omega), if_pos le_rfl]
      have hthis : head[m + 1]? = some (l.filter fun x => key x == m).length := by
        rw [ih (by omega) (m + 1) hm, if_neg (by omega), countKeys_getElem? key (by omega)]
      have hlt : m + 1 < head.length := (List.getElem?_eq_some_iff.mp hthis).1
      rw [getElem?_set]
      by_cases hqm : m + 1 = q
      · subst hqm
        rw [if_pos rfl, if_pos hlt, if_pos le_rfl, start_succ]
        simp only [List.getD, hthis, Option.getD_some, Nat.add_sub_cancel, hprev, Nat.add_comm]
      · rw [if_neg hqm, ih (by omega) q hq]
        simp only [show q ≤ m ↔ q ≤ m + 1 by omega]
  exact (hrounds R le_rfl r hr).trans (if_pos hr)

theorem start_mono (l : List α) {q r : ℕ} (h : q ≤ r) : start key l q ≤ start key l r := by
  apply countP_mono_left
  intro x _ hx
  rw [decide_eq_true_eq] at hx ⊢
  omega

theorem exists_range {l : List α} {R i : ℕ} (hi : i < start key l R) :
    ∃ r < R, start key l r ≤ i ∧ i < start key l (r + 1) := by
  induction R with
  | zero => simp [start_zero] at hi
  | succ R ih =>
    by_cases hiR : i < start key l R
    · rcases ih hiR with ⟨r, hr, h⟩
      exact ⟨r, by omega, h⟩
    · exact ⟨R, by omega, by omega, hi⟩

/-- The state of the third pass after the elements of `done`, with those of `todo` to come. -/
structure Scattered (R : ℕ) (done todo : List α) (s : List ℕ × List α) : Prop where
  head : ∀ r < R, s.1[r]? =
    some (start key (done ++ todo) r + (done.filter fun x => key x == r).length)
  length : s.2.length = (done ++ todo).length
  stored : ∀ r < R, ∀ j < (done.filter fun x => key x == r).length,
    s.2[start key (done ++ todo) r + j]? = (done.filter fun x => key x == r)[j]?

theorem Scattered.step {R : ℕ} {done todo : List α} {x : α} {s : List ℕ × List α}
    (h : Scattered key R done (x :: todo) s) (hx : key x < R)
    (hkeys : ∀ y ∈ done ++ x :: todo, key y < R) :
    Scattered key R (done ++ [x]) todo
      (s.1.modify (key x) (· + 1), s.2.set (s.1.getD (key x) 0) x) := by
  have hlist : done ++ [x] ++ todo = done ++ x :: todo := by simp
  have hfilter : ∀ r, ((done ++ [x]).filter fun y => key y == r) =
      (done.filter fun y => key y == r) ++ if key x = r then [x] else [] := by
    intro r
    by_cases hr : key x = r <;> simp [filter_append, hr]
  set all := done ++ x :: todo with hall
  have hplace : s.1.getD (key x) 0 =
      start key all (key x) + (done.filter fun y => key y == key x).length := by
    rw [List.getD, h.head _ hx, Option.getD_some]
  -- the elements of a key that have been stored stay in the range of the key
  have hrange : ∀ r, (done.filter fun y => key y == r).length + (if key x = r then 1 else 0) ≤
      (all.filter fun y => key y == r).length := by
    intro r
    rw [hall, filter_append, length_append, filter_cons]
    by_cases hr : key x = r <;> simp [hr]
  have hplace_lt : s.1.getD (key x) 0 < s.2.length := by
    have h1 := hrange (key x)
    rw [if_pos rfl] at h1
    have h2 := start_mono key all (Nat.succ_le_of_lt hx)
    rw [start_succ, start_eq_length key hkeys] at h2
    rw [hplace, h.length, ← hall]
    omega
  refine ⟨?_, ?_, ?_⟩
  · intro r hr
    rw [hlist, hfilter, getElem?_modify, h.head r hr, ← hall]
    by_cases hxr : key x = r <;> simp [hxr, Nat.add_assoc]
  · rw [hlist, length_set, h.length]
  · intro r hr j hj
    rw [hlist]
    rw [hfilter] at hj ⊢
    have hold : j < (done.filter fun y => key y == r).length →
        (s.2.set (s.1.getD (key x) 0) x)[start key all r + j]? =
          (done.filter fun y => key y == r)[j]? := by
      intro hj
      rw [getElem?_set_ne, h.stored r hr j hj]
      rw [hplace]
      have hr1 := hrange r
      have hx1 := hrange (key x)
      rw [if_pos rfl] at hx1
      rcases Nat.lt_trichotomy (key x) r with hlt | heq | hgt
      · have := start_mono key all (Nat.succ_le_of_lt hlt)
        rw [start_succ] at this
        omega
      · rw [heq]
        omega
      · have := start_mono key all (Nat.succ_le_of_lt hgt)
        rw [start_succ] at this
        omega
    by_cases hxr : key x = r
    · rw [if_pos hxr, length_append, length_singleton] at hj
      rw [if_pos hxr]
      by_cases hjlt : j < (done.filter fun y => key y == r).length
      · rw [hold hjlt, getElem?_append_left hjlt]
      · obtain rfl : j = (done.filter fun y => key y == r).length := by omega
        rw [← hxr, ← hplace, getElem?_set_self hplace_lt, getElem?_concat_length]
    · rw [if_neg hxr, append_nil] at hj ⊢
      exact hold hj

/-- **Counting sort lists the elements key by key.** -/
theorem scatterByKey_eq {R : ℕ} {l scratch : List α} (hkeys : ∀ x ∈ l, key x < R)
    (hlen : scratch.length = l.length) :
    (scatterByKey key (addUp R (countKeys key R l)) scratch l).2 = grouped key R l := by
  have hrun : ∀ todo done s, Scattered key R done todo s → (∀ x ∈ done ++ todo, key x < R) →
      Scattered key R (done ++ todo) [] (todo.foldl (fun s x =>
        (s.1.modify (key x) (· + 1), s.2.set (s.1.getD (key x) 0) x)) s) := by
    intro todo
    induction todo with
    | nil =>
      intro done s h _
      rwa [append_nil]
    | cons x todo ih =>
      intro done s h hk
      have hstep := h.step key (hk x (by simp)) hk
      have hlist : done ++ [x] ++ todo = done ++ x :: todo := by simp
      rw [← hlist] at hk ⊢
      exact ih _ _ hstep hk
  have hinit : Scattered key R [] l (addUp R (countKeys key R l), scratch) :=
    ⟨fun r hr => by simp [addUp_countKeys key hr.le], hlen, fun r _ j hj => absurd hj (by simp)⟩
  have hfin := hrun l [] _ hinit hkeys
  rw [nil_append] at hfin
  have hlength : (scatterByKey key (addUp R (countKeys key R l)) scratch l).2.length = l.length := by
    have := hfin.length
    rwa [append_nil] at this
  have hgrouped := length_grouped key R l
  rw [start_eq_length key hkeys] at hgrouped
  apply ext_getElem?
  intro i
  by_cases hi : i < l.length
  · -- every place is in the range of some key
    rw [← start_eq_length key hkeys] at hi
    obtain ⟨r, hr, hlo, hhi⟩ := exists_range key hi
    rw [start_succ] at hhi
    obtain ⟨j, rfl⟩ := Nat.exists_eq_add_of_le hlo
    have hj : j < (l.filter fun x => key x == r).length := by omega
    have hst := hfin.stored r hr j hj
    rw [append_nil] at hst
    rw [grouped_getElem? key hr l hj]
    exact hst
  · rw [getElem?_eq_none (by omega), getElem?_eq_none (by omega)]

end CountingSort

import Mathlib.Algebra.Order.BigOperators.Group.List
import Mathlib.Algebra.Order.Ring.Nat
import Mathlib.Order.Lattice.Nat
import Damacy.Lib.BoxCount

/-!
# Taking turns

The places `0, …, n - 1` are cut into runs, given as half-open intervals. Round `r` visits the
`r`-th place of every run that has one. After as many rounds as the longest run has places, every
place has been visited once (`order_perm`), not before (`length_order_eq_iff`), and the places of an
earlier round come before those of a later one (`idxOf_lt_of_round`).
-/

open List

namespace RoundRobin

variable {rs : List (ℕ × ℕ)} {rounds r : ℕ}

/-- The runs that start at `starts` and end where the next one starts, the last one at `n`. -/
def runs (starts : List ℕ) (n : ℕ) : List (ℕ × ℕ) := starts.zip (starts.drop 1 ++ [n])

def places (run : ℕ × ℕ) : List ℕ := List.range' run.1 (run.2 - run.1)

def turn (rs : List (ℕ × ℕ)) (r : ℕ) : List ℕ :=
  rs.flatMap fun run => if run.1 + r < run.2 then [run.1 + r] else []

def order (rs : List (ℕ × ℕ)) (rounds : ℕ) : List ℕ := (List.range rounds).flatMap (turn rs)

theorem order_succ (rs : List (ℕ × ℕ)) (rounds : ℕ) :
    order rs (rounds + 1) = order rs rounds ++ turn rs rounds := by
  simp [order, range_succ]

theorem mem_turn {k : ℕ} : k ∈ turn rs r ↔ ∃ run ∈ rs, k = run.1 + r ∧ k < run.2 := by
  rw [turn, mem_flatMap]
  refine exists_congr fun run => and_congr_right fun _ => ?_
  split
  · rename_i hlt
    rw [mem_singleton]
    exact ⟨fun h => ⟨h, h ▸ hlt⟩, And.left⟩
  · rename_i hlt
    simp only [not_mem_nil, false_iff, not_and]
    rintro rfl
    exact hlt

theorem order_add (rs : List (ℕ × ℕ)) (rounds more : ℕ) : order rs (rounds + more) =
    order rs rounds ++ (List.range' rounds more).flatMap (turn rs) := by
  rw [order, order, ← flatMap_append, range_add, List.range'_eq_map_range]

theorem flatMap_turn_single (run : ℕ × ℕ) (rounds : ℕ) :
    ((List.range rounds).flatMap fun r => if run.1 + r < run.2 then [run.1 + r] else []) =
      List.range' run.1 (min rounds (run.2 - run.1)) := by
  induction rounds with
  | zero => simp
  | succ rounds ih =>
    rw [range_succ, flatMap_append, ih, flatMap_singleton]
    by_cases hlt : run.1 + rounds < run.2
    · have h1 : min rounds (run.2 - run.1) = rounds := by omega
      have h2 : min (rounds + 1) (run.2 - run.1) = rounds + 1 := by omega
      rw [if_pos hlt, h1, h2, List.range'_concat, Nat.one_mul]
    · have h1 : min (rounds + 1) (run.2 - run.1) = min rounds (run.2 - run.1) := by omega
      rw [if_neg hlt, h1, append_nil]

theorem order_perm (hlen : ∀ run ∈ rs, run.2 - run.1 ≤ rounds) :
    (order rs rounds).Perm (rs.flatMap places) := by
  refine (BoxCount.flatMap_comm_perm _ _ _).trans (List.Perm.of_eq ?_)
  apply flatMap_congr
  intro run hrun
  rw [flatMap_turn_single, Nat.min_eq_right (hlen run hrun), places]

theorem length_order (rs : List (ℕ × ℕ)) (rounds : ℕ) :
    (order rs rounds).length = (rs.map fun run => min rounds (run.2 - run.1)).sum := by
  have hcomm := (BoxCount.flatMap_comm_perm (List.range rounds) rs
    fun r run => if run.1 + r < run.2 then [run.1 + r] else []).length_eq
  simp only [flatMap_turn_single] at hcomm
  rw [order]
  refine hcomm.trans ?_
  simp only [length_flatMap, length_range']

theorem length_places (rs : List (ℕ × ℕ)) :
    (rs.flatMap places).length = (rs.map fun run => run.2 - run.1).sum := by
  simp only [length_flatMap, places, length_range']

theorem length_order_le (rs : List (ℕ × ℕ)) (rounds : ℕ) :
    (order rs rounds).length ≤ (rs.flatMap places).length := by
  rw [length_order, length_places]
  exact sum_le_sum fun run _ => Nat.min_le_right _ _

theorem length_order_eq_iff :
    (order rs rounds).length = (rs.flatMap places).length ↔ ∀ run ∈ rs, run.2 - run.1 ≤ rounds := by
  refine ⟨fun hlen => ?_, fun hlen => (order_perm hlen).length_eq⟩
  induction rs with
  | nil => simp
  | cons run rs ih =>
    have hle := length_order_le rs rounds
    rw [length_order, length_places] at hlen hle ih
    rw [map_cons, map_cons, sum_cons, sum_cons] at hlen
    rw [forall_mem_cons]
    exact ⟨by omega, ih (by omega)⟩

theorem idxOf_lt_of_round (hnodup : (order rs rounds).Nodup) {a b j k : ℕ} (hab : a < b)
    (hb : b < rounds) (hj : j ∈ turn rs a) (hk : k ∈ turn rs b) :
    (order rs rounds).idxOf j < (order rs rounds).idxOf k := by
  obtain ⟨more, rfl⟩ := Nat.exists_eq_add_of_le hb.le
  rw [order_add] at hnodup ⊢
  have hjmem : j ∈ order rs b := mem_flatMap.mpr ⟨a, mem_range.mpr hab, hj⟩
  have hkrest : k ∈ (List.range' b more).flatMap (turn rs) :=
    mem_flatMap.mpr ⟨b, mem_range'_1.mpr ⟨le_rfl, hb⟩, hk⟩
  have hkmem : k ∉ order rs b := fun h => (disjoint_of_nodup_append hnodup) h hkrest
  rw [idxOf_append_of_mem hjmem, idxOf_append_of_notMem hkmem]
  exact Nat.lt_add_right _ (idxOf_lt_length_of_mem hjmem)

theorem mem_runs {starts : List ℕ} {n : ℕ} (hsorted : starts.Pairwise (· < ·))
    (hlt : ∀ s ∈ starts, s < n) {run : ℕ × ℕ} (h : run ∈ runs starts n) :
    run.1 ∈ starts ∧ run.2 ≤ n ∧ ∀ j ∈ starts, run.1 < j → run.2 ≤ j := by
  induction starts with
  | nil => simp [runs] at h
  | cons a starts ih =>
    rw [pairwise_cons] at hsorted
    rw [forall_mem_cons] at hlt
    cases starts with
    | nil =>
      obtain rfl : run = (a, n) := by simpa [runs] using h
      exact ⟨mem_cons_self, le_rfl, fun j hj hlt' =>
        absurd hlt' (by rw [mem_singleton.mp hj]; exact lt_irrefl a)⟩
    | cons b starts =>
      have hruns : runs (a :: b :: starts) n = (a, b) :: runs (b :: starts) n := rfl
      rw [hruns] at h
      rcases mem_cons.mp h with rfl | h
      · refine ⟨mem_cons_self, (hlt.2 b mem_cons_self).le, fun j hj hlt' => ?_⟩
        rcases mem_cons.mp hj with rfl | hj
        · exact absurd hlt' (lt_irrefl _)
        · rcases mem_cons.mp hj with rfl | hj
          · exact le_rfl
          · exact ((pairwise_cons.mp hsorted.2).1 j hj).le
      · obtain ⟨hmem, hle, hnext⟩ := ih hsorted.2 hlt.2 h
        refine ⟨mem_cons_of_mem a hmem, hle, fun j hj hlt' => ?_⟩
        rcases mem_cons.mp hj with rfl | hj
        · exact absurd hlt' (hsorted.1 run.1 hmem).not_gt
        · exact hnext j hj hlt'

theorem flatMap_places_runs {a n : ℕ} {starts : List ℕ} (hsorted : (a :: starts).Pairwise (· < ·))
    (hlt : ∀ s ∈ a :: starts, s < n) :
    (runs (a :: starts) n).flatMap places = List.range' a (n - a) := by
  induction starts generalizing a with
  | nil => simp [runs, places]
  | cons b starts ih =>
    rw [pairwise_cons] at hsorted
    have hab : a < b := hsorted.1 b mem_cons_self
    have hbn : b < n := hlt b (by simp)
    have htail := ih hsorted.2 fun s hs => hlt s (mem_cons_of_mem a hs)
    have hruns : runs (a :: b :: starts) n = (a, b) :: runs (b :: starts) n := rfl
    rw [hruns, flatMap_cons, htail, places]
    have hsum : n - a = (b - a) + (n - b) := by omega
    rw [hsum, ← List.range'_append, Nat.one_mul, Nat.add_sub_of_le hab.le]

/-! ## Numbering the visits -/

def number (l : List ℕ) (s : List ℕ × ℕ) : List ℕ × ℕ :=
  l.foldl (fun s k => (s.1.set k s.2, s.2 + 1)) s

theorem number_append (l l' : List ℕ) (s : List ℕ × ℕ) :
    number (l ++ l') s = number l' (number l s) := foldl_append

theorem number_snd (l : List ℕ) (s : List ℕ × ℕ) : (number l s).2 = s.2 + l.length := by
  induction l generalizing s with
  | nil => rfl
  | cons k l ih =>
    show (number l (s.1.set k s.2, s.2 + 1)).2 = _
    rw [ih, length_cons]
    show s.2 + 1 + l.length = _
    omega

theorem number_getElem?_of_notMem {l : List ℕ} {k : ℕ} (hk : k ∉ l) (s : List ℕ × ℕ) :
    (number l s).1[k]? = s.1[k]? := by
  induction l generalizing s with
  | nil => rfl
  | cons j l ih =>
    rw [mem_cons, not_or] at hk
    show (number l (s.1.set j s.2, s.2 + 1)).1[k]? = _
    rw [ih hk.2]
    exact getElem?_set_ne (Ne.symm hk.1)

theorem number_getElem? {l : List ℕ} (hnodup : l.Nodup) {k : ℕ} (hk : k ∈ l) (s : List ℕ × ℕ)
    (hlt : k < s.1.length) : (number l s).1[k]? = some (s.2 + l.idxOf k) := by
  induction l generalizing s with
  | nil => cases hk
  | cons j l ih =>
    rw [nodup_cons] at hnodup
    show (number l (s.1.set j s.2, s.2 + 1)).1[k]? = _
    by_cases hkj : k = j
    · subst hkj
      rw [number_getElem?_of_notMem hnodup.1]
      simp [hlt]
    · rw [ih hnodup.2 ((mem_cons.mp hk).resolve_left hkj) _ (by simpa using hlt),
        idxOf_cons_ne _ (Ne.symm hkj)]
      congr 1
      show s.2 + 1 + _ = _
      omega

end RoundRobin

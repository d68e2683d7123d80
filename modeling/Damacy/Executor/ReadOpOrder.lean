import Mathlib.Data.List.Lex
import Mathlib.Data.Prod.Lex
import Damacy.Lib.RangeSort
import Damacy.Executor.ReadOpSort

/-!
# Reads are sorted by path, offset and index

`perm_lt` is the order of a key, so two different reads are never equal. The three entries that the
quicksort looks at for its pivot also stop the scans of its partition: the first is not above the
pivot, and the last is not below it.
-/

open List RangeSort

namespace Damacy

/-! ## The order -/

def pathKey (path : CString) : List ℕ := path.map UInt8.toNat

def opKey (ops : List ReadOp) (a : ℕ) : List ℕ ×ₗ (ℕ ×ₗ ℕ) :=
  let op := ops.getD a ⟨none, 0, 0⟩
  toLex (pathKey (op.shardPath.getD []), toLex (op.fileOffset, a))

theorem strcmp_eq_iff (a b : CString) : strcmp a b = .eq ↔ a = b := by
  fun_induction strcmp a b with
  | case1 => simp
  | case2 => simp
  | case3 => simp
  | case4 x xs ys ih => simp [ih]
  | case5 x xs y ys hne hlt => simp [hne]
  | case6 x xs y ys hne hlt => simp [hne]

theorem strcmp_lt_iff (a b : CString) : strcmp a b = .lt ↔ pathKey a < pathKey b := by
  fun_induction strcmp a b with
  | case1 => simp [pathKey]
  | case2 => simp [pathKey]
  | case3 => simp [pathKey]
  | case4 x xs ys ih => simpa [pathKey, cons_lt_cons_iff] using ih
  | case5 x xs y ys hne hlt =>
    refine iff_of_true rfl ?_
    rw [pathKey, pathKey, map_cons, map_cons, cons_lt_cons_iff]
    exact .inl hlt
  | case6 x xs y ys hne hlt =>
    refine iff_of_false nofun ?_
    rw [pathKey, pathKey, map_cons, map_cons, cons_lt_cons_iff]
    rintro (h | ⟨h, -⟩)
    · exact hlt h
    · exact hne (UInt8.toNat_inj.1 h)

theorem pathKey_inj {a b : CString} : pathKey a = pathKey b ↔ a = b :=
  (map_injective_iff.2 fun _ _ => UInt8.toNat_inj.1).eq_iff

theorem permLt_iff (ops : List ReadOp) (a b : ℕ) :
    permLt ops a b = true ↔ opKey ops a < opKey ops b := by
  unfold permLt opKey
  set x := ops.getD a ⟨none, 0, 0⟩
  set y := ops.getD b ⟨none, 0, 0⟩
  rw [Prod.Lex.toLex_lt_toLex, Prod.Lex.toLex_lt_toLex, ← strcmp_lt_iff, pathKey_inj,
    ← strcmp_eq_iff]
  cases hcmp : strcmp (x.shardPath.getD []) (y.shardPath.getD []) with
  | lt => simp [hcmp]
  | gt => simp [hcmp]
  | eq => by_cases hoffset : x.fileOffset = y.fileOffset <;> simp [hcmp, hoffset]

theorem permLt_eq_false_iff (ops : List ReadOp) (a b : ℕ) :
    permLt ops a b = false ↔ opKey ops b ≤ opKey ops a := by
  rw [← not_lt, ← permLt_iff, Bool.not_eq_true]

theorem opKey_injective (ops : List ReadOp) : Function.Injective (opKey ops) := fun a b h => by
  have h2 := congrArg (fun k => (ofLex (ofLex k).2).2) h
  exact h2

/-! ## Insertion sort -/

section Insertion

variable {ops : List ReadOp} {lo i j entry : ℕ} {perm : List ℕ}

/-- The entries up to `i` are in order but for a gap at `j`, and those behind the gap are not below
the entry that looks for its place. -/
structure Gap (ops : List ReadOp) (lo i j entry : ℕ) (perm : List ℕ) : Prop where
  lo_le : lo ≤ j
  le : j ≤ i
  lt : i < perm.length
  sorted : ∀ a b, lo ≤ a → a ≤ b → b ≤ i → a ≠ j → b ≠ j →
    opKey ops (perm.getD a 0) ≤ opKey ops (perm.getD b 0)
  above : ∀ k, j < k → k ≤ i → opKey ops entry ≤ opKey ops (perm.getD k 0)

theorem Gap.down (h : Gap ops lo i (j + 1) entry perm) (hlo : lo < j + 1)
    (hle : opKey ops entry ≤ opKey ops (perm.getD j 0)) :
    Gap ops lo i j entry (perm.set (j + 1) (perm.getD j 0)) := by
  have hlt := h.lt
  have hji := h.le
  have hget (k : ℕ) := @getD_set ℕ 0 perm (j + 1) k (by omega) (perm.getD j 0)
  refine ⟨by omega, by omega, by simpa using hlt, fun a b ha hab hb haj hbj => ?_, fun k hk hki => ?_⟩
  · rw [hget, hget]
    split_ifs with h1 h2 h2
    · exact le_rfl
    · exact h.sorted j b (by omega) (by omega) hb (by omega) h2
    · exact h.sorted a j ha (by omega) (by omega) h1 (by omega)
    · exact h.sorted a b ha hab hb h1 h2
  · rw [hget]
    split_ifs with h1
    · exact hle
    · exact h.above k (by omega) hki

theorem Gap.fill (h : Gap ops lo i j entry perm)
    (hbelow : ∀ a, lo ≤ a → a < j → opKey ops (perm.getD a 0) ≤ opKey ops entry) :
    SortedOn (opKey ops) 0 lo (i + 1) (perm.set j entry) := by
  have hlt := h.lt
  have hji := h.le
  have hget (k : ℕ) := @getD_set ℕ 0 perm j k (by omega) entry
  intro a b ha hab hb
  rw [hget, hget]
  split_ifs with h1 h2 h2
  · exact le_rfl
  · exact h.above b (by omega) (by omega)
  · exact hbelow a ha (by omega)
  · exact h.sorted a b ha hab (by omega) h1 h2

theorem insertLoop_sorted (h : Gap ops lo i j entry perm) :
    SortedOn (opKey ops) 0 lo (i + 1) (insertLoop ops lo entry j perm) := by
  induction j generalizing perm with
  | zero => exact h.fill fun a _ ha => absurd ha (Nat.not_lt_zero a)
  | succ j ih =>
    rw [insertLoop]
    split_ifs with hdown
    · exact ih (h.down hdown.1 ((permLt_eq_false_iff ops _ _).1 hdown.2))
    · refine h.fill fun a ha haj => ?_
      -- the entry before the gap is below the new one, and those before it are not above it
      have hlt : permLt ops (perm.getD j 0) entry = true := by
        by_contra hnot
        exact hdown ⟨by omega, by simpa using hnot⟩
      exact (h.sorted a j ha (by omega) (by have := h.le; omega) (by omega) (by omega)).trans
        ((permLt_iff ops _ _).1 hlt).le

theorem insertLoop_outside {k : ℕ} (hlo : lo ≤ j) (hj : j < perm.length) (hk : k < lo ∨ j < k) :
    (insertLoop ops lo entry j perm).getD k 0 = perm.getD k 0 := by
  induction j generalizing perm with
  | zero => rw [insertLoop, getD_set hj, if_neg (by omega)]
  | succ j ih =>
    rw [insertLoop]
    split_ifs with hdown
    · rw [ih (by omega) (by simp; omega) (by omega), getD_set hj, if_neg (by omega)]
    · rw [getD_set hj, if_neg (by omega)]

theorem insertLoop_inside {k : ℕ} (hlo : lo ≤ j) (hj : j < perm.length) (hk : lo ≤ k) (hkj : k ≤ j) :
    (insertLoop ops lo entry j perm).getD k 0 = entry ∨
      ∃ l, lo ≤ l ∧ l < j ∧ (insertLoop ops lo entry j perm).getD k 0 = perm.getD l 0 := by
  induction j generalizing perm k with
  | zero =>
    obtain rfl : k = 0 := by omega
    rw [insertLoop, getD_set hj, if_pos rfl]
    exact .inl rfl
  | succ j ih =>
    rw [insertLoop]
    split_ifs with hdown
    · rcases Nat.lt_or_eq_of_le hkj with hkj | rfl
      · refine (ih (by omega) (by simp; omega) hk (by omega)).imp_right ?_
        rintro ⟨l, hl, hlj, heq⟩
        exact ⟨l, hl, by omega, by rw [heq, getD_set hj, if_neg (by omega)]⟩
      · refine .inr ⟨j, by omega, by omega, ?_⟩
        rw [insertLoop_outside (by omega) (by simp; omega) (.inr (Nat.lt_succ_self j)), getD_set hj,
          if_pos rfl]
    · rw [getD_set hj]
      split_ifs with hkj
      · exact .inl rfl
      · exact .inr ⟨k, hk, by omega, rfl⟩

theorem insertLoop_getD_perm (ops : List ReadOp) (lo : ℕ) (hi : i < perm.length) :
    (insertLoop ops lo (perm.getD i 0) i perm).Perm perm := by
  refine (insertLoop_perm ops lo _ hi).trans ?_
  have hget : perm.getD i 0 = perm[i] := by simp [List.getD, hi]
  rw [hget, set_getElem_self]

theorem insertLoop_sorts (hlo : lo ≤ i) (hi : i < perm.length)
    (hsorted : SortedOn (opKey ops) 0 lo i perm) :
    Sorts (opKey ops) 0 lo (i + 1) perm (insertLoop ops lo (perm.getD i 0) i perm) := by
  refine ⟨⟨insertLoop_getD_perm ops lo hi, fun k hk => insertLoop_outside hlo hi (by omega),
      fun k hk hki => ?_⟩,
    insertLoop_sorted ⟨hlo, le_rfl, hi, ?_, fun k hk hki => by omega⟩⟩
  · rcases @insertLoop_inside ops lo i (perm.getD i 0) perm k hlo hi hk (by omega) with
      heq | ⟨l, hl, hli, heq⟩
    · exact ⟨i, hlo, Nat.lt_succ_self i, heq⟩
    · exact ⟨l, hl, by omega, heq⟩
  · intro a b ha hab hb _ hbi
    exact hsorted a b ha hab (by omega)

theorem permInsertionSort_sorts {hi : ℕ} (hlo : lo ≤ hi) (hhi : hi < perm.length) :
    Sorts (opKey ops) 0 lo (hi + 1) perm (permInsertionSort ops perm lo hi) := by
  -- after `n` turns the range up to `lo + n` is sorted
  have hturns (n : ℕ) (hn : lo + n ≤ hi) : Sorts (opKey ops) 0 lo (lo + n + 1) perm
      ((List.range' (lo + 1) n).foldl
        (fun perm i => insertLoop ops lo (perm.getD i 0) i perm) perm) := by
    induction n with
    | zero => exact Sorts.of_le le_rfl perm
    | succ n ih =>
      have hbefore := ih (by omega)
      rw [List.range'_1_concat, foldl_append, foldl_cons, foldl_nil,
        show lo + 1 + n = lo + (n + 1) by omega]
      have hturn := @insertLoop_sorts ops lo (lo + (n + 1)) _ (by omega)
        (hbefore.length_eq ▸ by omega) hbefore.sorted
      exact ⟨(hbefore.widen le_rfl (by omega)).trans hturn.toRearranges, hturn.sorted⟩
  have h := hturns (hi - lo) (by omega)
  rwa [Nat.add_sub_of_le hlo] at h

end Insertion

/-! ## Partition -/

section Partition

variable {ops : List ReadOp} {lo hi i j pivot : ℕ} {perm : List ℕ}

/-- `while (perm_lt(ops, perm[++i], pivot))` stops at the first entry that is not below the pivot,
and there is one up to `stop`. -/
theorem scanUp_stop (fuel : ℕ) {stop : ℕ} (hlt : i < stop) (hfuel : stop ≤ i + fuel)
    (hstop : opKey ops pivot ≤ opKey ops (perm.getD stop 0)) :
    i < scanUp ops perm pivot fuel i ∧ scanUp ops perm pivot fuel i ≤ stop ∧
      (∀ k, i < k → k < scanUp ops perm pivot fuel i →
        opKey ops (perm.getD k 0) < opKey ops pivot) ∧
      opKey ops pivot ≤ opKey ops (perm.getD (scanUp ops perm pivot fuel i) 0) := by
  induction fuel generalizing i with
  | zero => omega
  | succ fuel ih =>
    rw [scanUp]
    split_ifs with hbelow
    · have hkey := (permLt_iff ops _ _).1 hbelow
      have hne : i + 1 ≠ stop := fun h => absurd (h ▸ hkey) (not_lt.2 hstop)
      obtain ⟨h1, h2, h3, h4⟩ := @ih (i + 1) (by omega) (by omega)
      refine ⟨by omega, h2, fun k hk hk' => ?_, h4⟩
      rcases Nat.lt_or_eq_of_le hk with hk | rfl
      · exact h3 k hk hk'
      · exact hkey
    · refine ⟨Nat.lt_succ_self i, hlt, fun k hk hk' => by omega, ?_⟩
      exact (permLt_eq_false_iff ops _ _).1 (by simpa using hbelow)

/-- `while (perm_lt(ops, pivot, perm[--j]))` stops at the first entry that is not above the pivot,
and there is one down to `stop`. -/
theorem scanDown_stop {stop : ℕ} (hlt : stop < j)
    (hstop : opKey ops (perm.getD stop 0) ≤ opKey ops pivot) :
    stop ≤ scanDown ops perm pivot j ∧ scanDown ops perm pivot j < j ∧
      (∀ k, scanDown ops perm pivot j < k → k < j →
        opKey ops pivot < opKey ops (perm.getD k 0)) ∧
      opKey ops (perm.getD (scanDown ops perm pivot j) 0) ≤ opKey ops pivot := by
  induction j with
  | zero => omega
  | succ j ih =>
    rw [scanDown]
    split_ifs with habove
    · have hkey := (permLt_iff ops _ _).1 habove
      have hne : stop ≠ j := fun h => absurd (h ▸ hkey) (not_lt.2 hstop)
      obtain ⟨h1, h2, h3, h4⟩ := ih (by omega)
      refine ⟨h1, by omega, fun k hk hk' => ?_, h4⟩
      rcases Nat.lt_or_eq_of_le (Nat.le_of_lt_succ hk') with hk' | rfl
      · exact h3 k hk hk'
      · exact hkey
    · refine ⟨by omega, Nat.lt_succ_self j, fun k hk hk' => by omega, ?_⟩
      exact (permLt_eq_false_iff ops _ _).1 (by simpa using habove)

/-- What the partition loop knows before a turn: the entries up to `i` are not above the pivot, those
from `j` on are not below it. The entries at `i` and `j` stop the scans. -/
structure Splits (ops : List ReadOp) (lo hi pivot : ℕ) (perm : List ℕ) (i j : ℕ) : Prop where
  lo_le : lo ≤ i
  lt : i < j
  lt_hi : j < hi
  length : hi < perm.length
  below : ∀ k, lo ≤ k → k ≤ i → opKey ops (perm.getD k 0) ≤ opKey ops pivot
  above : ∀ k, j ≤ k → k ≤ hi → opKey ops pivot ≤ opKey ops (perm.getD k 0)

structure TurnStops (ops : List ReadOp) (lo hi pivot : ℕ) (perm : List ℕ)
    (i j up down : ℕ) : Prop where
  lt_up : i < up
  up_le : up ≤ j
  le_down : i ≤ down
  down_lt : down < j
  below : ∀ k, lo ≤ k → k < up → opKey ops (perm.getD k 0) ≤ opKey ops pivot
  above : ∀ k, down < k → k ≤ hi → opKey ops pivot ≤ opKey ops (perm.getD k 0)
  at_up : opKey ops pivot ≤ opKey ops (perm.getD up 0)
  at_down : opKey ops (perm.getD down 0) ≤ opKey ops pivot

theorem Splits.stops (h : Splits ops lo hi pivot perm i j) : TurnStops ops lo hi pivot perm i j
    (scanUp ops perm pivot (hi - i) i) (scanDown ops perm pivot j) := by
  have hlt := h.lt
  have hhi := h.lt_hi
  obtain ⟨hup, hup', hbelow, hat_up⟩ := scanUp_stop (hi - i) hlt (by omega)
    (h.above j le_rfl hhi.le)
  obtain ⟨hdown, hdown', habove, hat_down⟩ := scanDown_stop hlt (h.below i h.lo_le le_rfl)
  refine ⟨hup, hup', hdown, hdown', fun k hlo hk => ?_, fun k hk hhi => ?_, hat_up, hat_down⟩
  · rcases Nat.lt_or_ge i k with hik | hik
    · exact (hbelow k hik hk).le
    · exact h.below k hlo hik
  · rcases Nat.lt_or_ge k j with hkj | hkj
    · exact (habove k hk hkj).le
    · exact h.above k hkj hhi

theorem TurnStops.splits {up down : ℕ} (h : Splits ops lo hi pivot perm i j)
    (hs : TurnStops ops lo hi pivot perm i j up down) (hlt : up < down) :
    Splits ops lo hi pivot (swapAt perm up down) up down := by
  have hlo := h.lo_le
  have hhi := h.lt_hi
  have hlen := h.length
  have hdown := hs.down_lt
  have hup := hs.lt_up
  have hget (k : ℕ) := @getD_exchange ℕ 0 perm up down (by omega) (by omega) k
  refine ⟨by omega, hlt, by omega, by simpa using hlen, fun k hlo hk => ?_, fun k hk hhi => ?_⟩
  · rw [show (swapAt perm up down).getD k 0 = _ from hget k, if_neg (by omega)]
    split_ifs
    · exact hs.at_down
    · exact hs.below k hlo (by omega)
  · rw [show (swapAt perm up down).getD k 0 = _ from hget k]
    split_ifs with h1 h2
    · exact hs.at_up
    · omega
    · exact hs.above k (by omega) hhi

/-- The entries as the partition loop leaves them. -/
structure Split (ops : List ReadOp) (lo hi pivot : ℕ) (perm perm' : List ℕ) (i : ℕ) : Prop where
  rearranges : Rearranges 0 lo (hi - 1) perm perm'
  lo_lt : lo < i
  lt_hi : i < hi
  below : ∀ k, lo ≤ k → k < i → opKey ops (perm'.getD k 0) ≤ opKey ops pivot
  above : ∀ k, i ≤ k → k ≤ hi → opKey ops pivot ≤ opKey ops (perm'.getD k 0)

theorem partitionLoop_split (fuel : ℕ) (h : Splits ops lo hi pivot perm i j) (hfuel : j - i ≤ fuel) :
    Split ops lo hi pivot perm (partitionLoop ops hi pivot fuel perm i j).1
      (partitionLoop ops hi pivot fuel perm i j).2 := by
  induction fuel generalizing perm i j with
  | zero =>
    have := h.lt
    omega
  | succ fuel ih =>
    have hs := h.stops
    have h1 := h.lo_le
    have h2 := h.lt_hi
    have h3 := hs.lt_up
    have h4 := hs.up_le
    have h5 := hs.down_lt
    have h6 := h.length
    rw [partitionLoop]
    split_ifs with hbreak
    · refine ⟨.refl _ _ _ _, by omega, by omega, hs.below, fun k hk hhi => ?_⟩
      rcases Nat.lt_or_eq_of_le hk with hk | rfl
      · exact hs.above k (by omega) hhi
      · exact hs.at_up
    · have hnext := ih (hs.splits h (by omega)) (by omega)
      have hswap : Rearranges 0 lo (hi - 1) perm (swapAt perm _ _) :=
        Rearranges.exchange (i := scanUp ops perm pivot (hi - i) i)
          (j := scanDown ops perm pivot j) ⟨by omega, by omega⟩ ⟨by omega, by omega⟩ (by omega)
      exact ⟨hswap.trans hnext.rearranges, hnext.lo_lt, hnext.lt_hi, hnext.below, hnext.above⟩

/-! ## The pivot -/

theorem getD_swapAt {a b : ℕ} (ha : a < perm.length) (hb : b < perm.length) (k : ℕ) :
    (swapAt perm a b).getD k 0 =
      if k = b then perm.getD a 0 else if k = a then perm.getD b 0 else perm.getD k 0 :=
  getD_exchange ha hb k

theorem swapIfLt_ordered {a b : ℕ} (hab : a ≠ b) (ha : a < perm.length) (hb : b < perm.length) :
    opKey ops ((swapIfLt ops perm a b).getD a 0) ≤ opKey ops ((swapIfLt ops perm a b).getD b 0) ∧
      ((swapIfLt ops perm a b).getD a 0 = perm.getD a 0 ∧
          (swapIfLt ops perm a b).getD b 0 = perm.getD b 0 ∨
        (swapIfLt ops perm a b).getD a 0 = perm.getD b 0 ∧
          (swapIfLt ops perm a b).getD b 0 = perm.getD a 0) ∧
      ∀ k, k ≠ a → k ≠ b → (swapIfLt ops perm a b).getD k 0 = perm.getD k 0 := by
  rw [swapIfLt]
  split_ifs with hlt
  · have hga : (swapAt perm a b).getD a 0 = perm.getD b 0 := by
      rw [getD_swapAt ha hb, if_neg hab, if_pos rfl]
    have hgb : (swapAt perm a b).getD b 0 = perm.getD a 0 := by
      rw [getD_swapAt ha hb, if_pos rfl]
    rw [hga, hgb]
    refine ⟨((permLt_iff ops _ _).1 hlt).le, .inr ⟨rfl, rfl⟩, fun k hka hkb => ?_⟩
    rw [getD_swapAt ha hb, if_neg hkb, if_neg hka]
  · exact ⟨(permLt_eq_false_iff ops _ _).1 (by simpa using hlt), .inl ⟨rfl, rfl⟩, fun _ _ _ => rfl⟩

theorem swapIfLt_rearranges {a b : ℕ} (hlo : lo ≤ a ∧ lo ≤ b) (hhi : a < hi ∧ b < hi)
    (hlen : hi ≤ perm.length) : Rearranges 0 lo hi perm (swapIfLt ops perm a b) := by
  rw [swapIfLt]
  split_ifs
  · exact Rearranges.exchange hlo hhi hlen
  · exact Rearranges.refl _ _ _ _

theorem medianOfThree_ordered (ops : List ReadOp) {mid : ℕ} (hlo : lo < mid) (hmid : mid < hi - 1)
    (hhi : hi < perm.length) :
    Rearranges 0 lo (hi + 1) perm (medianOfThree ops perm lo mid hi) ∧
      opKey ops ((medianOfThree ops perm lo mid hi).getD lo 0) ≤
        opKey ops ((medianOfThree ops perm lo mid hi).getD (hi - 1) 0) ∧
      opKey ops ((medianOfThree ops perm lo mid hi).getD (hi - 1) 0) ≤
        opKey ops ((medianOfThree ops perm lo mid hi).getD hi 0) := by
  have hr1 := @swapIfLt_rearranges ops lo (hi + 1) perm lo mid (by omega) (by omega) (by omega)
  obtain ⟨hle1, -, -⟩ := @swapIfLt_ordered ops perm lo mid (by omega) (by omega) (by omega)
  have hl1 := hr1.length_eq
  set perm1 := swapIfLt ops perm lo mid with hperm1
  have hr2 := @swapIfLt_rearranges ops lo (hi + 1) perm1 lo hi (by omega) (by omega) (by omega)
  obtain ⟨hle2, hcase2, hsame2⟩ :=
    @swapIfLt_ordered ops perm1 lo hi (by omega) (by omega) (by omega)
  have hl2 := hr2.length_eq
  set perm2 := swapIfLt ops perm1 lo hi with hperm2
  have hr3 := @swapIfLt_rearranges ops lo (hi + 1) perm2 mid hi (by omega) (by omega) (by omega)
  obtain ⟨hle3, hcase3, hsame3⟩ :=
    @swapIfLt_ordered ops perm2 mid hi (by omega) (by omega) (by omega)
  have hl3 := hr3.length_eq
  set perm3 := swapIfLt ops perm2 mid hi with hperm3
  have hmedian : medianOfThree ops perm lo mid hi = swapAt perm3 mid (hi - 1) := rfl
  -- the first entry is the least of the three
  have hmid2 : opKey ops (perm2.getD lo 0) ≤ opKey ops (perm2.getD mid 0) := by
    rw [hsame2 mid (by omega) (by omega)]
    rcases hcase2 with ⟨hlo2, -⟩ | ⟨-, hhi2⟩
    · rwa [hlo2]
    · exact (hhi2 ▸ hle2).trans hle1
  have hmid3 : opKey ops (perm3.getD lo 0) ≤ opKey ops (perm3.getD mid 0) := by
    rw [hsame3 lo (by omega) (by omega)]
    rcases hcase3 with ⟨hmid3, -⟩ | ⟨hmid3, -⟩
    · rwa [hmid3]
    · rwa [hmid3]
  have hget (k : ℕ) := @getD_swapAt perm3 mid (hi - 1) (by omega) (by omega) k
  rw [hmedian]
  refine ⟨((hr1.trans hr2).trans hr3).trans
    (Rearranges.exchange (by omega) (by omega) (by omega)), ?_, ?_⟩
  · rw [hget, hget, if_neg (by omega), if_neg (by omega), if_pos rfl]
    exact hmid3
  · rw [hget, hget, if_pos rfl, if_neg (by omega), if_neg (by omega)]
    exact hle3

theorem splits_medianOfThree (hlo : lo + 16 ≤ hi) (hhi : hi < perm.length) :
    Splits ops lo hi ((medianOfThree ops perm lo (lo + (hi - lo) / 2) hi).getD (hi - 1) 0)
      (medianOfThree ops perm lo (lo + (hi - lo) / 2) hi) lo (hi - 1) := by
  have hmid : lo < lo + (hi - lo) / 2 ∧ lo + (hi - lo) / 2 < hi - 1 := by omega
  obtain ⟨hmedian, hfirst, hlast⟩ := medianOfThree_ordered ops hmid.1 hmid.2 hhi
  have hlen := hmedian.length_eq
  refine ⟨le_rfl, by omega, by omega, by omega, fun k hk hk' => ?_, fun k hk hk' => ?_⟩
  · obtain rfl : k = lo := by omega
    exact hfirst
  · rcases (show k = hi - 1 ∨ k = hi by omega) with rfl | rfl
    · exact le_rfl
    · exact hlast

/-- **The partition**: the pivot is in its place, away from the start of the range. -/
theorem permPartition_partitioned (ops : List ReadOp) (hlo : lo + 16 ≤ hi) (hhi : hi < perm.length) :
    Rearranges 0 lo (hi + 1) perm (permPartition ops perm lo hi).1 ∧
      lo < (permPartition ops perm lo hi).2 ∧
      Partitioned (opKey ops) 0 lo (permPartition ops perm lo hi).2 (hi + 1)
        (permPartition ops perm lo hi).1 ∧ (permPartition ops perm lo hi).2 < hi := by
  have hmid : lo < lo + (hi - lo) / 2 ∧ lo + (hi - lo) / 2 < hi - 1 := by omega
  have hmedian := (medianOfThree_ordered ops hmid.1 hmid.2 hhi).1
  have hsplit := partitionLoop_split (hi - lo) (@splits_medianOfThree ops lo hi perm hlo hhi)
    (by omega)
  have hlen := hmedian.length_eq
  set perm1 := medianOfThree ops perm lo (lo + (hi - lo) / 2) hi with hperm1
  have hpart : permPartition ops perm lo hi =
      (swapAt (partitionLoop ops hi (perm1.getD (hi - 1) 0) (hi - lo) perm1 lo (hi - 1)).1
          (partitionLoop ops hi (perm1.getD (hi - 1) 0) (hi - lo) perm1 lo (hi - 1)).2 (hi - 1),
        (partitionLoop ops hi (perm1.getD (hi - 1) 0) (hi - lo) perm1 lo (hi - 1)).2) := rfl
  set r := partitionLoop ops hi (perm1.getD (hi - 1) 0) (hi - lo) perm1 lo (hi - 1)
  have hrlen := hsplit.rearranges.length_eq
  have h1 := hsplit.lo_lt
  have h2 := hsplit.lt_hi
  have hpivot : r.1.getD (hi - 1) 0 = perm1.getD (hi - 1) 0 :=
    hsplit.rearranges.outside (hi - 1) (.inr le_rfl)
  have hget (k : ℕ) := @getD_swapAt r.1 r.2 (hi - 1) (by omega) (by omega) k
  -- the pivot comes to where the scans stopped
  have hplace : (swapAt r.1 r.2 (hi - 1)).getD r.2 0 = perm1.getD (hi - 1) 0 := by
    rw [hget, hpivot, if_pos rfl]
    split_ifs with heq
    · rw [heq, hpivot]
    · rfl
  rw [hpart]
  dsimp only
  refine ⟨(hmedian.trans (hsplit.rearranges.widen le_rfl (by omega))).trans
    (Rearranges.exchange (by omega) (by omega) (by omega)), h1,
    ⟨h1.le, by omega, fun k hk hk' => ?_, fun k hk hk' => ?_⟩, h2⟩
  · rw [hplace, hget, if_neg (by omega), if_neg (by omega)]
    exact hsplit.below k hk hk'
  · rw [hplace, hget]
    split_ifs with h3 h4
    · exact hsplit.above r.2 le_rfl h2.le
    · omega
    · exact hsplit.above k (by omega) (by omega)

/-! ## Quicksort -/

/-- **`perm_quicksort` sorts its range.** -/
theorem permQuicksort_sorts {fuel : ℕ} (hhi : hi < perm.length) (hfuel : hi + 1 ≤ lo + fuel) :
    Sorts (opKey ops) 0 lo (hi + 1) perm (permQuicksort ops fuel perm lo hi) := by
  induction fuel generalizing perm lo hi with
  | zero => exact Sorts.of_le (by omega) perm
  | succ fuel ih =>
    rw [permQuicksort]
    split_ifs with hempty hshort
    · exact Sorts.of_le (by omega) perm
    · exact permInsertionSort_sorts (by omega) hhi
    · obtain ⟨hr, hlo, hpart, hlt⟩ := permPartition_partitioned ops (show lo + 16 ≤ hi by omega) hhi
      have hlen := hr.length_eq
      set p := permPartition ops perm lo hi
      dsimp only
      have hsub : p.2 - 1 + 1 = p.2 := by omega
      have hwhole {perm' : List ℕ} (h : Sorts (opKey ops) 0 lo (hi + 1) p.1 perm') :
          Sorts (opKey ops) 0 lo (hi + 1) perm perm' := ⟨hr.trans h.toRearranges, h.sorted⟩
      have hpart_left (perm' : List ℕ) (hlen' : perm'.length = perm.length) :
          Sorts (opKey ops) 0 lo p.2 perm' (permQuicksort ops fuel perm' lo (p.2 - 1)) := by
        have h := @ih lo (p.2 - 1) perm' (by omega) (by omega)
        rwa [hsub] at h
      have hpart_right (perm' : List ℕ) (hlen' : perm'.length = perm.length) :
          Sorts (opKey ops) 0 (p.2 + 1) (hi + 1) perm' (permQuicksort ops fuel perm' (p.2 + 1) hi) :=
        ih (by omega) (by omega)
      rw [if_neg (show p.2 ≠ 0 by omega)]
      split_ifs with hsmall hleft hright
      · have hl := hpart_left p.1 hlen
        exact hwhole (hpart.sorts_left_right hl (hpart_right _ (hl.length_eq.trans hlen)))
      · exact hwhole (hpart.sorts_left_right (Sorts.of_le (by omega) p.1) (hpart_right p.1 hlen))
      · have hr' := hpart_right p.1 hlen
        exact hwhole (hpart.sorts_right_left hr' (hpart_left _ (hr'.length_eq.trans hlen)))
      · exact hwhole (hpart.sorts_right_left (Sorts.of_le (by omega) p.1) (hpart_left p.1 hlen))

theorem readOpPermSort_sorts (ops : List ReadOp) (perm : List ℕ) :
    Sorts (opKey ops) 0 0 perm.length perm (readOpPermSort ops perm) := by
  rw [readOpPermSort]
  split_ifs with hn
  · have h := @permQuicksort_sorts ops 0 (perm.length - 1) perm perm.length (by omega) (by omega)
    rwa [Nat.sub_add_cancel (by omega)] at h
  · exact Sorts.of_le (by omega) perm

end Partition

end Damacy

import Mathlib.Algebra.GroupWithZero.Nat
import Mathlib.Data.Nat.Basic
import Mathlib.Order.Basic
import Mathlib.Tactic.Set
import Damacy.Types

/-!
# Sorting reads (`executor/read_op_sort.c`)

A permutation of read indices is sorted by path, file offset and index: quicksort with the median
of three as the pivot, and insertion sort on short ranges. The arrays of the source are lists here;
`permQuicksort_perm` says that whatever the comparisons answer, the result is a rearrangement.
-/

open List

namespace Damacy

/-- `struct read_op`, without the place in the host buffer, which is assigned later; a `NULL` path
is `none`. -/
structure ReadOp where
  shardPath : Option CString
  fileOffset : ℕ
  nbytes : ℕ
deriving DecidableEq, Repr

def strcmp : CString → CString → Ordering
  | [], [] => .eq
  | [], _ :: _ => .lt
  | _ :: _, [] => .gt
  | a :: as, b :: bs => if a = b then strcmp as bs else if a < b then .lt else .gt

def permLt (ops : List ReadOp) (a b : ℕ) : Bool :=
  let x := ops.getD a ⟨none, 0, 0⟩
  let y := ops.getD b ⟨none, 0, 0⟩
  match strcmp (x.shardPath.getD []) (y.shardPath.getD []) with
  | .lt => true
  | .gt => false
  | .eq => if x.fileOffset ≠ y.fileOffset then decide (x.fileOffset < y.fileOffset) else decide (a < b)

def swapAt (perm : List ℕ) (i j : ℕ) : List ℕ :=
  (perm.set i (perm.getD j 0)).set j (perm.getD i 0)

/-! ## Insertion sort -/

/-- The inner loop of `perm_insertion_sort`: entries that are not below `key` move up, down to
`lo`, and `key` takes the place that is left. -/
def insertLoop (ops : List ReadOp) (lo key : ℕ) : (j : ℕ) → List ℕ → List ℕ
  | 0, perm => perm.set 0 key
  | j + 1, perm =>
    if lo < j + 1 ∧ permLt ops (perm.getD j 0) key = false then
      insertLoop ops lo key j (perm.set (j + 1) (perm.getD j 0))
    else perm.set (j + 1) key

def permInsertionSort (ops : List ReadOp) (perm : List ℕ) (lo hi : ℕ) : List ℕ :=
  (List.range' (lo + 1) (hi - lo)).foldl (fun perm i => insertLoop ops lo (perm.getD i 0) i perm) perm

/-! ## Quicksort -/

/-- `while (perm_lt(ops, perm[++i], pivot))`; the entry at `hi` stops the scan. -/
def scanUp (ops : List ReadOp) (perm : List ℕ) (pivot : ℕ) : (fuel i : ℕ) → ℕ
  | 0, i => i
  | fuel + 1, i =>
    if permLt ops (perm.getD (i + 1) 0) pivot then scanUp ops perm pivot fuel (i + 1) else i + 1

/-- `while (perm_lt(ops, pivot, perm[--j]))`; the entry at `lo` stops the scan. -/
def scanDown (ops : List ReadOp) (perm : List ℕ) (pivot : ℕ) : (j : ℕ) → ℕ
  | 0 => 0
  | j + 1 => if permLt ops pivot (perm.getD j 0) then scanDown ops perm pivot j else j

/-- The partition loop: the final place of the pivot and the rearranged entries. -/
def partitionLoop (ops : List ReadOp) (hi pivot : ℕ) : (fuel : ℕ) → List ℕ → (i j : ℕ) → List ℕ × ℕ
  | 0, perm, i, _ => (perm, i)
  | fuel + 1, perm, i, j =>
    let i := scanUp ops perm pivot (hi - i) i
    let j := scanDown ops perm pivot j
    if j ≤ i then (perm, i) else partitionLoop ops hi pivot fuel (swapAt perm i j) i j

def swapIfLt (ops : List ReadOp) (perm : List ℕ) (a b : ℕ) : List ℕ :=
  if permLt ops (perm.getD b 0) (perm.getD a 0) then swapAt perm a b else perm

/-- The median of the first, the middle and the last entry, moved next to the end. -/
def medianOfThree (ops : List ReadOp) (perm : List ℕ) (lo mid hi : ℕ) : List ℕ :=
  let perm := swapIfLt ops perm lo mid
  let perm := swapIfLt ops perm lo hi
  let perm := swapIfLt ops perm mid hi
  swapAt perm mid (hi - 1)

def permPartition (ops : List ReadOp) (perm : List ℕ) (lo hi : ℕ) : List ℕ × ℕ :=
  let perm := medianOfThree ops perm lo (lo + (hi - lo) / 2) hi
  let (perm, i) := partitionLoop ops hi (perm.getD (hi - 1) 0) (hi - lo) perm lo (hi - 1)
  (swapAt perm i (hi - 1), i)

/-- `perm_quicksort`: recursion on the smaller part, iteration on the larger one. -/
def permQuicksort (ops : List ReadOp) : (fuel : ℕ) → List ℕ → (lo hi : ℕ) → List ℕ
  | 0, perm, _, _ => perm
  | fuel + 1, perm, lo, hi =>
    if hi ≤ lo then perm
    else if hi - lo < 16 then permInsertionSort ops perm lo hi
    else
      let (perm, i) := permPartition ops perm lo hi
      if 0 < i ∧ i - 1 - lo < hi - (i + 1) then
        let perm := if lo + 1 < i then permQuicksort ops fuel perm lo (i - 1) else perm
        permQuicksort ops fuel perm (i + 1) hi
      else
        let perm := if i + 1 < hi then permQuicksort ops fuel perm (i + 1) hi else perm
        if i = 0 then perm else permQuicksort ops fuel perm lo (i - 1)

def readOpPermSort (ops : List ReadOp) (perm : List ℕ) : List ℕ :=
  if 1 < perm.length then permQuicksort ops perm.length perm 0 (perm.length - 1) else perm

/-! ## The result is a rearrangement -/

theorem swapAt_perm (perm : List ℕ) {i j : ℕ} (hi : i < perm.length) (hj : j < perm.length) :
    (swapAt perm i j).Perm perm := by
  have hgi : perm.getD i 0 = perm[i] := by simp [List.getD, hi]
  have hgj : perm.getD j 0 = perm[j] := by simp [List.getD, hj]
  rw [swapAt, hgi, hgj]
  exact set_set_perm hi hj

@[simp] theorem length_swapAt (perm : List ℕ) (i j : ℕ) :
    (swapAt perm i j).length = perm.length := by
  simp [swapAt]

theorem insertLoop_perm (ops : List ReadOp) (lo key : ℕ) {j : ℕ} {perm : List ℕ}
    (hj : j < perm.length) : (insertLoop ops lo key j perm).Perm (perm.set j key) := by
  induction j generalizing perm with
  | zero => exact List.Perm.refl _
  | succ j ih =>
    rw [insertLoop]
    split
    · refine (ih (by simp; omega)).trans ?_
      -- the gap moves down by one: an exchange of two neighbours
      have hswap := swapAt_perm (perm.set (j + 1) key) (i := j + 1) (j := j) (by simpa using hj)
        (by simp; omega)
      have hkey : (perm.set (j + 1) key).getD (j + 1) 0 = key := by simp [List.getD, hj]
      have hnext : (perm.set (j + 1) key).getD j 0 = perm.getD j 0 := by simp [List.getD]
      rwa [swapAt, hkey, hnext, set_set] at hswap
    · exact List.Perm.refl _

theorem permInsertionSort_perm (ops : List ReadOp) {perm : List ℕ} {lo hi : ℕ}
    (hhi : hi < perm.length) : (permInsertionSort ops perm lo hi).Perm perm := by
  have hstep : ∀ (l : List ℕ) (perm : List ℕ), (∀ i ∈ l, i < perm.length) →
      (l.foldl (fun perm i => insertLoop ops lo (perm.getD i 0) i perm) perm).Perm perm := by
    intro l
    induction l with
    | nil => exact fun perm _ => List.Perm.refl _
    | cons i l ih =>
      intro perm hl
      rw [forall_mem_cons] at hl
      have hone : (insertLoop ops lo (perm.getD i 0) i perm).Perm perm := by
        refine (insertLoop_perm ops lo _ hl.1).trans ?_
        have hget : perm.getD i 0 = perm[i] := by simp [List.getD, hl.1]
        rw [hget, set_getElem_self]
      rw [foldl_cons]
      refine (ih _ fun j hj => ?_).trans hone
      rw [hone.length_eq]
      exact hl.2 j hj
  apply hstep
  intro i hi'
  rw [mem_range'_1] at hi'
  omega

theorem scanUp_le (ops : List ReadOp) (perm : List ℕ) (pivot fuel i : ℕ) :
    scanUp ops perm pivot fuel i ≤ i + fuel := by
  induction fuel generalizing i with
  | zero => exact le_rfl
  | succ fuel ih =>
    rw [scanUp]
    split
    · have := ih (i + 1)
      omega
    · omega

theorem scanDown_le (ops : List ReadOp) (perm : List ℕ) (pivot j : ℕ) :
    scanDown ops perm pivot j ≤ j := by
  induction j with
  | zero => exact le_rfl
  | succ j ih =>
    rw [scanDown]
    split <;> omega

theorem partitionLoop_perm (ops : List ReadOp) {hi pivot fuel i j : ℕ} {perm : List ℕ}
    (hhi : hi < perm.length) (hi' : i ≤ hi) (hj : j ≤ hi) :
    (partitionLoop ops hi pivot fuel perm i j).1.Perm perm ∧
      (partitionLoop ops hi pivot fuel perm i j).2 ≤ hi := by
  induction fuel generalizing perm i j with
  | zero => exact ⟨List.Perm.refl _, hi'⟩
  | succ fuel ih =>
    have hup : scanUp ops perm pivot (hi - i) i ≤ hi := by
      have := scanUp_le ops perm pivot (hi - i) i
      omega
    have hdown : scanDown ops perm pivot j ≤ hi := (scanDown_le ops perm pivot j).trans hj
    simp only [partitionLoop]
    split
    · exact ⟨List.Perm.refl _, hup⟩
    · have hswap := swapAt_perm perm (Nat.lt_of_le_of_lt hup hhi) (Nat.lt_of_le_of_lt hdown hhi)
      obtain ⟨h1, h2⟩ := ih (hswap.length_eq ▸ hhi) hup hdown
      exact ⟨h1.trans hswap, h2⟩

theorem swapIfLt_perm (ops : List ReadOp) {perm : List ℕ} {a b : ℕ} (ha : a < perm.length)
    (hb : b < perm.length) : (swapIfLt ops perm a b).Perm perm := by
  unfold swapIfLt
  split
  · exact swapAt_perm perm ha hb
  · exact List.Perm.refl _

theorem medianOfThree_perm (ops : List ReadOp) {perm : List ℕ} {lo mid hi : ℕ}
    (hlo : lo < perm.length) (hmid : mid < perm.length) (hhi : hi < perm.length) :
    (medianOfThree ops perm lo mid hi).Perm perm := by
  have h1 := swapIfLt_perm ops hlo hmid
  have h2 := (swapIfLt_perm ops (h1.length_eq ▸ hlo) (h1.length_eq ▸ hhi)).trans h1
  have h3 := (swapIfLt_perm ops (h2.length_eq ▸ hmid) (h2.length_eq ▸ hhi)).trans h2
  refine (swapAt_perm _ (h3.length_eq ▸ hmid) ?_).trans h3
  rw [h3.length_eq]
  omega

theorem permPartition_perm (ops : List ReadOp) {perm : List ℕ} {lo hi : ℕ} (hlt : lo < hi)
    (hhi : hi < perm.length) :
    (permPartition ops perm lo hi).1.Perm perm ∧ (permPartition ops perm lo hi).2 ≤ hi := by
  have hmid : lo + (hi - lo) / 2 < perm.length := by omega
  have hmedian := medianOfThree_perm ops (hlt.trans hhi) hmid hhi
  obtain ⟨hpart, hle⟩ := partitionLoop_perm ops (hmedian.length_eq ▸ hhi)
    (Nat.le_of_lt hlt) (Nat.sub_le hi 1)
  have hboth := hpart.trans hmedian
  refine ⟨(swapAt_perm _ ?_ ?_).trans hboth, hle⟩
  · rw [hboth.length_eq]
    exact Nat.lt_of_le_of_lt hle hhi
  · rw [hboth.length_eq]
    omega

theorem permQuicksort_perm (ops : List ReadOp) {fuel lo hi : ℕ} {perm : List ℕ}
    (hhi : hi < perm.length) : (permQuicksort ops fuel perm lo hi).Perm perm := by
  induction fuel generalizing perm lo hi with
  | zero => exact List.Perm.refl _
  | succ fuel ih =>
    rw [permQuicksort]
    split
    · exact List.Perm.refl _
    · split
      · exact permInsertionSort_perm ops hhi
      · rename_i hlt _
        obtain ⟨hpart, hle⟩ := permPartition_perm ops (Nat.lt_of_not_le hlt) hhi
        set p := permPartition ops perm lo hi with hp
        have hlen := hpart.length_eq
        dsimp only
        split
        · have hleft : (if lo + 1 < p.2 then permQuicksort ops fuel p.1 lo (p.2 - 1) else p.1).Perm
              p.1 := by
            split
            · exact ih (by omega)
            · exact List.Perm.refl _
          exact (ih (by rw [hleft.length_eq]; omega)).trans (hleft.trans hpart)
        · have hright : (if p.2 + 1 < hi then permQuicksort ops fuel p.1 (p.2 + 1) hi else p.1).Perm
              p.1 := by
            split
            · exact ih (by omega)
            · exact List.Perm.refl _
          split
          · exact hright.trans hpart
          · exact (ih (by rw [hright.length_eq]; omega)).trans (hright.trans hpart)

/-- **Sorting rearranges the indices.** -/
theorem readOpPermSort_perm (ops : List ReadOp) (perm : List ℕ) :
    (readOpPermSort ops perm).Perm perm := by
  unfold readOpPermSort
  split
  · exact permQuicksort_perm ops (by omega)
  · exact List.Perm.refl _

end Damacy

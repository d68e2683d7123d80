import Mathlib.Data.Nat.SuccPred
import Damacy.Lib.BoundedReads
import Damacy.Executor.ReadOpOrder

/-!
# The sort on the machine (`executor/read_op_sort.c`)

The sort as the machine runs it: indices are 32-bit words that wrap round, and a read or a write
outside of an array, a comparison with a `NULL` path, a loop that does not end and a recursion that
goes too deep are faults. The inner scans of the partition have no bound of their own; that they stop
inside of their range is what `PermMachine.permQuicksort_eq` rests on.

Every loop is given `bound` turns, and `depth` is the number of calls that may be open at once.
-/

open List BoundedReads

namespace Damacy.PermMachine

def store (perm : List ℕ) (i v : ℕ) : Reads (List ℕ) :=
  if i < perm.length then .ok (perm.set i v) else .error .outOfBounds

/-- The comparison of two paths; a path is compared with itself where the pointers are the same, so
that two `NULL` pointers are equal. -/
def comparePaths : Option CString → Option CString → Reads Ordering
  | none, none => .ok .eq
  | some p, some q => .ok (strcmp p q)
  | _, _ => .error .outOfBounds

def permLt (ops : List ReadOp) (a b : ℕ) : Reads Bool := do
  let x ← read ops a
  let y ← read ops b
  match ← comparePaths x.shardPath y.shardPath with
  | .lt => .ok true
  | .gt => .ok false
  | .eq =>
    .ok (if x.fileOffset ≠ y.fileOffset then decide (x.fileOffset < y.fileOffset) else decide (a < b))

/-! ## Insertion sort -/

/-- The inner loop of `perm_insertion_sort`. -/
def insertLoop (ops : List ReadOp) (lo key : ℕ) : (bound j : ℕ) → List ℕ → Reads (List ℕ)
  | 0, _, _ => .error .unbounded
  | bound + 1, j, perm =>
    if lo < j then do
      let previous ← read perm (u32Pred j)
      if ← permLt ops previous key then store perm j key
      else do
        let perm ← store perm j previous
        insertLoop ops lo key bound (u32Pred j) perm
    else store perm j key

/-- The outer loop of `perm_insertion_sort`. -/
def insertionLoop (ops : List ReadOp) (bound lo hi : ℕ) : (turns i : ℕ) → List ℕ → Reads (List ℕ)
  | 0, _, _ => .error .unbounded
  | turns + 1, i, perm =>
    if i ≤ hi then do
      let key ← read perm i
      let perm ← insertLoop ops lo key bound i perm
      insertionLoop ops bound lo hi turns (u32 (i + 1)) perm
    else .ok perm

def permInsertionSort (ops : List ReadOp) (bound : ℕ) (perm : List ℕ) (lo hi : ℕ) : Reads (List ℕ) :=
  insertionLoop ops bound lo hi bound (u32 (lo + 1)) perm

/-! ## Quicksort -/

def swap (perm : List ℕ) (i j : ℕ) : Reads (List ℕ) := do
  let t ← read perm i
  let v ← read perm j
  let perm ← store perm i v
  store perm j t

def swapIfLt (ops : List ReadOp) (perm : List ℕ) (a b : ℕ) : Reads (List ℕ) := do
  let y ← read perm b
  let x ← read perm a
  if ← permLt ops y x then swap perm a b else .ok perm

/-- `while (perm_lt(ops, perm[++i], pivot))`. -/
def scanUp (ops : List ReadOp) (perm : List ℕ) (pivot : ℕ) : (bound i : ℕ) → Reads ℕ
  | 0, _ => .error .unbounded
  | bound + 1, i => do
    let i := u32 (i + 1)
    let x ← read perm i
    if ← permLt ops x pivot then scanUp ops perm pivot bound i else .ok i

/-- `while (perm_lt(ops, pivot, perm[--j]))`. -/
def scanDown (ops : List ReadOp) (perm : List ℕ) (pivot : ℕ) : (bound j : ℕ) → Reads ℕ
  | 0, _ => .error .unbounded
  | bound + 1, j => do
    let j := u32Pred j
    let x ← read perm j
    if ← permLt ops pivot x then scanDown ops perm pivot bound j else .ok j

def partitionLoop (ops : List ReadOp) (bound pivot : ℕ) :
    (turns : ℕ) → List ℕ → (i j : ℕ) → Reads (List ℕ × ℕ)
  | 0, _, _, _ => .error .unbounded
  | turns + 1, perm, i, j => do
    let i ← scanUp ops perm pivot bound i
    let j ← scanDown ops perm pivot bound j
    if j ≤ i then .ok (perm, i)
    else do
      let perm ← swap perm i j
      partitionLoop ops bound pivot turns perm i j

def permPartition (ops : List ReadOp) (bound : ℕ) (perm : List ℕ) (lo hi : ℕ) :
    Reads (List ℕ × ℕ) := do
  let mid := u32 (lo + u32Sub hi lo / 2)
  let perm ← swapIfLt ops perm lo mid
  let perm ← swapIfLt ops perm lo hi
  let perm ← swapIfLt ops perm mid hi
  let pivotIdx := u32Sub hi 1
  let perm ← swap perm mid pivotIdx
  let pivot ← read perm pivotIdx
  let (perm, i) ← partitionLoop ops bound pivot bound perm lo pivotIdx
  let perm ← swap perm i pivotIdx
  .ok (perm, i)

/-- The loop of `perm_quicksort`, with what its recursive calls do. -/
def quicksortLoop (ops : List ReadOp) (bound : ℕ)
    (recurse : List ℕ → (lo hi : ℕ) → Reads (List ℕ)) :
    (turns : ℕ) → List ℕ → (lo hi : ℕ) → Reads (List ℕ)
  | 0, _, _, _ => .error .unbounded
  | turns + 1, perm, lo, hi =>
    if lo < hi then
      if u32Sub hi lo < 16 then permInsertionSort ops bound perm lo hi
      else do
        let (perm, i) ← permPartition ops bound perm lo hi
        if 0 < i ∧ u32Sub (u32Sub i 1) lo < u32Sub hi (u32 (i + 1)) then do
          let perm ← if u32 (lo + 1) < i then recurse perm lo (u32Sub i 1) else .ok perm
          quicksortLoop ops bound recurse turns perm (u32 (i + 1)) hi
        else do
          let perm ← if u32 (i + 1) < hi then recurse perm (u32 (i + 1)) hi else .ok perm
          if i = 0 then .ok perm
          else quicksortLoop ops bound recurse turns perm lo (u32Sub i 1)
    else .ok perm

def permQuicksort (ops : List ReadOp) (bound : ℕ) :
    (depth : ℕ) → List ℕ → (lo hi : ℕ) → Reads (List ℕ)
  | 0, _, _, _ => .error .unbounded
  | depth + 1, perm, lo, hi =>
    quicksortLoop ops bound (permQuicksort ops bound depth) bound perm lo hi

/-- `read_op_perm_sort`, on an array of `n` indices. -/
def readOpPermSort (ops : List ReadOp) (bound depth : ℕ) (perm : List ℕ) : Reads (List ℕ) :=
  if 1 < perm.length then permQuicksort ops bound depth perm 0 (u32Sub perm.length 1) else .ok perm

/-! ## The machine computes the sort -/

section Machine

variable {ops : List ReadOp} {perm : List ℕ} {bound : ℕ}

/-- An array of indices of reads, which a `uint32_t` can count. -/
structure Indexes (ops : List ReadOp) (perm : List ℕ) : Prop where
  valid : ∀ a ∈ perm, a < ops.length
  length : perm.length < 2 ^ 32

theorem Indexes.of_perm {perm' : List ℕ} (h : Indexes ops perm) (hperm : perm'.Perm perm) :
    Indexes ops perm' :=
  ⟨fun a ha => h.valid a (hperm.mem_iff.1 ha), hperm.length_eq ▸ h.length⟩

theorem Indexes.getD (h : Indexes ops perm) {i : ℕ} (hi : i < perm.length) :
    perm.getD i 0 < ops.length := by
  have hget : perm.getD i 0 = perm[i] := by simp [List.getD, hi]
  exact hget ▸ h.valid _ (getElem_mem hi)

theorem read_eq {i : ℕ} (h : i < perm.length) : read perm i = .ok (perm.getD i 0) := by
  simp [BoundedReads.read, List.getD, h]

theorem store_eq {i : ℕ} (h : i < perm.length) (v : ℕ) : store perm i v = .ok (perm.set i v) :=
  if_pos h

theorem swap_eq {i j : ℕ} (hi : i < perm.length) (hj : j < perm.length) :
    swap perm i j = .ok (swapAt perm i j) := by
  rw [swap, read_eq hi, ok_bind, read_eq hj, ok_bind, store_eq hi, ok_bind,
    store_eq (by simpa using hj)]
  rfl

variable (hpaths : ∀ op ∈ ops, op.shardPath ≠ none)

include hpaths

theorem permLt_eq {a b : ℕ} (ha : a < ops.length) (hb : b < ops.length) :
    permLt ops a b = .ok (Damacy.permLt ops a b) := by
  obtain ⟨p, hp⟩ := Option.ne_none_iff_exists'.1 (hpaths _ (getElem_mem ha))
  obtain ⟨q, hq⟩ := Option.ne_none_iff_exists'.1 (hpaths _ (getElem_mem hb))
  have hga : ops.getD a ⟨none, 0, 0⟩ = ops[a] := by simp [List.getD, ha]
  have hgb : ops.getD b ⟨none, 0, 0⟩ = ops[b] := by simp [List.getD, hb]
  have hra : read ops a = .ok ops[a] := by simp [BoundedReads.read, ha]
  have hrb : read ops b = .ok ops[b] := by simp [BoundedReads.read, hb]
  unfold permLt Damacy.permLt
  simp only [hra, hrb, ok_bind, hp, hq, comparePaths, hga, hgb, Option.getD_some]
  cases strcmp p q <;> rfl

/-! ### Insertion sort -/

theorem insertLoop_eq {lo key j : ℕ} (h : Indexes ops perm) (hkey : key < ops.length) (hlo : lo ≤ j)
    (hj : j < perm.length) (hbound : j - lo < bound) :
    insertLoop ops lo key bound j perm = .ok (Damacy.insertLoop ops lo key j perm) := by
  induction j generalizing bound perm with
  | zero =>
    obtain ⟨bound, rfl⟩ := Nat.exists_eq_succ_of_ne_zero (show bound ≠ 0 by omega)
    rw [insertLoop, if_neg (by omega), store_eq hj]
    rfl
  | succ j ih =>
    obtain ⟨bound, rfl⟩ := Nat.exists_eq_succ_of_ne_zero (show bound ≠ 0 by omega)
    rw [insertLoop, Damacy.insertLoop]
    by_cases hlt : lo < j + 1
    · rw [if_pos hlt, u32Pred_succ, read_eq (by omega), ok_bind,
        permLt_eq hpaths (h.getD (by omega)) hkey, ok_bind]
      cases hless : Damacy.permLt ops (perm.getD j 0) key with
      | true =>
        rw [if_pos rfl, if_neg (by simp), store_eq hj]
      | false =>
        rw [if_neg (by simp), if_pos ⟨hlt, rfl⟩, store_eq hj, ok_bind]
        refine ih ⟨fun a ha => ?_, by simpa using h.length⟩ (by omega) (by simp; omega) (by omega)
        rcases mem_or_eq_of_mem_set ha with ha | rfl
        · exact h.valid a ha
        · exact h.getD (by omega)
    · rw [if_neg hlt, if_neg (fun h => hlt h.1), store_eq hj]

theorem insertionLoop_eq {lo hi i turns : ℕ} (h : Indexes ops perm) (hlo : lo ≤ i)
    (hile : i ≤ hi + 1) (hhi : hi < perm.length) (hturns : hi + 1 - i < turns)
    (hbound : hi - lo < bound) : insertionLoop ops bound lo hi turns i perm =
      .ok ((List.range' i (hi + 1 - i)).foldl
        (fun perm i => Damacy.insertLoop ops lo (perm.getD i 0) i perm) perm) := by
  induction turns generalizing i perm with
  | zero => omega
  | succ turns ih =>
    have hlen := h.length
    rw [insertionLoop]
    by_cases hin : i ≤ hi
    · have hperm := insertLoop_getD_perm ops lo (show i < perm.length by omega)
      rw [if_pos hin, read_eq (by omega), ok_bind,
        insertLoop_eq hpaths h (h.getD (by omega)) hlo (by omega) (by omega), ok_bind,
        u32_of_lt (by omega), ih (h.of_perm hperm) (by omega) (by omega)
          (hperm.length_eq ▸ hhi) (by omega),
        show hi + 1 - i = hi + 1 - (i + 1) + 1 by omega, List.range'_succ, foldl_cons]
    · rw [if_neg hin, show hi + 1 - i = 0 by omega]
      rfl

theorem permInsertionSort_eq {lo hi : ℕ} (h : Indexes ops perm) (hlo : lo ≤ hi)
    (hhi : hi < perm.length) (hbound : perm.length < bound) :
    permInsertionSort ops bound perm lo hi = .ok (Damacy.permInsertionSort ops perm lo hi) := by
  have hlen := h.length
  rw [permInsertionSort, u32_of_lt (by omega), insertionLoop_eq hpaths h (by omega) (by omega) hhi
    (by omega) (by omega), Damacy.permInsertionSort, Nat.add_sub_add_right]

/-! ### Partition -/

theorem swapIfLt_eq {a b : ℕ} (h : Indexes ops perm) (ha : a < perm.length) (hb : b < perm.length) :
    swapIfLt ops perm a b = .ok (Damacy.swapIfLt ops perm a b) := by
  rw [swapIfLt, read_eq hb, ok_bind, read_eq ha, ok_bind, permLt_eq hpaths (h.getD hb) (h.getD ha),
    ok_bind, swap_eq ha hb, Damacy.swapIfLt]
  split_ifs <;> rfl

theorem scanUp_eq {pivot i stop fuel : ℕ} (h : Indexes ops perm) (hpivot : pivot < ops.length)
    (hlt : i < stop) (hstop : stop < perm.length)
    (hkey : opKey ops pivot ≤ opKey ops (perm.getD stop 0)) (hfuel : stop ≤ i + fuel)
    (hbound : stop ≤ i + bound) :
    scanUp ops perm pivot bound i = .ok (Damacy.scanUp ops perm pivot fuel i) := by
  induction bound generalizing i fuel with
  | zero => omega
  | succ bound ih =>
    obtain ⟨fuel, rfl⟩ := Nat.exists_eq_succ_of_ne_zero (show fuel ≠ 0 by omega)
    have hlen := h.length
    rw [scanUp, Damacy.scanUp, u32_of_lt (by omega), read_eq (by omega), ok_bind,
      permLt_eq hpaths (h.getD (by omega)) hpivot, ok_bind]
    split_ifs with hbelow
    · -- the entry at `stop` is not below the pivot
      have hne : i + 1 ≠ stop := by
        rintro rfl
        exact absurd ((permLt_iff ops _ _).1 hbelow) (not_lt.2 hkey)
      exact ih (by omega) (by omega) (by omega)
    · rfl

theorem scanDown_eq {pivot j stop : ℕ} (h : Indexes ops perm) (hpivot : pivot < ops.length)
    (hlt : stop < j) (hj : j ≤ perm.length)
    (hkey : opKey ops (perm.getD stop 0) ≤ opKey ops pivot) (hbound : j ≤ stop + bound) :
    scanDown ops perm pivot bound j = .ok (Damacy.scanDown ops perm pivot j) := by
  induction bound generalizing j with
  | zero => omega
  | succ bound ih =>
    obtain ⟨j, rfl⟩ := Nat.exists_eq_succ_of_ne_zero (show j ≠ 0 by omega)
    rw [scanDown, Damacy.scanDown, u32Pred_succ, read_eq (by omega), ok_bind,
      permLt_eq hpaths hpivot (h.getD (by omega)), ok_bind]
    split_ifs with habove
    · have hne : stop ≠ j := by
        rintro rfl
        exact absurd ((permLt_iff ops _ _).1 habove) (not_lt.2 hkey)
      exact ih (by omega) (by omega) (by omega)
    · rfl

theorem partitionLoop_eq {lo hi pivot i j turns fuel : ℕ} (h : Indexes ops perm)
    (hpivot : pivot < ops.length) (hs : Splits ops lo hi pivot perm i j) (hturns : j - i ≤ turns)
    (hfuel : j - i ≤ fuel) (hbound : perm.length < bound) :
    partitionLoop ops bound pivot turns perm i j =
      .ok (Damacy.partitionLoop ops hi pivot fuel perm i j) := by
  induction turns generalizing perm i j fuel with
  | zero =>
    have := hs.lt
    omega
  | succ turns ih =>
    have h1 := hs.lt
    have h2 := hs.lt_hi
    have h3 := hs.length
    obtain ⟨fuel, rfl⟩ := Nat.exists_eq_succ_of_ne_zero (show fuel ≠ 0 by omega)
    have hup := @scanUp_eq ops perm bound hpaths pivot i j (hi - i) h hpivot h1 (by omega)
      (hs.above j le_rfl h2.le) (by omega) (by omega)
    have hdown := @scanDown_eq ops perm bound hpaths pivot j i h hpivot h1 (by omega)
      (hs.below i hs.lo_le le_rfl) (by omega)
    have hstops := hs.stops
    have h4 := hstops.up_le
    have h5 := hstops.down_lt
    have h6 := hstops.lt_up
    rw [partitionLoop, hup, ok_bind, hdown, ok_bind, Damacy.partitionLoop]
    split_ifs with hbreak
    · rfl
    · have hperm := swapAt_perm perm
        (show Damacy.scanUp ops perm pivot (hi - i) i < perm.length by omega)
        (show Damacy.scanDown ops perm pivot j < perm.length by omega)
      rw [swap_eq (by omega) (by omega), ok_bind]
      exact ih (h.of_perm hperm) (hstops.splits hs (by omega)) (by omega) (by omega)
        (hperm.length_eq ▸ hbound)

/-- **The partition stays in its range**: the sentinels of the median of three stop its scans. -/
theorem permPartition_eq {lo hi : ℕ} (h : Indexes ops perm) (hlo : lo + 16 ≤ hi)
    (hhi : hi < perm.length) (hbound : perm.length < bound) :
    permPartition ops bound perm lo hi = .ok (Damacy.permPartition ops perm lo hi) := by
  have hlen := h.length
  have hmid : lo < lo + (hi - lo) / 2 ∧ lo + (hi - lo) / 2 < hi - 1 := by omega
  have hword : u32 (lo + u32Sub hi lo / 2) = lo + (hi - lo) / 2 := by
    rw [u32Sub_of_le (by omega) (by omega), u32_of_lt (by omega)]
  have hp1 := swapIfLt_perm ops (show lo < perm.length by omega)
    (show lo + (hi - lo) / 2 < perm.length by omega)
  set perm1 := Damacy.swapIfLt ops perm lo (lo + (hi - lo) / 2) with hperm1
  have hl1 := hp1.length_eq
  have hp2 := swapIfLt_perm ops (show lo < perm1.length by omega) (show hi < perm1.length by omega)
  set perm2 := Damacy.swapIfLt ops perm1 lo hi with hperm2
  have hl2 := hp2.length_eq
  have hp3 := swapIfLt_perm ops (show lo + (hi - lo) / 2 < perm2.length by omega)
    (show hi < perm2.length by omega)
  set perm3 := Damacy.swapIfLt ops perm2 (lo + (hi - lo) / 2) hi with hperm3
  have hl3 := hp3.length_eq
  have hp4 := swapAt_perm perm3 (show lo + (hi - lo) / 2 < perm3.length by omega)
    (show hi - 1 < perm3.length by omega)
  have hl4 := hp4.length_eq
  have h1 := h.of_perm hp1
  have h2 := h1.of_perm hp2
  have h4 := (h2.of_perm hp3).of_perm hp4
  have hmedian : medianOfThree ops perm lo (lo + (hi - lo) / 2) hi =
      swapAt perm3 (lo + (hi - lo) / 2) (hi - 1) := rfl
  have hsplits := @splits_medianOfThree ops lo hi perm hlo hhi
  have hsplit := partitionLoop_split (hi - lo) hsplits (by omega)
  rw [hmedian] at hsplits hsplit
  have hl5 := hsplit.rearranges.length_eq
  have hlt := hsplit.lt_hi
  rw [permPartition]
  simp only [hword]
  rw [swapIfLt_eq hpaths h (by omega) (by omega), ok_bind, ← hperm1,
    swapIfLt_eq hpaths h1 (by omega) (by omega), ok_bind, ← hperm2,
    swapIfLt_eq hpaths h2 (by omega) (by omega), ok_bind, ← hperm3,
    u32Sub_of_le (by omega) (by omega), swap_eq (by omega) (by omega), ok_bind, read_eq (by omega),
    ok_bind, partitionLoop_eq hpaths h4 (h4.getD (by omega)) hsplits (by omega)
      (show hi - 1 - lo ≤ hi - lo by omega) (by omega), ok_bind, swap_eq (by omega) (by omega),
    ok_bind]
  rfl

/-! ### Quicksort -/

/-- The loop of the quicksort, where the recursive calls sort every range of less than half the size
that `size` allows. -/
theorem quicksortLoop_eq {recurse : List ℕ → (lo hi : ℕ) → Reads (List ℕ)} {size : ℕ}
    (hrec : ∀ {perm lo hi fuel}, Indexes ops perm → hi < perm.length → perm.length < bound →
      hi + 1 ≤ lo + fuel → lo < hi → hi + 1 - lo < size →
        recurse perm lo hi = .ok (Damacy.permQuicksort ops fuel perm lo hi))
    {turns fuel lo hi : ℕ} (h : Indexes ops perm) (hhi : hi < perm.length)
    (hbound : perm.length < bound) (hfuel : hi + 1 ≤ lo + fuel) (hturns : hi + 1 ≤ lo + turns)
    (hpos : 0 < turns) (hsize : hi + 1 - lo < 2 * size) :
    quicksortLoop ops bound recurse turns perm lo hi =
      .ok (Damacy.permQuicksort ops fuel perm lo hi) := by
  induction turns generalizing perm lo hi fuel with
  | zero => omega
  | succ turns ih =>
    have hlen := h.length
    rw [quicksortLoop]
    rcases fuel with _ | fuel
    · rw [if_neg (by omega)]
      rfl
    · rw [Damacy.permQuicksort]
      by_cases hlt : lo < hi
      · rw [if_pos hlt, if_neg (not_le.2 hlt), u32Sub_of_le hlt.le (by omega)]
        by_cases hshort : hi - lo < 16
        · rw [if_pos hshort, if_pos hshort, permInsertionSort_eq hpaths h hlt.le hhi hbound]
        · obtain ⟨hr, hlo, -, hi'⟩ := permPartition_partitioned ops (show lo + 16 ≤ hi by omega) hhi
          rw [if_neg hshort, if_neg hshort, permPartition_eq hpaths h (by omega) hhi hbound, ok_bind]
          have hp := h.of_perm hr.perm
          have hplen := hr.length_eq
          set p := Damacy.permPartition ops perm lo hi
          dsimp only
          rw [u32_of_lt (show p.2 + 1 < 2 ^ 32 by omega), u32_of_lt (show lo + 1 < 2 ^ 32 by omega),
            u32Sub_of_le (show 1 ≤ p.2 by omega) (by omega),
            u32Sub_of_le (show lo ≤ p.2 - 1 by omega) (by omega),
            u32Sub_of_le (show p.2 + 1 ≤ hi by omega) (by omega)]
          simp only [if_neg (show p.2 ≠ 0 by omega)]
          -- the call gets the smaller part, the loop goes on with the larger one
          split_ifs with hsmall hleft hright
          · rw [hrec hp (by omega) (by omega) (show p.2 - 1 + 1 ≤ lo + fuel by omega) (by omega)
              (by omega), ok_bind]
            have hperm := @permQuicksort_perm ops fuel lo (p.2 - 1) p.1 (by omega)
            have hl := hperm.length_eq
            exact ih (hp.of_perm hperm) (by omega) (by omega) (by omega) (by omega) (by omega)
              (by omega)
          · exact ih hp (by omega) (by omega) (by omega) (by omega) (by omega) (by omega)
          · rw [hrec hp (by omega) (by omega) (show hi + 1 ≤ p.2 + 1 + fuel by omega) (by omega)
              (by omega), ok_bind]
            have hperm := @permQuicksort_perm ops fuel (p.2 + 1) hi p.1 (by omega)
            have hl := hperm.length_eq
            exact ih (hp.of_perm hperm) (by omega) (by omega) (by omega) (by omega) (by omega)
              (by omega)
          · exact ih hp (by omega) (by omega) (by omega) (by omega) (by omega) (by omega)
      · rw [if_neg hlt, if_pos (not_lt.1 hlt)]

/-- **`perm_quicksort` runs without a fault** on every range of fewer than `2 ^ depth` entries. -/
theorem permQuicksort_eq {depth fuel lo hi : ℕ} (h : Indexes ops perm) (hhi : hi < perm.length)
    (hbound : perm.length < bound) (hfuel : hi + 1 ≤ lo + fuel) (hlt : lo < hi)
    (hdepth : hi + 1 - lo < 2 ^ depth) :
    permQuicksort ops bound depth perm lo hi = .ok (Damacy.permQuicksort ops fuel perm lo hi) := by
  induction depth generalizing perm lo hi fuel with
  | zero => omega
  | succ depth ih =>
    rw [permQuicksort]
    refine quicksortLoop_eq hpaths ih h hhi hbound hfuel (by omega) (by omega) ?_
    rwa [← pow_succ']

end Machine

/-- The order of two reads: by path, by offset where the paths are the same, and by index. -/
def Precedes (ops : List ReadOp) (a b : ℕ) : Prop :=
  let x := ops.getD a ⟨none, 0, 0⟩
  let y := ops.getD b ⟨none, 0, 0⟩
  strcmp (x.shardPath.getD []) (y.shardPath.getD []) = .lt ∨
    strcmp (x.shardPath.getD []) (y.shardPath.getD []) = .eq ∧
      (x.fileOffset < y.fileOffset ∨ x.fileOffset = y.fileOffset ∧ a < b)

theorem precedes_iff (ops : List ReadOp) (a b : ℕ) : Precedes ops a b ↔ opKey ops a < opKey ops b := by
  simp only [Precedes, opKey, Prod.Lex.toLex_lt_toLex, strcmp_lt_iff, strcmp_eq_iff, pathKey_inj]

/-- **`read_op_perm_sort` sorts.** On reads with paths and distinct indices of them it ends without a
fault: no access is outside of the array, and no more than `log2 n + 1` calls are open at once. What
it leaves is a rearrangement of the indices in increasing order. -/
theorem readOpPermSort_sorted {ops : List ReadOp} {perm : List ℕ}
    (hpaths : ∀ op ∈ ops, op.shardPath ≠ none) (hvalid : ∀ a ∈ perm, a < ops.length)
    (hnodup : perm.Nodup) (hn : perm.length < 2 ^ 32) :
    ∃ sorted, readOpPermSort ops (perm.length + 1) (Nat.log2 perm.length + 1) perm = .ok sorted ∧
      sorted = Damacy.readOpPermSort ops perm ∧ sorted.Perm perm ∧ sorted.Pairwise (Precedes ops) := by
  have hsorts := readOpPermSort_sorts ops perm
  refine ⟨Damacy.readOpPermSort ops perm, ?_, rfl, hsorts.perm, ?_⟩
  · rw [readOpPermSort, Damacy.readOpPermSort]
    split_ifs with hlong
    · rw [u32Sub_of_le (by omega) hn]
      refine permQuicksort_eq hpaths ⟨hvalid, hn⟩ (by omega) (by omega) (by omega) (by omega) ?_
      rw [Nat.sub_add_cancel (by omega), Nat.sub_zero]
      exact Nat.lt_log2_self
    · rfl
  · refine (hsorts.pairwise (hnodup.map (opKey_injective ops))).imp ?_
    intro a b hlt
    exact (precedes_iff ops a b).2 hlt

/-- Twenty reads of one shard, read in steps of seven: too many for insertion sort alone, so the
scans of the partition run. -/
theorem readOpPermSort_sorted_twenty :
    let ops : List ReadOp := (List.range 20).map fun i => ⟨some [0x61], 7 * i % 20, 1⟩
    let sorted := (List.range 20).map fun k => 3 * k % 20
    readOpPermSort ops 21 5 (List.range 20) = .ok sorted ∧ sorted.Pairwise (Precedes ops) := by
  intro ops sorted
  obtain ⟨sorted', hrun, heq, -, hpairwise⟩ := @readOpPermSort_sorted ops (List.range 20)
    (by decide) (by decide) (by decide) (by decide)
  have hsorted : Damacy.readOpPermSort ops (List.range 20) = sorted := by decide +kernel
  have hdepth : Nat.log2 20 + 1 = 5 := by decide +kernel
  rw [length_range, hdepth, heq, hsorted] at hrun
  rw [heq, hsorted] at hpairwise
  exact ⟨hrun, hpairwise⟩

end Damacy.PermMachine

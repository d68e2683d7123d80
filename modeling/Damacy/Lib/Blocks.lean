import Mathlib.Data.List.Basic
import Mathlib.Tactic.Ring

/-!
# Lists cut into blocks

A transformation of fixed-size blocks, the last of which may be shorter, is applied to a list block by
block. If it keeps the length of every block, position `j * size + i` of the result is position `i`
of the transformed block `j`.

`transpose` is the transformation behind shuffle filters: a block of records, each of `width`
entries, is rearranged so that the first entries of all records come first, then the second ones, and
so on.
-/

open List

namespace Blocks

variable {α β : Type*}

def block (size j : ℕ) (l : List α) : List α := (l.drop (j * size)).take size

def mapBlocks (f : List α → List β) (size : ℕ) : (n : ℕ) → List α → List β
  | 0, _ => []
  | n + 1, l => f (l.take size) ++ mapBlocks f size n (l.drop size)

theorem length_block (size j : ℕ) (l : List α) :
    (block size j l).length = min size (l.length - j * size) := by
  rw [block, length_take, length_drop]

theorem getElem?_block {size j i : ℕ} (l : List α) (hi : i < size) :
    (block size j l)[i]? = l[j * size + i]? := by
  rw [block, getElem?_take_of_lt hi, getElem?_drop]

theorem getElem?_mapBlocks {f : List α → List β} (hf : ∀ l, (f l).length = l.length) {size : ℕ} :
    ∀ {n j i : ℕ} {l : List α}, j < n → i < (block size j l).length →
      (mapBlocks f size n l)[j * size + i]? = (f (block size j l))[i]? := by
  intro n
  induction n with
  | zero => omega
  | succ n ih =>
    intro j i l hj hi
    rw [mapBlocks]
    cases j with
    | zero =>
      rw [block, Nat.zero_mul, drop_zero] at hi ⊢
      rw [Nat.zero_add, getElem?_append_left (by rwa [hf])]
    | succ j =>
      have hblock : block size (j + 1) l = block size j (l.drop size) := by
        rw [block, block, drop_drop, Nat.succ_mul, Nat.add_comm]
      have hfull : (f (l.take size)).length = size := by
        rw [length_block] at hi
        have hle : size ≤ (j + 1) * size := Nat.le_mul_of_pos_left _ (Nat.succ_pos j)
        rw [hf, length_take]
        omega
      rw [hblock] at hi ⊢
      rw [getElem?_append_right (by rw [hfull, Nat.succ_mul]; omega), hfull, ← ih (by omega) hi,
        Nat.succ_mul]
      congr 1
      omega

/-! ## Transposition -/

/-- The records of a block, entry by entry; an incomplete record at the end stays where it is. -/
def transpose [Inhabited α] (width : ℕ) (l : List α) : List α :=
  let n := l.length / width
  ((List.range (width * n)).map fun p => l.getD (p % n * width + p / n) default) ++
    l.drop (width * n)

theorem length_transpose [Inhabited α] (width : ℕ) (l : List α) :
    (transpose width l).length = l.length := by
  have := Nat.mul_div_le l.length width
  simp only [transpose, length_append, length_map, length_range, length_drop]
  omega

theorem getElem?_transpose [Inhabited α] {width n t e : ℕ} {l : List α} (hlen : l.length = n * width)
    (ht : t < width) (he : e < n) : (transpose width l)[t * n + e]? = l[e * width + t]? := by
  have hn : l.length / width = n := by rw [hlen, Nat.mul_div_cancel _ (by omega)]
  have hlt : t * n + e < width * n := by
    calc t * n + e < t * n + n := by omega
      _ = (t + 1) * n := by ring
      _ ≤ width * n := Nat.mul_le_mul_right n ht
  have hlt' : e * width + t < l.length := by
    calc e * width + t < e * width + width := by omega
      _ = (e + 1) * width := by ring
      _ ≤ n * width := Nat.mul_le_mul_right width he
      _ = l.length := hlen.symm
  have hmod : (t * n + e) % n = e := by
    rw [Nat.mul_comm, Nat.mul_add_mod, Nat.mod_eq_of_lt he]
  have hdiv : (t * n + e) / n = t := by
    rw [Nat.mul_comm, Nat.mul_add_div (by omega), Nat.div_eq_of_lt he, Nat.add_zero]
  rw [transpose, hn]
  rw [getElem?_append_left (by simpa using hlt), getElem?_map, getElem?_range hlt,
    Option.map_some, hmod, hdiv, List.getD, getElem?_eq_getElem hlt', Option.getD_some]

end Blocks

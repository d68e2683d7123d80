import Mathlib.Data.List.Basic
import Mathlib.Data.Nat.Bitwise
import Mathlib.Data.Nat.ModEq

/-!
# Ring buffers with free-running indices

`head` and `tail` only ever count up; position `p` lives in cell `p &&& (cap - 1)` of a buffer whose
capacity is a power of two. `Holds ring head tail xs` says that the positions from `tail` to `head`
hold the elements `xs`, oldest first. Writing at `head` appends, reading at `tail` removes the oldest
element, and a larger buffer that received the elements in order from its first cell holds the same
ones.
-/

open List

namespace RingBuffer

variable {α : Type*}

def slot (cap p : ℕ) : ℕ := p &&& (cap - 1)

def cell (ring : List (Option α)) (p : ℕ) : Option α := (ring[slot ring.length p]?).join

/-- The positions from `tail` up to `head` hold `xs`. -/
structure Holds (ring : List (Option α)) (head tail : ℕ) (xs : List α) : Prop where
  cap : ∃ k, ring.length = 2 ^ k
  head_eq : head = tail + xs.length
  fits : xs.length ≤ ring.length
  cells : ∀ i x, xs[i]? = some x → cell ring (tail + i) = some x

theorem slot_two_pow (k p : ℕ) : slot (2 ^ k) p = p % 2 ^ k := Nat.and_two_pow_sub_one_eq_mod p k

variable {ring : List (Option α)} {head tail : ℕ} {x : α} {xs : List α}

theorem Holds.slot_eq (h : Holds ring head tail xs) (p : ℕ) :
    slot ring.length p = p % ring.length := by
  obtain ⟨k, hk⟩ := h.cap
  rw [hk, slot_two_pow]

theorem Holds.cap_pos (h : Holds ring head tail xs) : 0 < ring.length := by
  obtain ⟨k, hk⟩ := h.cap
  rw [hk]
  exact Nat.two_pow_pos k

theorem Holds.empty_iff (h : Holds ring head tail xs) : head = tail ↔ xs = [] := by
  rw [h.head_eq, ← length_eq_zero_iff]
  omega

theorem holds_replicate {n k : ℕ} (hn : n = 2 ^ k) :
    Holds (List.replicate n (none : Option α)) 0 0 [] where
  cap := ⟨k, by rw [length_replicate, hn]⟩
  head_eq := rfl
  fits := Nat.zero_le _
  cells := by simp

theorem Holds.front (h : Holds ring head tail (x :: xs)) : cell ring tail = some x :=
  h.cells 0 x rfl

theorem Holds.pop (h : Holds ring head tail (x :: xs)) : Holds ring head (tail + 1) xs where
  cap := h.cap
  head_eq := by rw [h.head_eq, length_cons]; omega
  fits := (Nat.le_succ _).trans h.fits
  cells i y hy := by
    rw [Nat.add_assoc, Nat.add_comm 1 i]
    exact h.cells (i + 1) y hy

theorem Holds.slot_ne (h : Holds ring head tail xs) {i : ℕ} (hi : i < xs.length)
    (hfull : xs.length < ring.length) : slot ring.length (tail + i) ≠ slot ring.length head := by
  rw [h.slot_eq, h.slot_eq, h.head_eq]
  intro heq
  have hdvd := (Nat.modEq_iff_dvd' (by omega : tail + i ≤ tail + xs.length)).mp heq
  have hle := Nat.le_of_dvd (by omega) hdvd
  omega

theorem Holds.push (h : Holds ring head tail xs) (hfull : xs.length < ring.length) (x : α) :
    Holds (ring.set (slot ring.length head) (some x)) (head + 1) tail (xs ++ [x]) where
  cap := by simpa using h.cap
  head_eq := by rw [h.head_eq, length_append, length_singleton]; omega
  fits := by rwa [length_append, length_set]
  cells i y hy := by
    have hslot : slot ring.length head < ring.length := by
      rw [h.slot_eq]
      exact Nat.mod_lt _ h.cap_pos
    rw [cell, length_set]
    by_cases hi : i < xs.length
    · rw [getElem?_append_left hi] at hy
      rw [getElem?_set_ne (h.slot_ne hi hfull).symm]
      exact h.cells i y hy
    · have hlast : i = xs.length := by
        have := (List.getElem?_eq_some_iff.mp hy).1
        rw [length_append, length_singleton] at this
        omega
      subst hlast
      rw [getElem?_append_right le_rfl, Nat.sub_self] at hy
      rw [← h.head_eq, getElem?_set_self hslot]
      exact hy

theorem Holds.grow (h : Holds ring head tail xs) {rest : List (Option α)}
    (hlen : (xs.map some ++ rest).length = 2 * ring.length) :
    Holds (xs.map some ++ rest) xs.length 0 xs where
  cap := by
    obtain ⟨k, hk⟩ := h.cap
    exact ⟨k + 1, by rw [hlen, hk, Nat.pow_succ']⟩
  head_eq := (Nat.zero_add _).symm
  fits := by rw [hlen]; exact h.fits.trans (Nat.le_mul_of_pos_left _ Nat.two_pos)
  cells i y hy := by
    have hi := (List.getElem?_eq_some_iff.mp hy).1
    have hcap := h.fits
    obtain ⟨k, hk⟩ := h.cap
    rw [cell, hlen, hk, ← Nat.pow_succ', slot_two_pow, Nat.zero_add, Nat.mod_eq_of_lt,
      getElem?_append_left (by simpa using hi), getElem?_map, hy]
    · rfl
    · rw [Nat.pow_succ', ← hk]
      omega

theorem Holds.map_cell (h : Holds ring head tail xs) :
    (List.range (head - tail)).map (fun i => cell ring (tail + i)) = xs.map some := by
  apply ext_getElem?
  intro i
  rw [h.head_eq, Nat.add_sub_cancel_left, getElem?_map, getElem?_map]
  by_cases hi : i < xs.length
  · rw [getElem?_range hi, Option.map_some, getElem?_eq_getElem hi, Option.map_some,
      h.cells i xs[i] (getElem?_eq_getElem hi)]
  · rw [getElem?_eq_none (by simpa using hi), getElem?_eq_none (by simpa using hi)]
    rfl

end RingBuffer

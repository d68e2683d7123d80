import Mathlib.Data.List.Forall2
import Mathlib.Data.Nat.SuccPred
import Mathlib.Tactic.Ring

/-!
# Row-major offsets

A coordinate of a box with extents `n₀, n₁, …` is numbered in row-major order by Horner's rule,
`((c₀ · n₁ + c₁) · n₂ + c₂) · …`, or equivalently by the inner product of the coordinate with the
strides of the box. This module has both forms, and shows that the numbering is a bijection between
the coordinates of the box and the numbers below its size.
-/

open List

namespace RowMajor

/-- Horner accumulation of `coord` in the mixed radix `shape`, most significant digit first,
starting from `acc`. -/
def ravelFrom : ℕ → List ℕ → List ℕ → ℕ
  | acc, n :: shape, c :: coord => ravelFrom (acc * n + c) shape coord
  | acc, _, _ => acc

def ravel (shape coord : List ℕ) : ℕ := ravelFrom 0 shape coord

/-- The strides of a box: entry `d` is the product of the extents after `d`. -/
def strides : List ℕ → List ℕ
  | [] => []
  | _ :: shape => shape.prod :: strides shape

def dot (xs ys : List ℕ) : ℕ := (List.zipWith (· * ·) xs ys).sum

@[simp] theorem ravel_nil (shape : List ℕ) : ravel shape [] = 0 := by
  cases shape <;> rfl

@[simp] theorem dot_nil (xs : List ℕ) : dot xs [] = 0 := by
  simp [dot]

@[simp] theorem dot_cons (x y : ℕ) (xs ys : List ℕ) :
    dot (x :: xs) (y :: ys) = x * y + dot xs ys := by
  simp [dot]

@[simp] theorem length_strides (shape : List ℕ) : (strides shape).length = shape.length := by
  induction shape with
  | nil => rfl
  | cons n shape ih => simp [strides, ih]

theorem ravelFrom_eq (acc : ℕ) {shape coord : List ℕ} (h : coord.length = shape.length) :
    ravelFrom acc shape coord = acc * shape.prod + ravel shape coord := by
  induction shape generalizing acc coord with
  | nil =>
    obtain rfl := length_eq_zero_iff.mp h
    simp [ravelFrom]
  | cons n shape ih =>
    obtain ⟨c, coord, rfl⟩ := exists_cons_of_length_eq_add_one h
    have hl : coord.length = shape.length := by simpa using h
    simp only [ravel, ravelFrom]
    rw [ih _ hl, ih _ hl, prod_cons]
    ring

theorem ravel_cons (n c : ℕ) {shape coord : List ℕ} (h : coord.length = shape.length) :
    ravel (n :: shape) (c :: coord) = c * shape.prod + ravel shape coord := by
  rw [ravel, ravelFrom, ravelFrom_eq _ h, Nat.zero_mul, Nat.zero_add]

theorem ravelFrom_concat (acc n c : ℕ) {shape coord : List ℕ} (h : coord.length = shape.length) :
    ravelFrom acc (shape ++ [n]) (coord ++ [c]) = ravelFrom acc shape coord * n + c := by
  induction shape generalizing acc coord with
  | nil =>
    obtain rfl := length_eq_zero_iff.mp h
    rfl
  | cons m shape ih =>
    obtain ⟨d, coord, rfl⟩ := exists_cons_of_length_eq_add_one h
    exact ih _ (by simpa using h)

theorem dot_strides {shape coord : List ℕ} (h : coord.length = shape.length) :
    dot coord (strides shape) = ravel shape coord := by
  induction shape generalizing coord with
  | nil =>
    obtain rfl := length_eq_zero_iff.mp h
    simp [strides]
  | cons n shape ih =>
    obtain ⟨c, coord, rfl⟩ := exists_cons_of_length_eq_add_one h
    have hl : coord.length = shape.length := by simpa using h
    rw [strides, dot_cons, ih hl, ravel_cons _ _ hl]

theorem ravel_lt {shape coord : List ℕ} (h : List.Forall₂ (· < ·) coord shape) :
    ravel shape coord < shape.prod := by
  induction h with
  | nil => simp
  | @cons c n coord shape hc h ih =>
    rw [ravel_cons _ _ h.length_eq, prod_cons]
    calc c * shape.prod + ravel shape coord < c * shape.prod + shape.prod := by omega
      _ = (c + 1) * shape.prod := by ring
      _ ≤ n * shape.prod := Nat.mul_le_mul_right _ hc

theorem exists_ravel_eq {shape : List ℕ} {off : ℕ} (h : off < shape.prod) :
    ∃ coord, List.Forall₂ (· < ·) coord shape ∧ ravel shape coord = off := by
  induction shape generalizing off with
  | nil =>
    rw [prod_nil] at h
    exact ⟨[], .nil, by simp; omega⟩
  | cons n shape ih =>
    rw [prod_cons] at h
    have hpos : 0 < shape.prod := Nat.pos_of_mul_pos_left (Nat.zero_lt_of_lt h)
    obtain ⟨coord, hlt, heq⟩ := ih (Nat.mod_lt off hpos)
    refine ⟨off / shape.prod :: coord, .cons ?_ hlt, ?_⟩
    · exact (Nat.div_lt_iff_lt_mul hpos).mpr h
    · rw [ravel_cons _ _ hlt.length_eq, heq]
      exact Nat.div_add_mod' off shape.prod

theorem ravel_inj {shape coord coord' : List ℕ} (h : List.Forall₂ (· < ·) coord shape)
    (h' : List.Forall₂ (· < ·) coord' shape) (heq : ravel shape coord = ravel shape coord') :
    coord = coord' := by
  induction h generalizing coord' with
  | nil =>
    cases h'
    rfl
  | @cons c n coord shape hc h ih =>
    obtain _ | ⟨hc', h'⟩ := h'
    rename_i c' coord'
    rw [ravel_cons _ _ h.length_eq, ravel_cons _ _ h'.length_eq] at heq
    have hlt := ravel_lt h
    have hlt' := ravel_lt h'
    -- quotient and remainder by the size of the inner box give the two parts back
    have hq : c = c' := by
      have := congrArg (· / shape.prod) heq
      simpa [Nat.mul_comm _ shape.prod, Nat.mul_add_div (Nat.zero_lt_of_lt hlt),
        Nat.div_eq_of_lt hlt, Nat.div_eq_of_lt hlt'] using this
    subst hq
    rw [ih h' (by omega)]

theorem ravelFrom_inj {shape coord coord' : List ℕ} {acc acc' : ℕ}
    (h : List.Forall₂ (· < ·) coord shape) (h' : List.Forall₂ (· < ·) coord' shape)
    (heq : ravelFrom acc shape coord = ravelFrom acc' shape coord') : acc = acc' ∧ coord = coord' := by
  have hmax : acc < max acc acc' + 1 ∧ acc' < max acc acc' + 1 := by omega
  have hcons := ravel_inj (.cons hmax.1 h) (.cons hmax.2 h') (by simpa [ravel, ravelFrom] using heq)
  exact cons_eq_cons.mp hcons

end RowMajor

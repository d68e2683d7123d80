import Mathlib.Algebra.BigOperators.Group.List.Basic
import Mathlib.Algebra.Order.Ring.Nat
import Mathlib.Data.Set.BooleanAlgebra
import Mathlib.Order.CompletePartialOrder

/-!
# Packing windows one after another

Windows of sizes `n 0, n 1, …` are placed one after another from `0`: window `i` starts at the sum
of the sizes before it. They are disjoint and cover `[0, total)`. When the starts are recorded in a
type of `M` values, the recorded windows are disjoint exactly if no start of a window with elements
was truncated (`disjoint_mod_iff`).
-/

open List

namespace Packing

variable {sizes : List ℕ} {i j p M : ℕ}

def start (sizes : List ℕ) (i : ℕ) : ℕ := (sizes.take i).sum

@[simp] theorem start_zero (sizes : List ℕ) : start sizes 0 = 0 := rfl

theorem start_succ (h : i < sizes.length) : start sizes (i + 1) = start sizes i + sizes[i] := by
  rw [start, start, sum_take_succ sizes i h]

theorem start_length (sizes : List ℕ) : start sizes sizes.length = sizes.sum := by
  rw [start, take_length]

theorem start_add (sizes : List ℕ) (i k : ℕ) :
    start sizes (i + k) = start sizes i + ((sizes.drop i).take k).sum := by
  rw [start, start, take_add, sum_append]

theorem start_mono (h : i ≤ j) : start sizes i ≤ start sizes j := by
  obtain ⟨k, rfl⟩ := Nat.exists_eq_add_of_le h
  rw [start_add]
  exact Nat.le_add_right _ _

theorem start_le_sum (sizes : List ℕ) (i : ℕ) : start sizes i ≤ sizes.sum :=
  (start_mono (le_max_left i sizes.length)).trans_eq
    (by rw [start, take_of_length_le (le_max_right _ _)])

theorem start_add_le_sum (h : i < sizes.length) : start sizes i + sizes[i] ≤ sizes.sum :=
  start_succ h ▸ start_le_sum sizes (i + 1)

theorem start_add_le_start (hi : i < sizes.length) (hij : i < j) :
    start sizes i + sizes[i] ≤ start sizes j :=
  start_succ hi ▸ start_mono hij

theorem start_append_left (tail : List ℕ) (h : i ≤ sizes.length) :
    start (sizes ++ tail) i = start sizes i := by
  rw [start, take_append_of_le_length h, start]

theorem exists_window (hj : j ≤ sizes.length) (hp : p < start sizes j) :
    ∃ i, ∃ h : i < sizes.length, i < j ∧ start sizes i ≤ p ∧ p < start sizes i + sizes[i] := by
  induction j with
  | zero => exact absurd hp (by simp)
  | succ j ih =>
    by_cases hlt : p < start sizes j
    · obtain ⟨i, h, hij, hin⟩ := ih (by omega) hlt
      exact ⟨i, h, by omega, hin⟩
    · rw [start_succ (by omega)] at hp
      exact ⟨j, by omega, by omega, by omega, hp⟩

/-- No two of the windows `[off i, off i + size i)` have a point in common. -/
def PairwiseDisjoint (sizes : List ℕ) (off : ℕ → ℕ) : Prop :=
  ∀ i (hi : i < sizes.length) j (hj : j < sizes.length), i < j →
    Disjoint (Set.Ico (off i) (off i + sizes[i])) (Set.Ico (off j) (off j + sizes[j]))

/-- **Recorded starts.** Windows packed one after another and recorded modulo `M` are disjoint if
and only if every window with elements starts below `M`. -/
theorem disjoint_mod_iff (sizes : List ℕ) (hM : 0 < M) :
    PairwiseDisjoint sizes (fun i => start sizes i % M) ↔
      ∀ i (hi : i < sizes.length), 0 < sizes[i] → start sizes i < M := by
  constructor
  · intro hdisj j hj hpos
    by_contra hge
    -- the truncated start is a point of an earlier window, which is recorded where it is
    set p := start sizes j % M with hp
    have hpM : p < M := Nat.mod_lt _ hM
    obtain ⟨i, hi, hij, hlo, hhi⟩ := exists_window (p := p) hj.le (by omega)
    have hoff : start sizes i % M = start sizes i := Nat.mod_eq_of_lt (by omega)
    have hini : p ∈ Set.Ico (start sizes i % M) (start sizes i % M + sizes[i]) := by
      rw [hoff]
      exact ⟨hlo, hhi⟩
    have hinj : p ∈ Set.Ico (start sizes j % M) (start sizes j % M + sizes[j]) :=
      ⟨le_rfl, Nat.lt_add_of_pos_right hpos⟩
    exact Set.disjoint_left.mp (hdisj i hi j hj hij) hini hinj
  · intro hlt i hi j hj hij
    rw [Set.disjoint_left]
    rintro p ⟨hi1, hi2⟩ ⟨hj1, hj2⟩
    dsimp only at hi1 hi2 hj1 hj2
    have hoffi : start sizes i % M = start sizes i := Nat.mod_eq_of_lt (hlt i hi (by omega))
    have hoffj : start sizes j % M = start sizes j := Nat.mod_eq_of_lt (hlt j hj (by omega))
    have hend := start_add_le_start hi hij
    omega

theorem mod_add_le_sum (hi : i < sizes.length) (M : ℕ) :
    start sizes i % M + sizes[i] ≤ sizes.sum :=
  (Nat.add_le_add_right (Nat.mod_le _ _) _).trans (start_add_le_sum hi)

end Packing

import Mathlib.Data.Nat.Notation

/-!
# Scattering a list

A loop that stores its `k`-th value at place `p k` of an array keeps every value when the places are
distinct (`scatter_getElem?`).
-/

namespace Scatter

variable {α : Type*} {p : ℕ → ℕ} {v : ℕ → α}

def scatter (p : ℕ → ℕ) (v : ℕ → α) (n : ℕ) (l : List α) : List α :=
  (List.range n).foldl (fun l k => l.set (p k) (v k)) l

theorem scatter_succ (p : ℕ → ℕ) (v : ℕ → α) (n : ℕ) (l : List α) :
    scatter p v (n + 1) l = (scatter p v n l).set (p n) (v n) := by
  simp [scatter, List.range_succ]

@[simp] theorem length_scatter (p : ℕ → ℕ) (v : ℕ → α) (n : ℕ) (l : List α) :
    (scatter p v n l).length = l.length := by
  induction n with
  | zero => rfl
  | succ n ih => rw [scatter_succ, List.length_set, ih]

theorem scatter_getElem? {n : ℕ} (hinj : ∀ j < n, ∀ k < n, p j = p k → j = k) {l : List α} {k : ℕ}
    (hk : k < n) (hlt : p k < l.length) : (scatter p v n l)[p k]? = some (v k) := by
  induction n with
  | zero => omega
  | succ n ih =>
    rw [scatter_succ, List.getElem?_set]
    by_cases hkn : k = n
    · subst hkn
      simp [hlt]
    · have hne : p n ≠ p k := fun heq => hkn (hinj n (by omega) k hk heq).symm
      rw [if_neg hne]
      exact ih (fun j hj k hk => hinj j (by omega) k (by omega)) (by omega)

end Scatter

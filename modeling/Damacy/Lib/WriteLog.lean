import Mathlib.Logic.Function.Basic

/-!
# Memory as a log of writes

A buffer that is only written to is the result of applying its writes, in order, to what it held
before. When all writes to an address agree on the value, neither their order nor their number
matters: the address holds that value as soon as there is one of them (`apply_eq_some`).
-/

open List

namespace WriteLog

variable {α β γ : Type*} [DecidableEq α]

def apply (mem : α → Option β) (writes : List (α × β)) : α → Option β :=
  writes.foldl (fun m w => Function.update m w.1 (some w.2)) mem

theorem apply_cons (mem : α → Option β) (w : α × β) (ws : List (α × β)) :
    apply mem (w :: ws) = apply (Function.update mem w.1 (some w.2)) ws := rfl

theorem apply_append (mem : α → Option β) (ws ws' : List (α × β)) :
    apply mem (ws ++ ws') = apply (apply mem ws) ws' :=
  foldl_append

theorem foldl_apply (writes : γ → List (α × β)) (l : List γ) (mem : α → Option β) :
    l.foldl (fun m c => apply m (writes c)) mem = apply mem (l.flatMap writes) := by
  induction l generalizing mem with
  | nil => rfl
  | cons c l ih => rw [foldl_cons, ih, flatMap_cons, apply_append]

theorem apply_of_forall_ne {mem : α → Option β} {ws : List (α × β)} {a : α}
    (h : ∀ w ∈ ws, w.1 ≠ a) : apply mem ws a = mem a := by
  induction ws generalizing mem with
  | nil => rfl
  | cons w ws ih =>
    rw [forall_mem_cons] at h
    rw [apply_cons, ih h.2, Function.update_of_ne h.1.symm]

theorem apply_eq_some {mem : α → Option β} {ws : List (α × β)} {a : α} {v : β}
    (hval : ∀ w ∈ ws, w.1 = a → w.2 = v) (hmem : ∃ w ∈ ws, w.1 = a) :
    apply mem ws a = some v := by
  suffices H : ∀ (ws : List (α × β)) (mem : α → Option β), (∀ w ∈ ws, w.1 = a → w.2 = v) →
      (mem a = some v ∨ ∃ w ∈ ws, w.1 = a) → apply mem ws a = some v from
    H ws mem hval (.inr hmem)
  intro ws
  induction ws with
  | nil =>
    rintro mem - (h | ⟨w, hw, -⟩)
    · exact h
    · cases hw
  | cons w ws ih =>
    intro mem hval hor
    rw [forall_mem_cons] at hval
    rw [apply_cons]
    apply ih _ hval.2
    -- either the first write settles the address or it leaves it alone
    by_cases hw : w.1 = a
    · left
      rw [← hw, Function.update_self, hval.1 hw]
    · rcases hor with h | ⟨w', hw', ha⟩
      · left
        rwa [Function.update_of_ne (Ne.symm hw)]
      · right
        rcases mem_cons.mp hw' with rfl | hw'
        · exact absurd ha hw
        · exact ⟨w', hw', ha⟩

end WriteLog

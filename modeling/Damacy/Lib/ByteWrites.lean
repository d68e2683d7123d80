import Mathlib.Data.List.Induction
import Mathlib.Data.List.Pairwise
import Mathlib.Data.Set.BooleanAlgebra
import Mathlib.Order.CompletePartialOrder

/-!
# Writing ranges of a memory

A memory is a function of its address. A range write stores a list of values from an address on;
when the ranges of several writes are disjoint, each of them can be read back, in whatever order
they were made (`load_stores`).
-/

open List

namespace ByteWrites

variable {β : Type*} {buf : ℕ → β} {w : ℕ × List β} {ws : List (ℕ × List β)}

def load (buf : ℕ → β) (addr n : ℕ) : List β := (List.range n).map fun k => buf (addr + k)

@[simp] theorem length_load (buf : ℕ → β) (addr n : ℕ) : (load buf addr n).length = n := by
  simp [load]

theorem getElem?_load (addr : ℕ) {n k : ℕ} (hk : k < n) :
    (load buf addr n)[k]? = some (buf (addr + k)) := by
  simp [load, hk]

theorem load_eq_iff {buf' : ℕ → β} {addr addr' n : ℕ} :
    load buf addr n = load buf' addr' n ↔ ∀ k < n, buf (addr + k) = buf' (addr' + k) := by
  simp [load, map_inj_left]

def store (buf : ℕ → β) (w : ℕ × List β) : ℕ → β := fun a =>
  if w.1 ≤ a then w.2[a - w.1]?.getD (buf a) else buf a

def stores (buf : ℕ → β) (ws : List (ℕ × List β)) : ℕ → β := ws.foldl store buf

def window (w : ℕ × List β) : Set ℕ := Set.Ico w.1 (w.1 + w.2.length)

theorem store_of_notMem {a : ℕ} (h : a ∉ window w) : store buf w a = buf a := by
  unfold store
  split
  · rename_i hle
    have hge : w.2.length ≤ a - w.1 := by
      by_contra hlt
      exact h ⟨hle, by omega⟩
    rw [getElem?_eq_none hge, Option.getD_none]
  · rfl

theorem store_of_mem {a : ℕ} {v : β} (h : a ∈ window w) (hv : w.2[a - w.1]? = some v) :
    store buf w a = v := by
  rw [store, if_pos h.1, hv, Option.getD_some]

theorem stores_concat (buf : ℕ → β) (ws : List (ℕ × List β)) (w : ℕ × List β) :
    stores buf (ws ++ [w]) = store (stores buf ws) w := by
  rw [stores, foldl_append, foldl_cons, foldl_nil, ← stores]

theorem stores_of_agree {a : ℕ} {v : β} (hmem : ∃ w ∈ ws, a ∈ window w)
    (hval : ∀ w ∈ ws, a ∈ window w → w.2[a - w.1]? = some v) : stores buf ws a = v := by
  induction ws using List.reverseRecOn with
  | nil => simp at hmem
  | append_singleton ws w ih =>
    rw [stores_concat]
    by_cases hw : a ∈ window w
    · exact store_of_mem hw (hval w (by simp) hw)
    · rw [store_of_notMem hw]
      refine ih ?_ fun w' hw' => hval w' (mem_append_left _ hw')
      obtain ⟨w', hw', ha⟩ := hmem
      rcases mem_append.1 hw' with hw' | hw'
      · exact ⟨w', hw', ha⟩
      · exact absurd (mem_singleton.1 hw' ▸ ha) hw

theorem load_stores (buf : ℕ → β) {order : List (ℕ × List β)} (horder : order.Perm ws)
    (hdisj : ws.Pairwise fun v w => Disjoint (window v) (window w)) (hw : w ∈ ws) :
    load (stores buf order) w.1 w.2.length = w.2 := by
  have : Std.Symm fun v w : ℕ × List β => Disjoint (window v) (window w) :=
    ⟨fun _ _ h => Disjoint.symm h⟩
  apply ext_getElem
  · simp
  · intro k hk hk'
    have hin : w.1 + k ∈ window w := ⟨by omega, by omega⟩
    simp only [load, getElem_map, getElem_range]
    refine stores_of_agree ⟨w, horder.symm.subset hw, hin⟩ fun v hv hmem => ?_
    -- no other write reaches the address
    obtain rfl : v = w := by
      by_contra hne
      exact Set.disjoint_left.mp (hdisj.forall (horder.subset hv) hw hne) hmem hin
    rw [Nat.add_sub_cancel_left, getElem?_eq_getElem hk']

end ByteWrites

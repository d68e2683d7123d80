import Mathlib.Algebra.GroupWithZero.Nat
import Mathlib.Algebra.Order.BigOperators.Group.List
import Mathlib.Algebra.Order.Group.Nat

/-!
# Fallible computations and fallible loops

Code that leaves at the first error is an `Except` computation: a sequence of guards and calls is a
`bind`, and a loop with early exit is `List.foldlM`. This module says when such a computation
succeeds, and gives the invariant rules for the loop: one for the result of a loop that succeeds,
and one for the errors it can leave with.
-/

open List

namespace ExceptFold

variable {ε α β σ : Type}

@[simp] theorem bind_eq_ok {x : Except ε α} {f : α → Except ε β} {b : β} :
    (x >>= f) = .ok b ↔ ∃ a, x = .ok a ∧ f a = .ok b := by
  cases x <;> simp [bind, Except.bind]

theorem bind_eq_error {x : Except ε α} {f : α → Except ε β} {e : ε} :
    (x >>= f) = .error e ↔ x = .error e ∨ ∃ a, x = .ok a ∧ f a = .error e := by
  cases x <;> simp [bind, Except.bind]

@[simp] theorem pure_eq_ok (a : α) : (pure a : Except ε α) = .ok a := rfl

@[simp] theorem mapError_eq_ok {ε' : Type*} {x : Except ε α} {f : ε → ε'} {a : α} :
    x.mapError f = .ok a ↔ x = .ok a := by
  cases x <;> simp [Except.mapError]

def failIf (p : Prop) [Decidable p] (e : ε) : Except ε Unit := if p then .error e else .ok ()

@[simp] theorem failIf_eq_ok {p : Prop} [Decidable p] {e : ε} {u : Unit} :
    failIf p e = .ok u ↔ ¬ p := by
  unfold failIf
  split <;> simp_all

@[simp] theorem failIf_eq_error {p : Prop} [Decidable p] {e e' : ε} :
    failIf p e = .error e' ↔ p ∧ e = e' := by
  unfold failIf
  split <;> simp_all

theorem mapM_eq_ok {f : α → Except ε β} {l : List α} {l' : List β} :
    l.mapM f = .ok l' ↔ List.Forall₂ (fun a b => f a = .ok b) l l' := by
  induction l generalizing l' with
  | nil =>
    rw [mapM_nil, List.forall₂_nil_left_iff]
    simp [eq_comm]
  | cons a l ih =>
    rw [mapM_cons]
    simp only [bind_eq_ok, ih, pure_eq_ok, Except.ok.injEq]
    constructor
    · rintro ⟨b, hb, bs, hbs, rfl⟩
      exact .cons hb hbs
    · rintro (_ | ⟨hb, hbs⟩)
      exact ⟨_, hb, _, hbs, rfl⟩

theorem exists_of_mapM_eq_error {f : α → Except ε β} {l : List α} {e : ε}
    (h : l.mapM f = .error e) : ∃ a ∈ l, f a = .error e := by
  induction l with
  | nil => cases h
  | cons a l ih =>
    rw [mapM_cons] at h
    rcases bind_eq_error.mp h with h | ⟨_, -, h⟩
    · exact ⟨a, mem_cons_self, h⟩
    · rcases bind_eq_error.mp h with h | ⟨_, -, h⟩
      · obtain ⟨b, hb, heq⟩ := ih h
        exact ⟨b, mem_cons_of_mem _ hb, heq⟩
      · cases h

/-- The invariant rule for a loop that succeeds. The invariant sees which items are done and which
are still to come. -/
theorem foldlM_ok_induction {f : σ → α → Except ε σ} {l : List α}
    (P : List α → List α → σ → Prop) {s s' : σ} (h0 : P [] l s)
    (hstep : ∀ done a rest s s', l = done ++ a :: rest → P done (a :: rest) s → f s a = .ok s' →
      P (done ++ [a]) rest s')
    (h : l.foldlM f s = .ok s') : P l [] s' := by
  suffices H : ∀ rest done s, l = done ++ rest → P done rest s → rest.foldlM f s = .ok s' →
      P l [] s' from H l [] s rfl h0 h
  intro rest
  induction rest with
  | nil =>
    intro done s hl hP hs
    obtain rfl : s = s' := by simpa using hs
    simpa [hl] using hP
  | cons a rest ih =>
    intro done s hl hP hs
    rw [foldlM_cons] at hs
    obtain ⟨s₁, hs₁, hrest⟩ := bind_eq_ok.mp hs
    exact ih (done ++ [a]) s₁ (by simp [hl]) (hstep done a rest s s₁ hl hP hs₁) hrest

/-- The invariant rule for the errors of a loop: a loop that leaves with an error leaves it from
the body, run on some item in a state of the invariant. -/
theorem foldlM_error_induction {f : σ → α → Except ε σ} {l : List α}
    (P : List α → List α → σ → Prop) {s : σ} {e : ε} (h0 : P [] l s)
    (hstep : ∀ done a rest s s', l = done ++ a :: rest → P done (a :: rest) s → f s a = .ok s' →
      P (done ++ [a]) rest s')
    (h : l.foldlM f s = .error e) :
    ∃ done a rest s, l = done ++ a :: rest ∧ P done (a :: rest) s ∧ f s a = .error e := by
  suffices H : ∀ rest done s, l = done ++ rest → P done rest s → rest.foldlM f s = .error e →
      ∃ done a rest s, l = done ++ a :: rest ∧ P done (a :: rest) s ∧ f s a = .error e from
    H l [] s rfl h0 h
  intro rest
  induction rest with
  | nil =>
    intro done s _ _ hs
    cases hs
  | cons a rest ih =>
    intro done s hl hP hs
    rw [foldlM_cons] at hs
    rcases bind_eq_error.mp hs with herr | ⟨s₁, hs₁, hrest⟩
    · exact ⟨done, a, rest, s, hl, hP, herr⟩
    · exact ih (done ++ [a]) s₁ (by simp [hl]) (hstep done a rest s s₁ hl hP hs₁) hrest

section Weight

variable {f : σ → α → Except ε σ} {m : σ → ℕ} {w : α → ℕ} {l : List α}

theorem foldlM_weight (hok : ∀ a ∈ l, ∀ s s', f s a = .ok s' → m s' = m s + w a) {s s' : σ}
    (h : l.foldlM f s = .ok s') : m s' = m s + (l.map w).sum := by
  induction l generalizing s with
  | nil =>
    obtain rfl : s = s' := by simpa using h
    simp
  | cons a l ih =>
    rw [foldlM_cons] at h
    obtain ⟨s₁, hs₁, hrest⟩ := bind_eq_ok.mp h
    rw [forall_mem_cons] at hok
    rw [ih hok.2 hrest, hok.1 s s₁ hs₁, map_cons, sum_cons, Nat.add_assoc]

/-- If the body leaves with `e` only when its item does not fit under `cap`, a loop whose items
fit together never leaves with `e`. -/
theorem foldlM_weight_ne_error (hok : ∀ a ∈ l, ∀ s s', f s a = .ok s' → m s' = m s + w a)
    {cap : ℕ} {e : ε} (herr : ∀ a ∈ l, ∀ s, m s + w a ≤ cap → f s a ≠ .error e) {s : σ}
    (hcap : m s + (l.map w).sum ≤ cap) : l.foldlM f s ≠ .error e := by
  induction l generalizing s with
  | nil => simp
  | cons a l ih =>
    rw [map_cons, sum_cons] at hcap
    rw [forall_mem_cons] at hok herr
    rw [foldlM_cons]
    intro h
    rcases bind_eq_error.mp h with h | ⟨s₁, hs₁, hrest⟩
    · exact herr.1 s (by omega) h
    · exact ih hok.2 herr.2 (by rw [hok.1 s s₁ hs₁]; omega) hrest

end Weight

section Entered

/-- The states in which the body of a loop is entered, with their items, up to the item that it
leaves with an error at. -/
def entered (f : σ → α → Except ε σ) : σ → List α → List (σ × α)
  | _, [] => []
  | s, a :: l => (s, a) :: match f s a with
    | .ok s' => entered f s' l
    | .error _ => []

variable {f : σ → α → Except ε σ} {l : List α} {s : σ}

theorem map_snd_entered_isPrefix (f : σ → α → Except ε σ) (s : σ) (l : List α) :
    (entered f s l).map Prod.snd <+: l := by
  induction l generalizing s with
  | nil => exact prefix_rfl
  | cons a l ih =>
    rw [entered, map_cons, prefix_cons_inj]
    cases f s a with
    | ok s' => exact ih s'
    | error e => exact nil_prefix

theorem snd_mem_of_entered {e : σ × α} (he : e ∈ entered f s l) : e.2 ∈ l :=
  (map_snd_entered_isPrefix f s l).subset (mem_map_of_mem he)

theorem entered_invariant {P : σ → Prop} (h0 : P s)
    (hstep : ∀ a ∈ l, ∀ s s', P s → f s a = .ok s' → P s') : ∀ e ∈ entered f s l, P e.1 := by
  induction l generalizing s with
  | nil => exact nofun
  | cons a l ih =>
    rw [forall_mem_cons] at hstep
    rw [entered, forall_mem_cons]
    refine ⟨h0, ?_⟩
    cases hs : f s a with
    | ok s' => exact ih (hstep.1 s s' h0 hs) hstep.2
    | error e => exact nofun

theorem entered_weight {m : σ → ℕ} {w : α → ℕ}
    (hok : ∀ a ∈ l, ∀ s s', f s a = .ok s' → m s' ≤ m s + w a) {cap : ℕ}
    (hcap : m s + (l.map w).sum ≤ cap) : ∀ e ∈ entered f s l, m e.1 + w e.2 ≤ cap := by
  induction l generalizing s with
  | nil => exact nofun
  | cons a l ih =>
    rw [map_cons, sum_cons] at hcap
    rw [forall_mem_cons] at hok
    rw [entered, forall_mem_cons]
    refine ⟨by dsimp only; omega, ?_⟩
    cases hs : f s a with
    | ok s' =>
      have := hok.1 s s' hs
      exact ih hok.2 (by omega)
    | error e => exact nofun

theorem sum_entered_le (f : σ → α → Except ε σ) (s : σ) (l : List α) (c : α → ℕ) :
    ((entered f s l).map fun e => c e.2).sum ≤ (l.map c).sum := by
  have hsub := ((map_snd_entered_isPrefix f s l).map c).sublist
  rw [map_map] at hsub
  exact hsub.sum_le_sum fun _ _ => Nat.zero_le _

end Entered

end ExceptFold

import Mathlib.Data.List.Basic
import Mathlib.Data.List.TakeDrop
import Mathlib.Data.Nat.Basic
import Mathlib.Order.Basic

/-!
# Reading a buffer through slices

A program that walks through a buffer with pairs of positions. A read outside of the buffer and a loop
that goes on beyond the bound it is given are faults, so that a run without a fault is one that ends
and stays inside. `Ends` is the postcondition of such a run, with a rule for sequences; `Slice.view`
says what a test for the end of a slice and the read behind it find, in terms of the bytes that the
slice stands for.
-/

open List

namespace BoundedReads

/-- What a run must not do: read outside of the buffer, or go on with a loop. -/
inductive Fault
  | outOfBounds | unbounded
deriving DecidableEq, Repr

abbrev Reads := Except Fault

/-! ## Postconditions -/

section Ends

variable {ε α β : Type} {x : Except ε α} {f : α → Except ε β} {a : α} {P P' : α → Prop} {Q : β → Prop}

def Ends (x : Except ε α) (P : α → Prop) : Prop := ∃ a, x = .ok a ∧ P a

theorem Ends.ok (h : P a) : Ends (.ok a : Except ε α) P := ⟨a, rfl, h⟩

theorem Ends.mono (h : Ends x P) (himp : ∀ a, P a → P' a) : Ends x P' := by
  obtain ⟨a, rfl, ha⟩ := h
  exact ⟨a, rfl, himp a ha⟩

theorem Ends.bind (h : Ends x P) (hf : ∀ a, P a → Ends (f a) Q) : Ends (x >>= f) Q := by
  obtain ⟨a, rfl, ha⟩ := h
  exact hf a ha

theorem Ends.map {g : α → β} (h : Ends x P) (hg : ∀ a, P a → Q (g a)) : Ends (g <$> x) Q := by
  obtain ⟨a, rfl, ha⟩ := h
  exact ⟨g a, rfl, hg a ha⟩

theorem ok_bind (a : α) (f : α → Except ε β) : (Except.ok a >>= f) = f a := rfl

end Ends

/-! ## Slices -/

structure Slice where
  beg : ℕ
  fin : ℕ
deriving DecidableEq, Repr

def Slice.atEnd (c : Slice) : Bool := c.fin ≤ c.beg

def Slice.advance (c : Slice) (n : ℕ) : Slice := ⟨c.beg + n, c.fin⟩

section Buffer

variable {α : Type} (src : List α)

def read (p : ℕ) : Reads α :=
  match src[p]? with
  | none => .error .outOfBounds
  | some b => .ok b

def readBytes (p : ℕ) : ℕ → Reads (List α)
  | 0 => .ok []
  | n + 1 => do
    let b ← read src p
    let bs ← readBytes (p + 1) n
    .ok (b :: bs)

def Slice.bytes (c : Slice) : List α := (src.take c.fin).drop c.beg

structure Slice.Valid (c : Slice) : Prop where
  le : c.beg ≤ c.fin
  inside : c.fin ≤ src.length

/-- What is left of a slice after some of it has been read. -/
structure Slice.Advances (c d : Slice) : Prop where
  fin : d.fin = c.fin
  beg : c.beg ≤ d.beg
  le : d.beg ≤ c.fin

structure Slice.Inside (c d : Slice) : Prop where
  beg : d.beg ≤ c.beg
  le : c.beg ≤ c.fin
  fin : c.fin ≤ d.fin

variable {src} {c d e : Slice} {p : ℕ}

theorem Slice.Valid.refl (h : c.Valid src) : c.Advances c := ⟨rfl, le_rfl, h.le⟩

theorem Slice.Advances.trans (h : c.Advances d) (h' : d.Advances e) : c.Advances e :=
  ⟨h'.fin.trans h.fin, h.beg.trans h'.beg, h'.le.trans_eq h.fin⟩

theorem Slice.Advances.valid (h : c.Advances d) (hc : c.Valid src) : d.Valid src :=
  ⟨h.le.trans_eq h.fin.symm, h.fin.trans_le hc.inside⟩

theorem Slice.Advances.inside (h : c.Advances d) : d.Inside c :=
  ⟨h.beg, h.le.trans_eq h.fin.symm, h.fin.le⟩

theorem Slice.Advances.fuel {fuel : ℕ} (h : c.Advances d) (hlt : c.beg < d.beg)
    (hfuel : c.fin - c.beg < fuel + 1) : d.fin - d.beg < fuel := by
  have h1 := h.fin
  have h2 := h.le
  omega

theorem Slice.Advances.passed (h : c.Advances d) : Slice.Inside ⟨c.beg, d.beg⟩ c :=
  ⟨le_rfl, h.beg, h.le⟩

theorem Slice.Advances.passed_valid (h : c.Advances d) (hc : c.Valid src) :
    Slice.Valid src ⟨c.beg, d.beg⟩ :=
  ⟨h.beg, h.le.trans hc.inside⟩

theorem Slice.Inside.trans (h : c.Inside d) (h' : d.Inside e) : c.Inside e :=
  ⟨h'.beg.trans h.beg, h.le, h.fin.trans h'.fin⟩

theorem Slice.Inside.valid (h : c.Inside d) (hd : d.Valid src) : c.Valid src :=
  ⟨h.le, h.fin.trans hd.inside⟩

theorem Slice.advances_advance {n : ℕ} (h : c.beg + n ≤ c.fin) : c.Advances (c.advance n) :=
  ⟨rfl, Nat.le_add_right _ _, h⟩

theorem Slice.length_bytes (h : c.Valid src) : (c.bytes src).length = c.fin - c.beg := by
  rw [bytes, length_drop, length_take, Nat.min_eq_left h.inside]

theorem Slice.bytes_all (src : List α) : Slice.bytes src ⟨0, src.length⟩ = src := by
  rw [bytes, take_length, drop_zero]

theorem Slice.valid_all (src : List α) : Slice.Valid src ⟨0, src.length⟩ := ⟨Nat.zero_le _, le_rfl⟩

theorem Slice.bytes_eq_nil_iff (h : c.Valid src) : c.bytes src = [] ↔ c.fin = c.beg := by
  rw [← length_eq_zero_iff, length_bytes h]
  have := h.le
  omega

theorem Slice.bytes_self (src : List α) (p : ℕ) : Slice.bytes src ⟨p, p⟩ = [] := by
  rw [bytes]
  exact drop_eq_nil_of_le (length_take_le _ _)

theorem Slice.bytes_append {i j k : ℕ} (hij : i ≤ j) (hjk : j ≤ k) :
    Slice.bytes src ⟨i, j⟩ ++ Slice.bytes src ⟨j, k⟩ = Slice.bytes src ⟨i, k⟩ := by
  have hk : k - i = (j - i) + (k - j) := by omega
  have hj : i + (j - i) = j := by omega
  simp only [bytes, drop_take]
  rw [hk, take_add, drop_drop, hj]

theorem Slice.Advances.bytes_passed_append (h : c.Advances d) :
    Slice.bytes src ⟨c.beg, d.beg⟩ ++ d.bytes src = c.bytes src := by
  have hd : d = ⟨d.beg, c.fin⟩ := by rw [← h.fin]
  rw [hd]
  exact bytes_append h.beg h.le

theorem Slice.drop_bytes (n : ℕ) : (c.bytes src).drop n = (c.advance n).bytes src := by
  rw [bytes, drop_drop, bytes, advance]

theorem Slice.take_bytes {n : ℕ} (h : c.beg + n ≤ c.fin) :
    (c.bytes src).take n = Slice.bytes src ⟨c.beg, (c.advance n).beg⟩ := by
  have hmin : min n (c.fin - c.beg) = c.beg + n - c.beg := by omega
  rw [bytes, bytes, drop_take, drop_take, take_take, hmin]
  rfl

structure Slice.First (src : List α) (c : Slice) (b : α) : Prop where
  notEnd : c.atEnd = false
  read : read src c.beg = .ok b
  le : c.beg + 1 ≤ c.fin
  span : ∀ e, c.beg + 1 ≤ e → Slice.bytes src ⟨c.beg, e⟩ =
    b :: Slice.bytes src ⟨(c.advance 1).beg, e⟩

theorem Slice.First.bytes {b : α} (h : c.First src b) :
    c.bytes src = b :: (c.advance 1).bytes src := h.span c.fin h.le

theorem Slice.First.advances {b : α} (h : c.First src b) : c.Advances (c.advance 1) :=
  advances_advance h.le

theorem Slice.First.one {b : α} (h : c.First src b) :
    Slice.bytes src ⟨c.beg, (c.advance 1).beg⟩ = [b] :=
  (h.span (c.advance 1).beg le_rfl).trans (by rw [bytes_self])

theorem Slice.First.fuel {b : α} {fuel : ℕ} (h : c.First src b) (hfuel : c.fin - c.beg < fuel + 1) :
    (c.advance 1).fin - (c.advance 1).beg < fuel :=
  h.advances.fuel (Nat.lt_succ_self _) hfuel

theorem Slice.view (h : c.Valid src) :
    (c.atEnd = true ∧ c.bytes src = []) ∨ ∃ b, c.First src b := by
  rcases Nat.lt_or_ge c.beg c.fin with hlt | hge
  · have hsrc : c.beg < src.length := hlt.trans_le h.inside
    refine .inr ⟨src[c.beg], by simpa [atEnd] using hlt, ?_, hlt, fun e he => ?_⟩
    · rw [BoundedReads.read, getElem?_eq_getElem hsrc]
    · have hone : Slice.bytes src ⟨c.beg, c.beg + 1⟩ = [src[c.beg]] := by
        rw [bytes, take_add_one, getElem?_eq_getElem hsrc, drop_left' (by simp; omega)]
        rfl
      rw [← bytes_append (Nat.le_succ c.beg) he, Nat.succ_eq_add_one, hone]
      rfl
  · refine .inl ⟨by simpa [atEnd] using hge, ?_⟩
    rw [bytes]
    exact drop_eq_nil_of_le ((length_take_le _ _).trans hge)

theorem readBytes_ends (h : c.Valid src) :
    Ends (readBytes src c.beg (c.fin - c.beg)) (· = c.bytes src) := by
  obtain ⟨n, hn⟩ : ∃ n, c.fin - c.beg = n := ⟨_, rfl⟩
  rw [hn]
  induction n generalizing c with
  | zero =>
    refine Ends.ok ?_
    rw [Slice.bytes]
    exact (drop_eq_nil_of_le ((length_take_le _ _).trans (by omega))).symm
  | succ n ih =>
    rcases c.view h with ⟨hend, -⟩ | ⟨b, hfirst⟩
    · rw [Slice.atEnd, decide_eq_true_eq] at hend
      omega
    · rw [readBytes, hfirst.read, ok_bind]
      have hrest := ih (hfirst.advances.valid h) (by simp only [Slice.advance]; omega)
      exact hrest.bind fun bs hbs => Ends.ok (by rw [hfirst.bytes, hbs])

theorem readBytes_take_ends {n : ℕ} (h : c.Valid src) (hn : c.beg + n ≤ c.fin) :
    Ends (readBytes src c.beg n) (· = (c.bytes src).take n) := by
  have hread := @readBytes_ends α src ⟨c.beg, (c.advance n).beg⟩
    ⟨Nat.le_add_right _ _, hn.trans h.inside⟩
  have hlength : (c.advance n).beg - c.beg = n := Nat.add_sub_cancel_left _ _
  rw [Slice.take_bytes hn]
  dsimp only at hread
  rwa [hlength] at hread

end Buffer

end BoundedReads

import Mathlib.Algebra.GroupWithZero.Nat
import Mathlib.Data.Multiset.Bind
import Damacy.Lib.Odometer

/-!
# Counting through a box

A flat counter is turned into a coordinate of a box by taking remainders and quotients from the
last axis on; what is left over counts whole boxes. Counting to the size of the box passes through
its coordinates in lexicographic order (`map_digits_range`), so a loop over a flat index, or over
the blocks and threads of a grid, is a loop over a Cartesian product. The second part of the module
has the rules for products that such loops need: products of rearranged, filtered, paired and tagged
axes. The last part is about loops that advance by the number of threads.
-/

open List Odometer

namespace BoxCount

/-- The coordinate of a flat counter, and the number of whole boxes it is past. -/
def digits : List ℕ → ℕ → List ℕ × ℕ
  | [], n => ([], n)
  | m :: ms, n => ((digits ms n).2 % m :: (digits ms n).1, (digits ms n).2 / m)

theorem digits_mul_add {ms : List ℕ} (hpos : ∀ m ∈ ms, 0 < m) (a b : ℕ) :
    digits ms (a * ms.prod + b) = ((digits ms b).1, a + (digits ms b).2) := by
  induction ms generalizing a with
  | nil => simp [digits]
  | cons m ms ih =>
    rw [forall_mem_cons] at hpos
    have hsplit : a * (m :: ms).prod + b = a * m * ms.prod + b := by
      rw [prod_cons, Nat.mul_assoc]
    rw [hsplit]
    simp only [digits, ih hpos.2]
    rw [Nat.mul_comm a m, Nat.mul_add_mod, Nat.mul_add_div hpos.1]

theorem digits_snd {ms : List ℕ} (n : ℕ) : (digits ms n).2 = n / ms.prod := by
  induction ms with
  | nil => simp [digits]
  | cons m ms ih =>
    rw [digits, ih, Nat.div_div_eq_div_mul, prod_cons, Nat.mul_comm]

theorem range_mul (n m : ℕ) :
    List.range (n * m) = (List.range n).flatMap fun a => (List.range m).map (a * m + ·) := by
  induction n with
  | zero => simp
  | succ n ih =>
    rw [Nat.succ_mul, range_add, ih, range_succ, flatMap_append,
      flatMap_singleton]

theorem foldl_mul_mod {α : Type*} {m : ℕ} (f : α → ℕ) (l : List α) {n : ℕ} (hn : n < m) :
    l.foldl (fun n a => n * f a % m) n = n * (l.map f).prod % m := by
  induction l generalizing n with
  | nil => simp [Nat.mod_eq_of_lt hn]
  | cons a l ih =>
    rw [foldl_cons, ih (Nat.mod_lt _ (Nat.zero_lt_of_lt hn)), Nat.mod_mul_mod, map_cons,
      prod_cons, Nat.mul_assoc]

theorem filter_range_interval {lo hi n : ℕ} (hlo : lo ≤ hi) (hn : hi ≤ n) :
    (List.range n).filter (fun i => decide (lo ≤ i ∧ i < hi)) = List.range' lo (hi - lo) := by
  have hsplit : List.range n =
      List.range lo ++ (List.range' lo (hi - lo) ++ List.range' hi (n - hi)) := by
    have hsum : n = lo + ((hi - lo) + (n - hi)) := by omega
    conv_lhs => rw [hsum, range_add, ← List.range'_eq_map_range, ← List.range'_append]
    rw [Nat.one_mul, Nat.add_sub_of_le hlo]
  rw [hsplit, filter_append, filter_append]
  have h1 : (List.range lo).filter (fun i => decide (lo ≤ i ∧ i < hi)) = [] := by
    rw [filter_eq_nil_iff]
    intro i hi'
    rw [mem_range] at hi'
    simp only [decide_eq_true_eq]
    omega
  have h2 : (List.range' lo (hi - lo)).filter (fun i => decide (lo ≤ i ∧ i < hi)) =
      List.range' lo (hi - lo) := by
    rw [filter_eq_self]
    intro i hi'
    rw [mem_range'_1] at hi'
    simp only [decide_eq_true_eq]
    omega
  have h3 : (List.range' hi (n - hi)).filter (fun i => decide (lo ≤ i ∧ i < hi)) = [] := by
    rw [filter_eq_nil_iff]
    intro i hi'
    rw [mem_range'_1] at hi'
    simp only [decide_eq_true_eq]
    omega
  rw [h1, h2, h3, nil_append, append_nil]

/-- **Counting to the size of a box passes through its coordinates.** -/
theorem map_digits_range {ms : List ℕ} (hpos : ∀ m ∈ ms, 0 < m) :
    (List.range ms.prod).map (fun n => (digits ms n).1) = cartesian (ms.map List.range) := by
  induction ms with
  | nil => rfl
  | cons m ms ih =>
    rw [forall_mem_cons] at hpos
    rw [prod_cons, range_mul, map_flatMap, map_cons, cartesian, ← ih hpos.2]
    apply flatMap_congr
    intro a ha
    rw [mem_range] at ha
    rw [map_map, map_map]
    apply map_congr_left
    intro b hb
    rw [mem_range] at hb
    show (digits (m :: ms) (a * ms.prod + b)).1 = a :: (digits ms b).1
    simp only [digits, digits_mul_add hpos.2, digits_snd, Nat.div_eq_of_lt hb, Nat.add_zero,
      Nat.mod_eq_of_lt ha]

section Cartesian

variable {α β γ : Type*}

theorem flatMap_comm_perm (l : List α) (k : List β) (f : α → β → List γ) :
    (l.flatMap fun a => k.flatMap fun b => f a b).Perm
      (k.flatMap fun b => l.flatMap fun a => f a b) := by
  rw [← Multiset.coe_eq_coe]
  have := Multiset.bind_bind (l : Multiset α) (k : Multiset β) (f := fun a b => (f a b : Multiset γ))
  simpa only [Multiset.coe_bind] using this

theorem cartesian_filter (p : α → Bool) (ls : List (List α)) :
    (cartesian ls).filter (fun x => x.all p) = cartesian (ls.map (List.filter p)) := by
  induction ls with
  | nil => rfl
  | cons l ls ih =>
    rw [cartesian, map_cons, cartesian, ← ih, filter_flatMap]
    induction l with
    | nil => rfl
    | cons a l ihl =>
      rw [flatMap_cons, ihl, filter_map]
      by_cases ha : p a = true
      · rw [filter_cons_of_pos ha, flatMap_cons]
        congr 3
        funext x
        simp [ha]
      · rw [filter_cons_of_neg ha]
        have hnone : ((cartesian ls).filter ((fun x => x.all p) ∘ fun x => a :: x)) = [] := by
          rw [filter_eq_nil_iff]
          intro x _
          simp [ha]
        rw [hnone]
        rfl

theorem flatMap_ite (p : α → Bool) (f : α → β) (l : List α) :
    (l.flatMap fun a => if p a then [f a] else []) = (l.filter p).map f := by
  induction l with
  | nil => rfl
  | cons a l ih =>
    rw [flatMap_cons, ih]
    by_cases ha : p a = true <;> simp [ha]

theorem cartesian_zip_perm {as : List (List α)} {bs : List (List β)} (h : as.length = bs.length) :
    ((cartesian as).flatMap fun x => (cartesian bs).map fun y => x.zip y).Perm
      (cartesian (List.zipWith (fun l k => l.flatMap fun a => k.map fun b => (a, b)) as bs)) := by
  induction as generalizing bs with
  | nil =>
    obtain rfl := length_eq_zero_iff.mp h.symm
    exact List.Perm.refl _
  | cons l as ih =>
    obtain ⟨k, bs, rfl⟩ := exists_cons_of_length_eq_add_one h.symm
    simp only [cartesian, zipWith_cons_cons, flatMap_assoc, flatMap_map,
      map_flatMap, map_map, Function.comp_def, zip_cons_cons]
    apply List.Perm.flatMap_left
    intro a _
    -- exchange the head of the second coordinate with the tail of the first
    have hswap : ((cartesian as).flatMap fun x => k.flatMap fun b =>
        (cartesian bs).map fun y => (a, b) :: x.zip y).Perm
        (k.flatMap fun b => (cartesian as).flatMap fun x =>
          (cartesian bs).map fun y => (a, b) :: x.zip y) :=
      flatMap_comm_perm _ _ _
    refine hswap.trans (List.Perm.flatMap_left _ fun b _ => ?_)
    have := (ih (by simpa using h)).map ((a, b) :: ·)
    simpa [map_flatMap, map_map, Function.comp_def] using this

theorem cartesian_tag (tags : List α) (ls : List (List β)) (h : tags.length = ls.length) :
    cartesian (List.zipWith (fun t l => l.map fun b => (t, b)) tags ls) =
      (cartesian ls).map fun x => tags.zip x := by
  induction tags generalizing ls with
  | nil =>
    obtain rfl := length_eq_zero_iff.mp h.symm
    rfl
  | cons t tags ih =>
    obtain ⟨l, ls, rfl⟩ := exists_cons_of_length_eq_add_one h.symm
    simp only [zipWith_cons_cons, cartesian, ih ls (Nat.succ.inj h), flatMap_map,
      map_flatMap, map_map, Function.comp_def, zip_cons_cons]

end Cartesian

/-! ## Loops with a stride -/

/-- The indices of `for (i = start; i < stop; i += step)`, for at most `fuel` rounds. -/
def stepLoop (stop step : ℕ) : (fuel start : ℕ) → List ℕ
  | 0, _ => []
  | fuel + 1, i => if i < stop then i :: stepLoop stop step fuel (i + step) else []

theorem mem_stepLoop {stop step fuel start i : ℕ} (hstep : 0 < step) (hfuel : stop ≤ start + fuel) :
    i ∈ stepLoop stop step fuel start ↔ i < stop ∧ ∃ k, i = start + k * step := by
  induction fuel generalizing start with
  | zero =>
    simp only [stepLoop, not_mem_nil, false_iff, not_and]
    rintro hi ⟨k, rfl⟩
    omega
  | succ fuel ih =>
    rw [stepLoop]
    split
    · rename_i hlt
      rw [mem_cons, ih (by omega)]
      constructor
      · rintro (rfl | ⟨hi, k, rfl⟩)
        · exact ⟨hlt, 0, by simp⟩
        · exact ⟨hi, k + 1, by rw [Nat.add_mul, Nat.one_mul]; omega⟩
      · rintro ⟨hi, k, rfl⟩
        rcases Nat.eq_zero_or_pos k with rfl | hk
        · exact .inl (by simp)
        · obtain ⟨m, rfl⟩ := Nat.exists_eq_add_of_le' hk
          exact .inr ⟨hi, m, by rw [Nat.add_mul, Nat.one_mul]; omega⟩
    · rename_i hge
      simp only [not_mem_nil, false_iff, not_and]
      rintro hi ⟨k, rfl⟩
      omega

theorem nodup_stepLoop {stop step : ℕ} (hstep : 0 < step) (fuel start : ℕ) :
    (stepLoop stop step fuel start).Nodup := by
  have hge : ∀ fuel start, ∀ i ∈ stepLoop stop step fuel start, start ≤ i := by
    intro fuel
    induction fuel with
    | zero => intro start i hi; cases hi
    | succ fuel ih =>
      intro start i hi
      rw [stepLoop] at hi
      split at hi
      · rcases mem_cons.mp hi with rfl | hi
        · exact le_rfl
        · exact (Nat.le_add_right _ _).trans (ih _ i hi)
      · cases hi
  induction fuel generalizing start with
  | zero => exact nodup_nil
  | succ fuel ih =>
    rw [stepLoop]
    split
    · refine nodup_cons.mpr ⟨fun hmem => ?_, ih _⟩
      have := hge _ _ _ hmem
      omega
    · exact nodup_nil

/-- **Grid-stride loops** that start at every number below their stride share the indices out: each
is taken by exactly one of them. -/
theorem flatMap_stepLoop_perm {step : ℕ} (hstep : 0 < step) (stop : ℕ) :
    ((List.range step).flatMap fun start => stepLoop stop step stop start).Perm
      (List.range stop) := by
  have hmod : ∀ {start i : ℕ}, start < step → i ∈ stepLoop stop step stop start →
      i % step = start := by
    intro start i hstart hi
    obtain ⟨-, k, rfl⟩ := (mem_stepLoop hstep (by omega)).mp hi
    rw [Nat.add_mul_mod_self_right, Nat.mod_eq_of_lt hstart]
  rw [perm_ext_iff_of_nodup _ nodup_range]
  · intro i
    rw [mem_flatMap, mem_range]
    constructor
    · rintro ⟨start, -, hi⟩
      exact ((mem_stepLoop hstep (by omega)).mp hi).1
    · intro hi
      refine ⟨i % step, mem_range.mpr (Nat.mod_lt _ hstep), ?_⟩
      exact (mem_stepLoop hstep (by omega)).mpr ⟨hi, i / step, by rw [Nat.mul_comm, Nat.mod_add_div]⟩
  · rw [nodup_flatMap]
    refine ⟨fun start _ => nodup_stepLoop hstep _ _, ?_⟩
    refine nodup_range.imp_of_mem fun {a b} ha hb hne => ?_
    intro i hia hib
    rw [mem_range] at ha hb
    exact hne ((hmod ha hia).symm.trans (hmod hb hib))

end BoxCount

import Mathlib.Algebra.BigOperators.Group.List.Defs
import Mathlib.Algebra.Order.Group.Nat
import Mathlib.Data.List.Nodup

/-!
# Odometers

A loop nest of varying depth is written as an odometer: one counter per axis, the last axis
fastest, and a step that advances the last axis that does not wrap round and resets the axes after
it. `Lap` says that a stepper, from a state, passes through a list of states and then wraps round
to its first one; `Lap.advance` says that an odometer of axes that each make a lap makes a lap
through the Cartesian product of theirs, in lexicographic order. `visits` is the loop that runs
the stepper until it wraps round. `Partitions.flatMap_perm` splits a product along blocks of its
axes.
-/

open List

namespace Odometer

section Cartesian

variable {α β : Type*}

def cartesian : List (List α) → List (List α)
  | [] => [[]]
  | l :: ls => l.flatMap fun a => (cartesian ls).map (a :: ·)

theorem mem_cartesian {ls : List (List α)} {x : List α} :
    x ∈ cartesian ls ↔ List.Forall₂ (· ∈ ·) x ls := by
  induction ls generalizing x with
  | nil => simp [cartesian]
  | cons l ls ih =>
    simp only [cartesian, mem_flatMap, mem_map]
    constructor
    · rintro ⟨a, ha, y, hy, rfl⟩
      exact .cons ha (ih.mp hy)
    · rintro (_ | ⟨ha, hy⟩)
      exact ⟨_, ha, _, ih.mpr hy, rfl⟩

theorem nodup_cartesian {ls : List (List α)} (h : ∀ l ∈ ls, l.Nodup) : (cartesian ls).Nodup := by
  induction ls with
  | nil => simp [cartesian]
  | cons l ls ih =>
    have htail := ih fun l' hl' => h l' (mem_cons_of_mem _ hl')
    refine nodup_flatMap.mpr ⟨fun a _ => htail.map (cons_injective), ?_⟩
    -- blocks of different heads share no list
    refine (h l mem_cons_self).imp fun {a b} hab x hx hx' => hab ?_
    obtain ⟨y, -, rfl⟩ := mem_map.mp hx
    obtain ⟨y', -, hy'⟩ := mem_map.mp hx'
    exact (cons_eq_cons.mp hy').1.symm

theorem pairwise_cartesian {r : α → α → Prop} {ls : List (List α)} (h : ∀ l ∈ ls, l.Pairwise r) :
    (cartesian ls).Pairwise (List.Lex r) := by
  induction ls with
  | nil => simp [cartesian]
  | cons l ls ih =>
    rw [forall_mem_cons] at h
    refine pairwise_flatMap.mpr ⟨fun a _ => ?_, ?_⟩
    · exact pairwise_map.mpr ((ih h.2).imp .cons)
    · -- a block of a smaller head comes first
      refine h.1.imp fun {a b} hab x hx y hy => ?_
      obtain ⟨x', -, rfl⟩ := mem_map.mp hx
      obtain ⟨y', -, rfl⟩ := mem_map.mp hy
      exact .rel hab

@[simp] theorem length_cartesian (ls : List (List α)) :
    (cartesian ls).length = (ls.map List.length).prod := by
  induction ls with
  | nil => rfl
  | cons l ls ih => simp [cartesian, length_flatMap, ih]

theorem map_cartesian (f : α → β) (ls : List (List α)) :
    (cartesian ls).map (List.map f) = cartesian (ls.map (List.map f)) := by
  induction ls with
  | nil => rfl
  | cons l ls ih =>
    simp only [cartesian, map_cons, map_flatMap, flatMap_map, ← ih, map_map]
    rfl

theorem cartesian_concat (ls : List (List α)) (l : List α) :
    cartesian (ls ++ [l]) = (cartesian ls).flatMap fun x => l.map fun a => x ++ [a] := by
  induction ls with
  | nil => simp [cartesian, ← map_eq_flatMap]
  | cons k ls ih =>
    simp only [cons_append, cartesian, ih, map_flatMap, flatMap_assoc,
      flatMap_map, map_map]
    rfl

end Cartesian

section Partition

variable {ι α β : Type*}

/-- Along every axis of `rows` the cells are split into blocks: `part r b` are the cells of block
`b`, and `blockOf` tells the block of a cell. -/
structure Partitions (rows : List ι) (cells : ι → List α) (blocks : ι → List β)
    (part : ι → β → List α) (blockOf : ι → α → β) : Prop where
  nodup_blocks : ∀ r ∈ rows, (blocks r).Nodup
  nodup_part : ∀ r ∈ rows, ∀ b, (part r b).Nodup
  nodup_cells : ∀ r ∈ rows, (cells r).Nodup
  mem_part : ∀ r ∈ rows, ∀ b ∈ blocks r, ∀ a, a ∈ part r b ↔ a ∈ cells r ∧ blockOf r a = b
  block_mem : ∀ r ∈ rows, ∀ a ∈ cells r, blockOf r a ∈ blocks r

variable {rows : List ι} {cells : ι → List α} {blocks : ι → List β} {part : ι → β → List α}
  {blockOf : ι → α → β}

theorem Partitions.tail {r : ι} (h : Partitions (r :: rows) cells blocks part blockOf) :
    Partitions rows cells blocks part blockOf where
  nodup_blocks r' hr' := h.nodup_blocks r' (mem_cons_of_mem _ hr')
  nodup_part r' hr' := h.nodup_part r' (mem_cons_of_mem _ hr')
  nodup_cells r' hr' := h.nodup_cells r' (mem_cons_of_mem _ hr')
  mem_part r' hr' := h.mem_part r' (mem_cons_of_mem _ hr')
  block_mem r' hr' := h.block_mem r' (mem_cons_of_mem _ hr')

theorem Partitions.mem_cartesian_part (h : Partitions rows cells blocks part blockOf)
    {bs : List β} (hbs : List.Forall₂ (· ∈ ·) bs (rows.map blocks)) {x : List α} :
    x ∈ cartesian (List.zipWith part rows bs) ↔
      x ∈ cartesian (rows.map cells) ∧ List.zipWith blockOf rows x = bs := by
  simp only [mem_cartesian]
  induction rows generalizing bs x with
  | nil =>
    cases hbs
    simp +contextual [List.forall₂_nil_right_iff]
  | cons r rows ih =>
    obtain _ | ⟨hb, hbs⟩ := hbs
    cases x with
    | nil => simp [List.forall₂_nil_left_iff]
    | cons a x =>
      simp only [zipWith_cons_cons, map_cons, List.forall₂_cons, List.cons.injEq,
        ih h.tail hbs, h.mem_part r mem_cons_self _ hb]
      tauto

/-- **Splitting every axis into blocks splits the product**: the concatenation of the products of
blocks is a rearrangement of the product of the cells. -/
theorem Partitions.flatMap_perm (h : Partitions rows cells blocks part blockOf) :
    ((cartesian (rows.map blocks)).flatMap fun bs => cartesian (List.zipWith part rows bs)).Perm
      (cartesian (rows.map cells)) := by
  have hparts : ∀ bs : List β, ∀ l ∈ List.zipWith part rows bs, l.Nodup := by
    intro bs l hl
    obtain ⟨i, hi, rfl⟩ := getElem_of_mem hl
    rw [getElem_zipWith]
    exact h.nodup_part _ (getElem_mem _) _
  have hblocks : (cartesian (rows.map blocks)).Nodup := by
    refine nodup_cartesian fun l hl => ?_
    obtain ⟨r, hr, rfl⟩ := mem_map.mp hl
    exact h.nodup_blocks r hr
  have hcells : (cartesian (rows.map cells)).Nodup := by
    refine nodup_cartesian fun l hl => ?_
    obtain ⟨r, hr, rfl⟩ := mem_map.mp hl
    exact h.nodup_cells r hr
  rw [perm_ext_iff_of_nodup ?_ hcells]
  · intro x
    rw [mem_flatMap]
    constructor
    · rintro ⟨bs, hbs, hx⟩
      exact ((h.mem_cartesian_part (mem_cartesian.mp hbs)).mp hx).1
    · intro hx
      -- the blocks of `x` itself
      have hmem : List.Forall₂ (· ∈ ·) (List.zipWith blockOf rows x) (rows.map blocks) := by
        have hx' := mem_cartesian.mp hx
        clear hx hparts hblocks hcells
        induction rows generalizing x with
        | nil =>
          cases hx'
          exact .nil
        | cons r rows ih =>
          obtain _ | ⟨ha, hx'⟩ := hx'
          exact .cons (h.block_mem r mem_cons_self _ ha) (ih h.tail _ hx')
      exact ⟨_, mem_cartesian.mpr hmem, (h.mem_cartesian_part hmem).mpr ⟨hx, rfl⟩⟩
  · refine nodup_flatMap.mpr ⟨fun bs _ => nodup_cartesian (hparts bs), ?_⟩
    refine hblocks.imp_of_mem fun {bs bs'} hbs hbs' hne x hx hx' => hne ?_
    have h1 := ((h.mem_cartesian_part (mem_cartesian.mp hbs)).mp hx).2
    have h2 := ((h.mem_cartesian_part (mem_cartesian.mp hbs')).mp hx').2
    rw [← h1, h2]

end Partition

section Lap

variable {σ : Type*} {step : σ → σ × Bool} {first : σ}

/-- From `s` the stepper passes through the states of the list, `s` first, and then wraps round to
`first`. The flag of `step` tells that it wrapped. -/
inductive Lap (step : σ → σ × Bool) (first : σ) : σ → List σ → Prop
  | wrap {s : σ} : step s = (first, true) → Lap step first s [s]
  | next {s s' : σ} {l : List σ} :
      step s = (s', false) → Lap step first s' l → Lap step first s (s :: l)

/-- One step of an odometer: advance the last axis; while the axis just advanced wrapped round,
go on to the axis before it. The flag tells that every axis wrapped. -/
def advance (step : σ → σ × Bool) : List σ → List σ × Bool
  | [] => ([], true)
  | a :: rest =>
    let (rest', carry) := advance step rest
    if carry then ((step a).1 :: rest', (step a).2) else (a :: rest', false)

/-- The loop that visits a state, steps, and leaves when the step wrapped round, for at most
`fuel` visits. -/
def visits (step : σ → σ × Bool) : (fuel : ℕ) → σ → List σ
  | 0, _ => []
  | n + 1, s => if (step s).2 then [s] else s :: visits step n (step s).1

theorem Lap.visits_eq {s : σ} {l : List σ} (h : Lap step first s l) {fuel : ℕ}
    (hfuel : l.length ≤ fuel) : visits step fuel s = l := by
  induction h generalizing fuel with
  | wrap hs =>
    obtain ⟨n, rfl⟩ := Nat.exists_eq_add_of_le' hfuel
    simp [visits, hs]
  | next hs _ ih =>
    obtain ⟨n, rfl⟩ := Nat.exists_eq_add_of_le'
      (Nat.le_trans (Nat.succ_le_succ (Nat.zero_le _)) hfuel)
    simp only [visits, hs, Bool.false_eq_true, if_false]
    rw [ih (by simpa using hfuel)]

/-- The last block of an odometer: while the head axis stays at `a`, which is about to wrap, the
inner axes run through the rest of their lap. -/
private theorem Lap.advance_last {fs t : List σ} {L : List (List σ)} {f a : σ}
    (ha : step a = (f, true)) (h : Lap (advance step) fs t L) :
    Lap (Odometer.advance step) (f :: fs) (a :: t) (L.map (a :: ·)) := by
  induction h with
  | wrap hs => exact .wrap (by simp [Odometer.advance, hs, ha])
  | next hs _ ih => exact .next (by simp [Odometer.advance, hs]) ih

/-- An inner block of an odometer: the inner axes run through the rest of their lap, and then the
head axis moves from `a` to `a'`. -/
private theorem Lap.advance_block {fs t : List σ} {L M : List (List σ)} {f a a' : σ}
    (ha : step a = (a', false)) (h : Lap (advance step) fs t L)
    (hM : Lap (advance step) (f :: fs) (a' :: fs) M) :
    Lap (Odometer.advance step) (f :: fs) (a :: t) (L.map (a :: ·) ++ M) := by
  induction h with
  | wrap hs => exact .next (by simp [Odometer.advance, hs, ha]) hM
  | next hs _ ih => exact .next (by simp [Odometer.advance, hs]) ih

/-- **An odometer runs through the Cartesian product.** If every axis makes a lap from its first
state, then so does the odometer, through the product of the axes' laps. -/
theorem Lap.advance {firsts : List σ} {laps : List (List σ)}
    (h : List.Forall₂ (fun f l => Lap step f f l) firsts laps) :
    Lap (Odometer.advance step) firsts firsts (cartesian laps) := by
  induction h with
  | nil => exact .wrap rfl
  | @cons f l fs ls hf _ ih =>
    -- the head axis may be anywhere on its lap; the inner axes are at their start
    suffices H : ∀ {s l}, Lap step f s l → Lap (Odometer.advance step) (f :: fs) (s :: fs)
        (l.flatMap fun a => (cartesian ls).map (a :: ·)) from H hf
    intro s l hl
    induction hl with
    | wrap hs => simpa using Lap.advance_last hs ih
    | next hs _ ih' => simpa using Lap.advance_block hs ih ih'

theorem lap_range' (f : ℕ → σ) {lo hi : ℕ} (hlt : lo < hi)
    (hnext : ∀ i, lo ≤ i → i + 1 < hi → step (f i) = (f (i + 1), false))
    (hwrap : step (f (hi - 1)) = (f lo, true)) :
    Lap step (f lo) (f lo) ((List.range' lo (hi - lo)).map f) := by
  suffices H : ∀ k i, lo ≤ i → i + (k + 1) = hi →
      Lap step (f lo) (f i) ((List.range' i (k + 1)).map f) by
    obtain ⟨k, hk⟩ : ∃ k, hi - lo = k + 1 := ⟨hi - lo - 1, by omega⟩
    rw [hk]
    exact H k lo le_rfl (by omega)
  intro k
  induction k with
  | zero =>
    intro i _ hi'
    obtain rfl : i = hi - 1 := by omega
    exact .wrap hwrap
  | succ k ih =>
    intro i hlo hi'
    rw [List.range'_succ, map_cons]
    exact .next (hnext i hlo (by omega)) (ih (i + 1) (by omega) (by omega))

end Lap

end Odometer

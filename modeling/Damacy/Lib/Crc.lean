import Mathlib.Data.BitVec
import Mathlib.Logic.Function.Iterate
import Mathlib.Data.List.Basic
import Mathlib.Data.List.GetD
import Mathlib.Tactic.Cases

/-!
# Cyclic redundancy checks, bit by bit

A register of `w` bits is shifted down by one bit per bit of a message, least significant bit first,
and the reflected generator is added whenever a one is shifted out (`feed`). The register depends
linearly on its start and on the message (`feedBits_xor`), so that `k ≤ w` bits can be added all at
once and shifted after (`feedBits_lowBits`); a table of what the low bits leave then does several
shifts in one step (`iterate_shift_mask`).

If the generator has its constant term, shifting is injective (`shift_eq_zero`), and two messages
that differ only within `w` consecutive bits leave different registers (`feedBits_ne_of_burst`).
-/

open List

namespace Crc

variable {w : ℕ} (g : BitVec w)

def shift (x : BitVec w) : BitVec w := (x >>> 1) ^^^ (if x.getLsbD 0 then g else 0)

def feed (x : BitVec w) (b : Bool) : BitVec w := shift g (x ^^^ BitVec.ofNat w b.toNat)

def feedBits (x : BitVec w) (bits : List Bool) : BitVec w := bits.foldl (feed g) x

def lowBits (k : ℕ) (x : BitVec w) : List Bool := (List.range k).map x.getLsbD

variable {g}

/-! ## Linearity -/

theorem xor_ite (b c : Bool) :
    (if b != c then g else 0) = (if b then g else 0) ^^^ (if c then g else 0) := by
  cases b <;> cases c <;> simp

theorem xor_xor_comm (a b c d : BitVec w) : (a ^^^ b) ^^^ (c ^^^ d) = (a ^^^ c) ^^^ (b ^^^ d) := by
  rw [BitVec.xor_assoc, ← BitVec.xor_assoc b c d, BitVec.xor_comm b c, BitVec.xor_assoc,
    BitVec.xor_assoc]

theorem shift_xor (x y : BitVec w) : shift g (x ^^^ y) = shift g x ^^^ shift g y := by
  unfold shift
  rw [BitVec.ushiftRight_xor_distrib, BitVec.getLsbD_xor, xor_ite, xor_xor_comm]

theorem ofNat_xor (b c : Bool) :
    BitVec.ofNat w (b != c).toNat = BitVec.ofNat w b.toNat ^^^ BitVec.ofNat w c.toNat := by
  cases b <;> cases c <;> simp

theorem feed_xor (x y : BitVec w) (b c : Bool) :
    feed g (x ^^^ y) (b != c) = feed g x b ^^^ feed g y c := by
  unfold feed
  rw [ofNat_xor, xor_xor_comm, shift_xor]

theorem feedBits_xor (x y : BitVec w) {l m : List Bool} (h : l.length = m.length) :
    feedBits g (x ^^^ y) (List.zipWith (· != ·) l m) = feedBits g x l ^^^ feedBits g y m := by
  induction l generalizing x y m with
  | nil =>
    obtain rfl := length_eq_zero_iff.mp h.symm
    rfl
  | cons b l ih =>
    cases m with
    | nil => exact absurd h (Nat.succ_ne_zero _)
    | cons c m =>
      have hstep := ih (feed g x b) (feed g y c) (Nat.succ.inj h)
      rw [← feed_xor] at hstep
      exact hstep

theorem iterate_shift_xor (k : ℕ) (x y : BitVec w) :
    (shift g)^[k] (x ^^^ y) = (shift g)^[k] x ^^^ (shift g)^[k] y := by
  induction k generalizing x y with
  | zero => rfl
  | succ k ih => rw [Function.iterate_succ_apply, shift_xor, ih]; rfl

theorem feedBits_append (x : BitVec w) (l m : List Bool) :
    feedBits g x (l ++ m) = feedBits g (feedBits g x l) m := foldl_append

theorem feedBits_replicate_false (k : ℕ) (x : BitVec w) :
    feedBits g x (List.replicate k false) = (shift g)^[k] x := by
  induction k generalizing x with
  | zero => rfl
  | succ k ih =>
    have hfeed : feed g x false = shift g x := by simp [feed]
    rw [replicate_succ, feedBits, foldl_cons, hfeed]
    exact ih _

/-! ## Words -/

theorem shift_of_getLsbD (x : BitVec w) (h : x.getLsbD 0 = false) : shift g x = x >>> 1 := by
  simp [shift, h]

theorem iterate_shift_of_low (x : BitVec w) {k : ℕ} (h : ∀ i < k, x.getLsbD i = false) :
    (shift g)^[k] x = x >>> k := by
  induction k generalizing x with
  | zero => simp
  | succ k ih =>
    rw [Function.iterate_succ_apply, shift_of_getLsbD x (h 0 (Nat.succ_pos k)), ih]
    · rw [← BitVec.shiftRight_add, Nat.add_comm]
    · intro i hi
      rw [BitVec.getLsbD_ushiftRight, Nat.add_comm]
      exact h (i + 1) (Nat.succ_lt_succ hi)

theorem iterate_shift_mask (k : ℕ) (x : BitVec w) :
    (shift g)^[k] x = (shift g)^[k] (x &&& BitVec.ofNat w (2 ^ k - 1)) ^^^ (x >>> k) := by
  set mask := BitVec.ofNat w (2 ^ k - 1)
  have hmask : ∀ i < w, mask.getLsbD i = decide (i < k) := fun i hi => by
    rw [BitVec.getLsbD_ofNat, Nat.testBit_two_pow_sub_one, decide_eq_true hi, Bool.true_and]
  have hsplit : x = (x &&& mask) ^^^ (x &&& ~~~mask) := by
    apply BitVec.eq_of_getLsbD_eq
    intro i hi
    rw [BitVec.getLsbD_xor, BitVec.getLsbD_and, BitVec.getLsbD_and, BitVec.getLsbD_not]
    cases x.getLsbD i <;> cases mask.getLsbD i <;> simp [hi]
  have hlow : ∀ i < k, (x &&& ~~~mask).getLsbD i = false := by
    intro i hi
    rw [BitVec.getLsbD_and, BitVec.getLsbD_not]
    by_cases hiw : i < w
    · rw [hmask i hiw, decide_eq_true hi]
      simp
    · simp [hiw]
  have hhigh : (x &&& ~~~mask) >>> k = x >>> k := by
    apply BitVec.eq_of_getLsbD_eq
    intro i _
    rw [BitVec.getLsbD_ushiftRight, BitVec.getLsbD_ushiftRight, BitVec.getLsbD_and,
      BitVec.getLsbD_not]
    by_cases hki : k + i < w
    · rw [hmask _ hki]
      simp [hki]
    · rw [BitVec.getLsbD_of_ge x _ (Nat.le_of_not_lt hki), Bool.false_and]
  nth_rewrite 1 [hsplit]
  rw [iterate_shift_xor, iterate_shift_of_low _ hlow, hhigh]

theorem shift_add_word (x v : BitVec w) :
    shift g (x ^^^ v) = feed g x (v.getLsbD 0) ^^^ (v >>> 1) := by
  have hsplit : v = BitVec.ofNat w (v.getLsbD 0).toNat ^^^
      (v ^^^ BitVec.ofNat w (v.getLsbD 0).toNat) := by
    rw [BitVec.xor_comm v, ← BitVec.xor_assoc, BitVec.xor_self, BitVec.zero_xor]
  have hlow : (v ^^^ BitVec.ofNat w (v.getLsbD 0).toNat).getLsbD 0 = false := by
    rcases Nat.eq_zero_or_pos w with rfl | hw
    · rw [BitVec.getLsbD_of_ge _ _ (Nat.zero_le _)]
    · rw [BitVec.getLsbD_xor, BitVec.getLsbD_ofNat]
      cases v.getLsbD 0 <;> simp [hw]
  have hshift : BitVec.ofNat w (v.getLsbD 0).toNat >>> 1 = 0#w := by
    apply BitVec.eq_of_getLsbD_eq
    intro i _
    have hone : Nat.testBit 1 (1 + i) = false := by
      rw [Bool.eq_false_iff, Ne, Nat.testBit_one_eq_true_iff_self_eq_zero]
      omega
    rw [BitVec.getLsbD_ushiftRight, BitVec.getLsbD_ofNat]
    cases v.getLsbD 0 <;> simp [hone]
  calc shift g (x ^^^ v)
      = shift g ((x ^^^ BitVec.ofNat w (v.getLsbD 0).toNat) ^^^
          (v ^^^ BitVec.ofNat w (v.getLsbD 0).toNat)) := by
        rw [BitVec.xor_assoc, ← hsplit]
    _ = feed g x (v.getLsbD 0) ^^^ (v >>> 1) := by
        rw [shift_xor, shift_of_getLsbD _ hlow, BitVec.ushiftRight_xor_distrib, hshift,
          BitVec.xor_zero, feed]

theorem feedBits_lowBits (k : ℕ) (x v : BitVec w) :
    (shift g)^[k] (x ^^^ v) = feedBits g x (lowBits k v) ^^^ (v >>> k) := by
  induction k generalizing x v with
  | zero => simp [lowBits, feedBits]
  | succ k ih =>
    have hbits : lowBits (k + 1) v = v.getLsbD 0 :: lowBits k (v >>> 1) := by
      unfold lowBits
      rw [range_succ_eq_map, map_cons, map_map]
      congr 1
      apply map_congr_left
      intro i _
      rw [Function.comp_apply, BitVec.getLsbD_ushiftRight, Nat.add_comm]
    rw [Function.iterate_succ_apply, shift_add_word, ih, hbits, feedBits, feedBits, foldl_cons,
      ← BitVec.shiftRight_add, Nat.add_comm 1 k]

theorem feedBits_word (x v : BitVec w) :
    feedBits g x (lowBits w v) = (shift g)^[w] (x ^^^ v) := by
  have hout : v >>> w = 0#w := by
    apply BitVec.eq_of_getLsbD_eq
    intro i _
    rw [BitVec.getLsbD_ushiftRight, BitVec.getLsbD_of_ge _ _ (Nat.le_add_right w i),
      BitVec.getLsbD_zero]
  rw [feedBits_lowBits, hout, BitVec.xor_zero]

/-! ## Bursts -/

theorem shift_eq_zero (hg : g.msb = true) {x : BitVec w} (h : shift g x = 0#w) : x = 0#w := by
  have hw : 0 < w := by
    rcases Nat.eq_zero_or_pos w with rfl | hw
    · rw [BitVec.msb_eq_getLsbD_last, BitVec.getLsbD_of_ge _ _ (Nat.zero_le _)] at hg
      exact absurd hg Bool.false_ne_true
    · exact hw
  rw [BitVec.msb_eq_getLsbD_last] at hg
  have hbit : ∀ i, (shift g x).getLsbD i = false := fun i => by rw [h, BitVec.getLsbD_zero]
  cases hx : x.getLsbD 0 with
  | true =>
    -- the top bit of the sum is that of the generator
    have htop := hbit (w - 1)
    rw [shift, hx, if_pos rfl, BitVec.getLsbD_xor, BitVec.getLsbD_ushiftRight, hg,
      BitVec.getLsbD_of_ge x _ (by omega)] at htop
    exact absurd htop (by decide)
  | false =>
    rw [shift_of_getLsbD x hx] at h
    apply BitVec.eq_of_getLsbD_eq
    intro i _
    rw [BitVec.getLsbD_zero]
    cases i with
    | zero => exact hx
    | succ i =>
      have hi := congrArg (fun y => y.getLsbD i) h
      rw [BitVec.getLsbD_ushiftRight, BitVec.getLsbD_zero, Nat.add_comm] at hi
      exact hi

theorem iterate_shift_eq_zero (hg : g.msb = true) (k : ℕ) {x : BitVec w}
    (h : (shift g)^[k] x = 0#w) : x = 0#w := by
  induction k with
  | zero => exact h
  | succ k ih =>
    rw [Function.iterate_succ_apply'] at h
    exact ih (shift_eq_zero hg h)

theorem lowBits_ofBoolListLE (bits : List Bool) :
    lowBits bits.length (BitVec.ofBoolListLE bits) = bits := by
  refine ext_getElem (by simp [lowBits]) fun i _ hi => ?_
  simp only [lowBits, getElem_map, getElem_range, BitVec.getLsbD_ofBoolListLE,
    getD_eq_getElem _ _ hi]

theorem exists_lowBits {bits : List Bool} (h : bits.length = w) :
    ∃ v : BitVec w, lowBits w v = bits := by
  subst h
  exact ⟨BitVec.ofBoolListLE bits, lowBits_ofBoolListLE bits⟩

theorem feedBits_ne_of_burst (hg : g.msb = true) (x : BitVec w) {before l m after : List Bool}
    (hl : l.length = w) (hm : m.length = w) (hne : l ≠ m) :
    feedBits g x (before ++ l ++ after) ≠ feedBits g x (before ++ m ++ after) := by
  intro heq
  rw [feedBits_append, feedBits_append, feedBits_append, feedBits_append] at heq
  set y := feedBits g x before
  obtain ⟨u, rfl⟩ := exists_lowBits hl
  obtain ⟨v, rfl⟩ := exists_lowBits hm
  -- after the burst, the difference of the registers takes zeros
  have hafter : feedBits g (feedBits g y (lowBits w u) ^^^ feedBits g y (lowBits w v))
      (List.replicate after.length false) = 0#w := by
    have hzip : List.zipWith (· != ·) after after = List.replicate after.length false :=
      ext_getElem (by simp) fun i _ _ => by simp
    rw [← hzip, feedBits_xor _ _ rfl, heq, BitVec.xor_self]
  rw [feedBits_replicate_false] at hafter
  have hburst := iterate_shift_eq_zero hg _ hafter
  rw [feedBits_word, feedBits_word, ← iterate_shift_xor, xor_xor_comm, BitVec.xor_self,
    BitVec.zero_xor] at hburst
  have hword := iterate_shift_eq_zero hg _ hburst
  exact hne (congrArg (lowBits w) (BitVec.xor_eq_zero_iff.mp hword))

end Crc

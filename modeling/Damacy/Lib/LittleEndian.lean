import Mathlib.Data.Nat.Digits.Defs
import Mathlib.Data.Nat.Digits.Lemmas
import Mathlib.Data.Nat.Bitwise

/-!
# Little-endian numbers

`value` is the number that a byte string spells, `bytes n v` the low `n` bytes of a number. They are
inverse to each other on strings of `n` bytes and numbers below `256 ^ n`. `load` builds a number
from its bytes with shifts and bitwise or, as C code does; it is `value` (`load_eq`).
-/

open List

namespace LittleEndian

def value (bs : List UInt8) : ℕ := Nat.ofDigits 256 (bs.map UInt8.toNat)

def bytes (n v : ℕ) : List UInt8 := (List.range n).map fun i => UInt8.ofNat (v >>> (8 * i))

def load (n : ℕ) (p : List UInt8) : ℕ :=
  (List.range n).foldl (fun v i => v ||| (p.getD i 0).toNat <<< (8 * i)) 0

variable {n v : ℕ} {p bs cs : List UInt8}

@[simp] theorem length_bytes (n v : ℕ) : (bytes n v).length = n := by simp [bytes]

@[simp] theorem value_nil : value [] = 0 := rfl

theorem value_cons (b : UInt8) (bs : List UInt8) : value (b :: bs) = b.toNat + 256 * value bs := by
  rw [value, map_cons, Nat.ofDigits_cons]
  rfl

theorem digit_lt (bs : List UInt8) : ∀ d ∈ bs.map UInt8.toNat, d < 256 := by
  intro d hd
  obtain ⟨b, -, rfl⟩ := mem_map.mp hd
  exact b.toNat_lt

theorem value_lt (bs : List UInt8) : value bs < 256 ^ bs.length := by
  have hlt := Nat.ofDigits_lt_base_pow_length (by decide : 1 < 256) (digit_lt bs)
  rwa [length_map] at hlt

theorem value_append (bs cs : List UInt8) :
    value (bs ++ cs) = value bs + 256 ^ bs.length * value cs := by
  rw [value, map_append, Nat.ofDigits_append, length_map]
  rfl

theorem bytes_succ (n v : ℕ) : bytes (n + 1) v = UInt8.ofNat v :: bytes n (v / 256) := by
  unfold bytes
  rw [range_succ_eq_map, map_cons, map_map]
  congr 1
  apply map_congr_left
  intro i _
  rw [Function.comp_apply, Nat.succ_eq_add_one, Nat.mul_add, Nat.mul_one, Nat.add_comm (8 * i) 8,
    Nat.shiftRight_add, Nat.shiftRight_eq_div_pow v 8]

theorem value_bytes (n v : ℕ) : value (bytes n v) = v % 256 ^ n := by
  induction n generalizing v with
  | zero => simp [bytes, Nat.mod_one]
  | succ n ih =>
    rw [bytes_succ, value_cons, ih, Nat.pow_succ, Nat.mul_comm (256 ^ n) 256, Nat.mod_mul,
      UInt8.toNat_ofNat']

theorem value_bytes_of_lt (h : v < 256 ^ n) : value (bytes n v) = v := by
  rw [value_bytes, Nat.mod_eq_of_lt h]

theorem bytes_value (bs : List UInt8) : bytes bs.length (value bs) = bs := by
  induction bs with
  | nil => rfl
  | cons b bs ih =>
    have hb := b.toNat_lt
    have hdiv : (b.toNat + 256 * value bs) / 256 = value bs := by omega
    have hmod : UInt8.ofNat (b.toNat + 256 * value bs) = b := by
      apply UInt8.toNat_inj.mp
      rw [UInt8.toNat_ofNat']
      omega
    rw [length_cons, value_cons, bytes_succ, hdiv, hmod, ih]

theorem load_eq (hp : n ≤ p.length) : load n p = value (p.take n) := by
  induction n with
  | zero => rfl
  | succ n ih =>
    have hn : n < p.length := hp
    have hlen : (p.take n).length = n := by rw [length_take]; omega
    have hlt : value (p.take n) < 2 ^ (8 * n) := by
      have hvalue := value_lt (p.take n)
      rwa [hlen, show 256 = 2 ^ 8 from rfl, ← Nat.pow_mul] at hvalue
    have hstep : load (n + 1) p = load n p ||| (p.getD n 0).toNat <<< (8 * n) := by
      rw [load, range_succ, foldl_append]
      rfl
    have htake : p.take (n + 1) = p.take n ++ [p[n]] := take_succ_eq_append_getElem hn
    rw [hstep, ih (Nat.le_of_succ_le hp), getD_eq_getElem _ _ hn, htake, value_append, hlen,
      Nat.or_comm, ← Nat.shiftLeft_add_eq_or_of_lt hlt, Nat.shiftLeft_eq]
    rw [value_cons, value_nil, show 256 = 2 ^ 8 from rfl, ← Nat.pow_mul]
    ring

end LittleEndian

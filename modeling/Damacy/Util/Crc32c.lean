import Damacy.Lib.Crc

/-!
# CRC-32C (`util/crc32c.c`)

`crc32c` takes a byte per step from a table of 256 words. `crc32c_eq_bitwise` says that this is the
CRC-32C of the standard, one bit at a time.
-/

open List

namespace Damacy

def crc32cPolynomial : BitVec 32 := 0x82F63B78#32

/-- The entry `crc32c_table[i]` that `crc32c_init` computes. -/
def crc32cEntry (i : ℕ) : BitVec 32 :=
  (List.range 8).foldl
    (fun crc _ => (crc >>> 1) ^^^ (crc32cPolynomial &&& (0#32 - (crc &&& 1#32)))) (BitVec.ofNat 32 i)

def crc32cTable : List (BitVec 32) := (List.range 256).map crc32cEntry

def crc32cRound (crc : BitVec 32) (b : UInt8) : BitVec 32 :=
  crc32cTable.getD ((crc ^^^ b.toBitVec.setWidth 32) &&& 0xFF#32).toNat 0 ^^^ (crc >>> 8)

def crc32c (data : List UInt8) : BitVec 32 := data.foldl crc32cRound 0xFFFFFFFF#32 ^^^ 0xFFFFFFFF#32

/-! ## One bit at a time -/

def byteBits (b : UInt8) : List Bool := (List.range 8).map b.toBitVec.getLsbD

def crcBits (data : List UInt8) : List Bool := data.flatMap byteBits

def crc32cBit (crc : BitVec 32) (bit : Bool) : BitVec 32 :=
  if crc.getLsbD 0 != bit then (crc >>> 1) ^^^ 0x82F63B78#32 else crc >>> 1

def crc32cBitwise (data : List UInt8) : BitVec 32 :=
  (crcBits data).foldl crc32cBit 0xFFFFFFFF#32 ^^^ 0xFFFFFFFF#32

theorem crc32cPolynomial_msb : crc32cPolynomial.msb = true := by decide

theorem polynomial_and_mask (crc : BitVec 32) :
    crc32cPolynomial &&& (0#32 - (crc &&& 1#32)) =
      if crc.getLsbD 0 then crc32cPolynomial else 0 := by
  rw [BitVec.and_one_eq_setWidth_ofBool_getLsbD]
  cases crc.getLsbD 0 <;> decide

theorem crc32cEntry_eq (i : ℕ) :
    crc32cEntry i = (Crc.shift crc32cPolynomial)^[8] (BitVec.ofNat 32 i) := by
  have hround : (fun (crc : BitVec 32) (_ : ℕ) =>
      (crc >>> 1) ^^^ (crc32cPolynomial &&& (0#32 - (crc &&& 1#32)))) =
      fun crc _ => Crc.shift crc32cPolynomial crc := by
    funext crc _
    rw [polynomial_and_mask, Crc.shift]
  rw [crc32cEntry, hround]
  rfl

theorem crc32cRound_eq (crc : BitVec 32) (b : UInt8) :
    crc32cRound crc b = Crc.feedBits crc32cPolynomial crc (byteBits b) := by
  set v : BitVec 32 := b.toBitVec.setWidth 32
  have hbits : Crc.lowBits 8 v = byteBits b := by
    unfold Crc.lowBits byteBits
    apply map_congr_left
    intro i hi
    rw [BitVec.getLsbD_setWidth]
    simp [(mem_range.mp hi).trans (by decide : 8 < 32)]
  have hout : v >>> 8 = 0#32 := by
    apply BitVec.eq_of_getLsbD_eq
    intro i _
    rw [BitVec.getLsbD_ushiftRight, BitVec.getLsbD_setWidth,
      BitVec.getLsbD_of_ge b.toBitVec _ (Nat.le_add_right 8 i)]
    simp
  have hindex : ((crc ^^^ v) &&& 0xFF#32).toNat < 256 := by
    rw [BitVec.toNat_and]
    exact Nat.lt_succ_of_le Nat.and_le_right
  have hlookup : crc32cTable.getD ((crc ^^^ v) &&& 0xFF#32).toNat 0 =
      (Crc.shift crc32cPolynomial)^[8] ((crc ^^^ v) &&& 0xFF#32) := by
    rw [getD_eq_getElem _ _ (by simpa [crc32cTable] using hindex)]
    simp only [crc32cTable, getElem_map, getElem_range]
    rw [crc32cEntry_eq, BitVec.ofNat_toNat, BitVec.setWidth_eq]
  have hshift : crc >>> 8 = (crc ^^^ v) >>> 8 := by
    rw [BitVec.ushiftRight_xor_distrib, hout, BitVec.xor_zero]
  calc crc32cRound crc b
      = (Crc.shift crc32cPolynomial)^[8] ((crc ^^^ v) &&& 0xFF#32) ^^^ ((crc ^^^ v) >>> 8) := by
        rw [crc32cRound, hlookup, hshift]
    _ = (Crc.shift crc32cPolynomial)^[8] (crc ^^^ v) :=
        (Crc.iterate_shift_mask 8 (crc ^^^ v)).symm
    _ = Crc.feedBits crc32cPolynomial crc (byteBits b) := by
        rw [Crc.feedBits_lowBits, hbits, hout, BitVec.xor_zero]

theorem foldl_crc32cRound (data : List UInt8) (crc : BitVec 32) :
    data.foldl crc32cRound crc = Crc.feedBits crc32cPolynomial crc (crcBits data) := by
  induction data generalizing crc with
  | nil => rfl
  | cons b data ih =>
    have hbits : crcBits (b :: data) = byteBits b ++ crcBits data := flatMap_cons
    rw [foldl_cons, crc32cRound_eq, ih, hbits, Crc.feedBits_append]

theorem feed_crc32cPolynomial : Crc.feed crc32cPolynomial = crc32cBit := by
  funext crc bit
  have hlow : (crc ^^^ BitVec.ofNat 32 bit.toNat).getLsbD 0 = (crc.getLsbD 0 != bit) := by
    rw [BitVec.getLsbD_xor]
    cases bit <;> simp
  have hhigh : (crc ^^^ BitVec.ofNat 32 bit.toNat) >>> 1 = crc >>> 1 := by
    have hone : BitVec.ofNat 32 bit.toNat >>> 1 = 0#32 := by cases bit <;> decide
    rw [BitVec.ushiftRight_xor_distrib, hone, BitVec.xor_zero]
  rw [Crc.feed, Crc.shift, crc32cBit, hlow, hhigh]
  split
  · rfl
  · rw [show (0 : BitVec 32) = 0#32 from rfl, BitVec.xor_zero]

theorem crc32c_eq_feedBits (data : List UInt8) : crc32c data =
    Crc.feedBits crc32cPolynomial 0xFFFFFFFF#32 (crcBits data) ^^^ 0xFFFFFFFF#32 := by
  rw [crc32c, foldl_crc32cRound]

theorem crc32cBitwise_eq_feedBits (data : List UInt8) : crc32cBitwise data =
    Crc.feedBits crc32cPolynomial 0xFFFFFFFF#32 (crcBits data) ^^^ 0xFFFFFFFF#32 := by
  rw [crc32cBitwise, Crc.feedBits, feed_crc32cPolynomial]

/-- **`crc32c` is CRC-32C.** -/
theorem crc32c_eq_bitwise (data : List UInt8) : crc32c data = crc32cBitwise data := by
  rw [crc32c_eq_feedBits, crc32cBitwise_eq_feedBits]

/-- The check value of the standard: the CRC of the digits `1` to `9`. -/
example : crc32c [0x31, 0x32, 0x33, 0x34, 0x35, 0x36, 0x37, 0x38, 0x39] = 0xE3069283#32 := by
  decide +kernel

end Damacy

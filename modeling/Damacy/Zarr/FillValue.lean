import Damacy.Zarr.Describe
import Damacy.Lib.LittleEndian

/-!
# Fill values of integer types (`parse_fill_value`)

The fill value of an integer array is converted to a 64-bit number of the same signedness, and its
low bytes are stored. A value that needs more bytes than the type has is not rejected but cut off:
`storeFillValue_exact_iff` says for which values the stored bytes are those of the value in the
document.
-/

open JsonText

namespace Damacy

/-- The bytes that `parse_fill_value` writes: `pack_le` writes those of the integer types, and on a
little-endian machine a floating-point number is stored in the same way. -/
def storeFillValue (ops : DoubleOps) (n : JsonNode) (dt : Dtype) : Option (List UInt8) :=
  (parseFillValue ops n dt).map (LittleEndian.bytes (dtypeBpe dt))

def Dtype.isInteger (dt : Dtype) : Bool := dt.isUnsigned || dt.isSigned

def readInteger (dt : Dtype) (bytes : List UInt8) : ℤ :=
  if dt.isSigned then signedOf (8 * dtypeBpe dt) (LittleEndian.value bytes)
  else LittleEndian.value bytes

theorem value_bytes_packLe (n v : ℕ) : LittleEndian.value (LittleEndian.bytes n v) = packLe v n := by
  rw [LittleEndian.value_bytes, packLe, show 256 = 2 ^ 8 from rfl, ← Nat.pow_mul]

theorem bytes_packLe (n v : ℕ) : LittleEndian.bytes n (packLe v n) = LittleEndian.bytes n v := by
  have hbytes := LittleEndian.bytes_value (LittleEndian.bytes n v)
  rwa [LittleEndian.length_bytes, value_bytes_packLe] at hbytes

theorem storeFillValue_unsigned {dt : Dtype} (hdt : dt.isUnsigned = true) (ops : DoubleOps)
    (n : JsonNode) : storeFillValue ops n dt =
      (jsonAsUint n).toOption.map (LittleEndian.bytes (dtypeBpe dt)) := by
  cases dt with
  | u8 | u16 | u32 | u64 =>
    simp only [storeFillValue, parseFillValue, Option.map_map, Function.comp_def, bytes_packLe]
  | i8 | i16 | i32 | i64 | f16 | f32 | f64 => exact absurd hdt (by decide)

theorem storeFillValue_signed {dt : Dtype} (hdt : dt.isSigned = true) (ops : DoubleOps)
    (n : JsonNode) : storeFillValue ops n dt =
      (jsonAsInt n).toOption.map fun z => LittleEndian.bytes (dtypeBpe dt) (u64OfInt z) := by
  cases dt with
  | i8 | i16 | i32 | i64 =>
    simp only [storeFillValue, parseFillValue, Option.map_map, Function.comp_def, bytes_packLe]
  | u8 | u16 | u32 | u64 | f16 | f32 | f64 => exact absurd hdt (by decide)

/-! ## Exact fill values -/

def Converts (dt : Dtype) (m : Number) : Prop :=
  if dt.isSigned then -2 ^ 63 ≤ m.intValue ∧ m.intValue < 2 ^ 63
  else m.negative = false ∧ m.intValue < 2 ^ 64

theorem toOption_eq_some {α : Type} {x : Except JsonErr α} {a : α} :
    x.toOption = some a ↔ x = .ok a := by
  cases x with
  | error e => simp [Except.toOption]
  | ok b => simp [Except.toOption]

theorem u64OfInt_of_lt {k : ℕ} (h : k < 2 ^ 64) : u64OfInt (k : ℤ) = k := by
  rw [u64OfInt]
  omega

theorem storeFillValue_eq_some {ops : DoubleOps} {dt : Dtype} (hdt : dt.isInteger = true) {v : Value}
    {bytes : List UInt8} : storeFillValue ops (valueNode v) dt = some bytes ↔
      ∃ m, v = .number m ∧ m.isFloat = false ∧ Converts dt m ∧
        bytes = LittleEndian.bytes (dtypeBpe dt) (u64OfInt m.intValue) := by
  have hunsigned : (jsonAsUint (valueNode v)).toOption.map (LittleEndian.bytes (dtypeBpe dt)) =
      some bytes ↔ ∃ m, v = .number m ∧ m.isFloat = false ∧
        (m.negative = false ∧ m.intValue < 2 ^ 64) ∧
        bytes = LittleEndian.bytes (dtypeBpe dt) (u64OfInt m.intValue) := by
    simp only [Option.map_eq_some_iff, toOption_eq_some, jsonAsUint_ok_iff]
    constructor
    · rintro ⟨k, ⟨m, hm, hfloat, hneg, rfl, hlt⟩, rfl⟩
      have hint : m.intValue = m.int.value := by rw [Number.intValue, hneg]; rfl
      refine ⟨m, hm, hfloat, ⟨hneg, by omega⟩, ?_⟩
      rw [hint, u64OfInt_of_lt hlt]
    · rintro ⟨m, hm, hfloat, ⟨hneg, hlt⟩, rfl⟩
      have hint : m.intValue = m.int.value := by rw [Number.intValue, hneg]; rfl
      rw [hint] at hlt
      have hlt' : m.int.value < 2 ^ 64 := by omega
      refine ⟨m.int.value, ⟨m, hm, hfloat, hneg, rfl, hlt'⟩, ?_⟩
      rw [hint, u64OfInt_of_lt hlt']
  have hsigned : (jsonAsInt (valueNode v)).toOption.map
        (fun z => LittleEndian.bytes (dtypeBpe dt) (u64OfInt z)) = some bytes ↔
      ∃ m, v = .number m ∧ m.isFloat = false ∧ (-2 ^ 63 ≤ m.intValue ∧ m.intValue < 2 ^ 63) ∧
        bytes = LittleEndian.bytes (dtypeBpe dt) (u64OfInt m.intValue) := by
    simp only [Option.map_eq_some_iff, toOption_eq_some, jsonAsInt_ok_iff]
    constructor
    · rintro ⟨z, ⟨m, hm, hfloat, rfl, hrange⟩, rfl⟩
      exact ⟨m, hm, hfloat, hrange, rfl⟩
    · rintro ⟨m, hm, hfloat, hrange, rfl⟩
      exact ⟨_, ⟨m, hm, hfloat, rfl, hrange⟩, rfl⟩
  cases dt with
  | f16 | f32 | f64 => exact absurd hdt (by decide)
  | u8 | u16 | u32 | u64 =>
    rw [storeFillValue_unsigned rfl]
    exact hunsigned
  | i8 | i16 | i32 | i64 =>
    rw [storeFillValue_signed rfl]
    exact hsigned

theorem readInteger_bytes {dt : Dtype} (hdt : dt.isInteger = true) (z : ℤ) :
    readInteger dt (LittleEndian.bytes (dtypeBpe dt) (u64OfInt z)) = z ↔ dt.InRange z := by
  rw [readInteger, value_bytes_packLe, packLe, u64OfInt, Dtype.InRange]
  cases dt with
  | f16 | f32 | f64 => exact absurd hdt (by decide)
  | u8 | u16 | u32 | u64 =>
    simp only [Dtype.isSigned, Dtype.isUnsigned, dtypeBpe, Bool.false_eq_true, if_false, true_and]
    omega
  | i8 | i16 | i32 | i64 =>
    simp only [Dtype.isSigned, dtypeBpe, if_true, signedOf]
    split_ifs <;> omega

/-- The fill value is stored as it is written in the document, or rejected. -/
structure FillExact (ops : DoubleOps) (dt : Dtype) (v : Value) : Prop where
  exact : ∀ bytes, storeFillValue ops (valueNode v) dt = some bytes →
    ∃ m, v = .number m ∧ m.value = readInteger dt bytes
  rejects : ∀ m, v = .number m → (∀ z, dt.InRange z → m.value ≠ z) →
    storeFillValue ops (valueNode v) dt = none

def FillTruncated (dt : Dtype) (v : Value) : Prop :=
  ∃ m, v = .number m ∧ m.isFloat = false ∧ Converts dt m ∧ ¬ dt.InRange m.intValue

/-- **Fill values are exact unless they are cut off.** -/
theorem storeFillValue_exact_iff (ops : DoubleOps) {dt : Dtype} (hdt : dt.isInteger = true)
    (v : Value) : FillExact ops dt v ↔ ¬ FillTruncated dt v := by
  constructor
  · rintro hexact ⟨m, rfl, hfloat, hconv, hrange⟩
    obtain ⟨m', hm', hvalue⟩ := hexact.exact _
      ((storeFillValue_eq_some hdt).mpr ⟨m, rfl, hfloat, hconv, rfl⟩)
    obtain rfl := Value.number.inj hm'
    rw [Number.value_eq_intValue hfloat, Int.cast_inj] at hvalue
    exact hrange ((readInteger_bytes hdt _).mp hvalue.symm)
  · intro hwhole
    have hrange : ∀ m, v = .number m → m.isFloat = false → Converts dt m → dt.InRange m.intValue :=
      fun m hm hfloat hconv => by_contra fun hout => hwhole ⟨m, hm, hfloat, hconv, hout⟩
    constructor
    · intro bytes hstore
      obtain ⟨m, hm, hfloat, hconv, rfl⟩ := (storeFillValue_eq_some hdt).mp hstore
      refine ⟨m, hm, ?_⟩
      rw [Number.value_eq_intValue hfloat, (readInteger_bytes hdt _).mpr (hrange m hm hfloat hconv)]
    · intro m hm hout
      by_contra hstore
      obtain ⟨bytes, hstore⟩ := Option.ne_none_iff_exists'.mp hstore
      obtain ⟨m', hm', hfloat, hconv, -⟩ := (storeFillValue_eq_some hdt).mp hstore
      obtain rfl := Value.number.inj (hm.symm.trans hm')
      exact hout _ (hrange m hm hfloat hconv) (Number.value_eq_intValue hfloat)

def noDoubles : DoubleOps := ⟨fun _ => none, id, 0, 0, id⟩

def threeHundred : Number where
  negative := false
  int := ⟨[0x33, 0x30, 0x30], by decide, by simp [isDigit]⟩
  leading := .inr (by decide)
  frac := none
  exp := none

theorem threeHundred_inRange : Dtype.u16.InRange threeHundred.intValue := by
  have hvalue : threeHundred.intValue = 300 := by decide
  rw [hvalue, Dtype.InRange]
  decide

/-- `300` is a fill value of 16 bits. -/
theorem storeFillValue_exact_u16 : FillExact noDoubles .u16 (.number threeHundred) := by
  refine (storeFillValue_exact_iff noDoubles (by decide) _).mpr ?_
  rintro ⟨m, hm, -, -, hout⟩
  obtain rfl := Value.number.inj hm
  exact hout threeHundred_inRange

/-- `300` is stored as `44` in 8 bits. -/
theorem storeFillValue_u8_truncated :
    storeFillValue noDoubles (valueNode (.number threeHundred)) .u8 = some [44] ∧
      threeHundred.value = 300 ∧ ¬ FillExact noDoubles .u8 (.number threeHundred) := by
  have hstore : storeFillValue noDoubles (valueNode (.number threeHundred)) .u8 = some [44] := by
    decide +kernel
  have hvalue : threeHundred.value = 300 := by
    rw [Number.value_eq_intValue (by decide), show threeHundred.intValue = 300 by decide]
    rfl
  refine ⟨hstore, hvalue, fun hexact => ?_⟩
  obtain ⟨m, hm, heq⟩ := hexact.exact _ hstore
  obtain rfl := Value.number.inj hm
  rw [hvalue, show readInteger .u8 [44] = 44 by decide +kernel] at heq
  exact absurd heq (by norm_num)

end Damacy

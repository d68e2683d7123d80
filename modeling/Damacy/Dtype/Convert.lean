import Mathlib.Tactic.Positivity
import Mathlib.Tactic.Ring
import Damacy.Types

/-!
# Element conversion (`dtype/dtype.h`, `dtype/convert.h`)

An element is its bit pattern, a number below `2 ^ (8 · bpe)`. Integer conversions clamp to the
range of the output type. Conversions through `float` use the arithmetic of the platform, which is
a parameter; what the code computes on bit patterns itself (half precision, `bfloat16`) is written
out.
-/

namespace Damacy

/-- `enum dtype`, the element types of a stored array. -/
inductive Dtype
  | u8 | u16 | u32 | u64 | i8 | i16 | i32 | i64 | f16 | f32 | f64
deriving DecidableEq, Repr

/-- `dtype_bpe`: bytes per stored element. -/
def dtypeBpe : Dtype → ℕ
  | .u8 | .i8 => 1
  | .u16 | .i16 | .f16 => 2
  | .u32 | .i32 | .f32 => 4
  | .u64 | .i64 | .f64 => 8

/-- `cast_path_supported`: every source type except `f64`. -/
def castPathSupported (_dst : OutDtype) : Dtype → Bool
  | .f64 => false
  | _ => true

/-- The `float` operations of the platform, on bit patterns. -/
structure FloatOps where
  ofUnsigned : ℕ → ℕ
  ofSigned : ℤ → ℕ
  isPositive : ℕ → Bool
  isNaN : ℕ → Bool
  le : ℕ → ℕ → Bool
  toUnsigned : ℕ → ℕ
  toSigned : ℕ → ℤ

def signedOf (w x : ℕ) : ℤ := if x < 2 ^ (w - 1) then x else (x : ℤ) - 2 ^ w

def patternOf (w : ℕ) (v : ℤ) : ℕ := (v % 2 ^ w).toNat

/-- The normalisation loop of `dtype_half_to_float`; ten shifts reach the hidden bit. -/
def halfNormalize : (fuel mantissa shift : ℕ) → ℕ × ℕ
  | 0, mantissa, shift => (mantissa, shift)
  | n + 1, mantissa, shift =>
    if mantissa &&& 1024 = 0 then halfNormalize n (mantissa <<< 1) (shift + 1)
    else (mantissa, shift)

def dtypeHalfToFloat (half : ℕ) : ℕ :=
  let sign := (half &&& 0x8000) <<< 16
  let exponent := (half >>> 10) &&& 31
  let mantissa := half &&& 1023
  if exponent = 0 then
    if mantissa = 0 then sign
    else
      let (mantissa, shift) := halfNormalize 10 mantissa 0
      sign ||| (113 - shift) <<< 23 ||| (mantissa &&& 1023) <<< 13
  else sign ||| (if exponent = 31 then 255 else exponent + 112) <<< 23 ||| mantissa <<< 13

def dtypeFloatToBfloat (bits : ℕ) : ℕ :=
  if 0x7f800000 < bits &&& 0x7fffffff then 0x7fff
  else (u32 (bits + 0x7fff + ((bits >>> 16) &&& 1)) >>> 16) % 2 ^ 16

def Dtype.isSigned : Dtype → Bool
  | .i8 | .i16 | .i32 | .i64 => true
  | _ => false

/-- The unsigned integer types (`type <= dtype_u64`). -/
def Dtype.isUnsigned : Dtype → Bool
  | .u8 | .u16 | .u32 | .u64 => true
  | _ => false

def dtypeLoadSigned (t : Dtype) (x : ℕ) : ℤ := signedOf (8 * dtypeBpe t) x

def dtypeAsFloat (ops : FloatOps) (t : Dtype) (x : ℕ) : ℕ :=
  if t.isUnsigned then ops.ofUnsigned x
  else if t.isSigned then ops.ofSigned (dtypeLoadSigned t x)
  else if t = .f16 then dtypeHalfToFloat x
  else x

def dtypeAsUnsigned (ops : FloatOps) (t : Dtype) (x maximum : ℕ) : ℕ :=
  if t.isUnsigned then if maximum < x then maximum else x
  else if t.isSigned then
    let value := dtypeLoadSigned t x
    if value < 0 then 0 else if maximum < value.toNat then maximum else value.toNat
  else
    let value := dtypeAsFloat ops t x
    if !ops.isPositive value then 0
    else if ops.le (ops.ofUnsigned maximum) value then maximum
    else ops.toUnsigned value

def dtypeAsSigned (ops : FloatOps) (t : Dtype) (x : ℕ) (minimum maximum : ℤ) : ℤ :=
  if t.isUnsigned then if maximum < x then maximum else x
  else if t.isSigned then
    let value := dtypeLoadSigned t x
    if value < minimum then minimum else if maximum < value then maximum else value
  else
    let value := dtypeAsFloat ops t x
    if ops.isNaN value then 0
    else if ops.le value (ops.ofSigned minimum) then minimum
    else if ops.le (ops.ofSigned maximum) value then maximum
    else ops.toSigned value

/-- The unsigned output types are stored through `dtype_as_unsigned` with their own maximum. -/
def storeUnsigned (ops : FloatOps) (w : ℕ) (t : Dtype) (x : ℕ) : ℕ :=
  dtypeAsUnsigned ops t x (2 ^ w - 1)

/-- The signed output types are stored through `dtype_as_signed` with their own range. -/
def storeSigned (ops : FloatOps) (w : ℕ) (t : Dtype) (x : ℕ) : ℕ :=
  patternOf w (dtypeAsSigned ops t x (-(2 ^ (w - 1))) (2 ^ (w - 1) - 1))

def dtypeConvert (ops : FloatOps) (output : OutDtype) (input : Dtype) (x : ℕ) : ℕ :=
  match output with
  | .f32 => dtypeAsFloat ops input x
  | .bf16 => dtypeFloatToBfloat (dtypeAsFloat ops input x)
  | .u8 => storeUnsigned ops 8 input x
  | .u16 => storeUnsigned ops 16 input x
  | .u32 => storeUnsigned ops 32 input x
  | .u64 => storeUnsigned ops 64 input x
  | .i8 => storeSigned ops 8 input x
  | .i16 => storeSigned ops 16 input x
  | .i32 => storeSigned ops 32 input x
  | .i64 => storeSigned ops 64 input x

def dtypeMatches (destination : OutDtype) (source : Dtype) : Bool :=
  match destination with
  | .f32 => source == .f32
  | .u8 => source == .u8
  | .u16 => source == .u16
  | .u32 => source == .u32
  | .u64 => source == .u64
  | .i8 => source == .i8
  | .i16 => source == .i16
  | .i32 => source == .i32
  | .i64 => source == .i64
  | .bf16 => false

/-! ## Matching types -/

theorem storeUnsigned_self {ops : FloatOps} {t : Dtype} (ht : t.isUnsigned) {w x : ℕ}
    (hx : x < 2 ^ w) : storeUnsigned ops w t x = x := by
  have hle : ¬ 2 ^ w - 1 < x := by omega
  simp [storeUnsigned, dtypeAsUnsigned, ht, hle]

theorem patternOf_signedOf {w x : ℕ} (hx : x < 2 ^ w) : patternOf w (signedOf w x) = x := by
  have hx' : (x : ℤ) < 2 ^ w := by exact_mod_cast hx
  unfold patternOf signedOf
  split
  · rw [Int.emod_eq_of_lt (by omega) hx', Int.toNat_natCast]
  · rw [Int.sub_emod_right, Int.emod_eq_of_lt (by omega) hx', Int.toNat_natCast]

theorem signedOf_range {w x : ℕ} (hw : 0 < w) (hx : x < 2 ^ w) :
    -(2 ^ (w - 1)) ≤ signedOf w x ∧ signedOf w x ≤ 2 ^ (w - 1) - 1 := by
  obtain ⟨v, rfl⟩ : ∃ v, w = v + 1 := ⟨w - 1, by omega⟩
  have hpow : (2 : ℤ) ^ (v + 1) = 2 * 2 ^ v := by ring
  have hx' : (x : ℤ) < 2 * 2 ^ v := by
    rw [← hpow]
    exact_mod_cast hx
  have hpos : (0 : ℤ) < 2 ^ v := by positivity
  simp only [signedOf, Nat.add_sub_cancel, hpow]
  split
  · rename_i h
    have : (x : ℤ) < 2 ^ v := by exact_mod_cast h
    omega
  · rename_i h
    have : (2 : ℤ) ^ v ≤ x := by exact_mod_cast Nat.le_of_not_lt h
    omega

theorem storeSigned_self {ops : FloatOps} {t : Dtype} (hu : t.isUnsigned = false)
    (ht : t.isSigned) {w x : ℕ} (hw : 8 * dtypeBpe t = w) (hpos : 0 < w) (hx : x < 2 ^ w) :
    storeSigned ops w t x = x := by
  obtain ⟨hlo, hhi⟩ := signedOf_range hpos hx
  have h1 : ¬ signedOf w x < -(2 ^ (w - 1)) := by omega
  have h2 : ¬ 2 ^ (w - 1) - 1 < signedOf w x := by omega
  simp only [storeSigned, dtypeAsSigned, hu, ht, dtypeLoadSigned, hw, Bool.false_eq_true, if_true,
    if_false, h1, h2]
  exact patternOf_signedOf hx

/-- **Between matching types the conversion is the identity**, so copying a row byte by byte
converts it. -/
theorem dtypeConvert_of_matches {ops : FloatOps} {output : OutDtype} {input : Dtype}
    (h : dtypeMatches output input) {x : ℕ} (hx : x < 2 ^ (8 * dtypeBpe input)) :
    dtypeConvert ops output input x = x := by
  cases output <;> simp only [dtypeMatches, beq_iff_eq, Bool.false_eq_true] at h <;> subst h
  case f32 => rfl
  case u8 | u16 | u32 | u64 => exact storeUnsigned_self rfl hx
  case i8 | i16 | i32 | i64 => exact storeSigned_self rfl rfl rfl (by decide) hx

end Damacy

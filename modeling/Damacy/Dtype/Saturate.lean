import Damacy.Dtype.Convert

/-!
# Integer conversions saturate (`dtype/convert.h`)

Between integer types `dtype_convert` loads the source into 64 bits, clamps it there, with signed or
unsigned comparisons as the types have it, and stores the low bytes. `dtypeConvertWord` is that
computation on machine words; it agrees with `dtypeConvert`, and what it stores is the nearest value
of the output type.
-/

namespace Damacy

/-! ## Words -/

/-- `dtype_load_unsigned`. -/
def loadUnsigned64 (t : Dtype) (x : ℕ) : BitVec 64 := (BitVec.ofNat (8 * dtypeBpe t) x).setWidth 64

/-- `dtype_load_signed`. -/
def loadSigned64 (t : Dtype) (x : ℕ) : BitVec 64 := (BitVec.ofNat (8 * dtypeBpe t) x).signExtend 64

/-- `dtype_as_unsigned` on an integer. -/
def asUnsigned64 (t : Dtype) (x : ℕ) (maximum : BitVec 64) : BitVec 64 :=
  if t.isUnsigned then
    let value := loadUnsigned64 t x
    if maximum.ult value then maximum else value
  else
    let value := loadSigned64 t x
    if value.slt 0 then 0 else if maximum.ult value then maximum else value

/-- `dtype_as_signed` on an integer; an unsigned source is compared as such. -/
def asSigned64 (t : Dtype) (x : ℕ) (minimum maximum : BitVec 64) : BitVec 64 :=
  if t.isUnsigned then
    let value := loadUnsigned64 t x
    if maximum.ult value then maximum else value
  else
    let value := loadSigned64 t x
    if value.slt minimum then minimum else if maximum.slt value then maximum else value

def OutDtype.isSigned : OutDtype → Bool
  | .i8 | .i16 | .i32 | .i64 => true
  | _ => false

def OutDtype.isUnsigned : OutDtype → Bool
  | .u8 | .u16 | .u32 | .u64 => true
  | _ => false

def OutDtype.bits (output : OutDtype) : ℕ := 8 * damacyDtypeBpe output

/-- The range of an integer output type (`INT8_MIN`, `UINT8_MAX` and so on). -/
def OutDtype.minimum (output : OutDtype) : ℤ :=
  if output.isSigned then -(2 ^ (output.bits - 1)) else 0

@[inherit_doc OutDtype.minimum]
def OutDtype.maximum (output : OutDtype) : ℤ :=
  if output.isSigned then 2 ^ (output.bits - 1) - 1 else 2 ^ output.bits - 1

/-- `dtype_convert` between integer types; the cast of `DTYPE_STORE` keeps the low bytes. -/
def dtypeConvertWord (output : OutDtype) (input : Dtype) (x : ℕ) : ℕ :=
  let minimum := BitVec.ofInt 64 output.minimum
  let maximum := BitVec.ofInt 64 output.maximum
  if output.isSigned then ((asSigned64 input x minimum maximum).setWidth output.bits).toNat
  else ((asUnsigned64 input x maximum).setWidth output.bits).toNat

/-! ## Values -/

def Dtype.valueOf (t : Dtype) (x : ℕ) : ℤ := if t.isSigned then dtypeLoadSigned t x else x

def OutDtype.valueOf (output : OutDtype) (x : ℕ) : ℤ :=
  if output.isSigned then signedOf output.bits x else x

section Loads

variable {t : Dtype} {x : ℕ}

theorem bits_le (t : Dtype) : 0 < 8 * dtypeBpe t ∧ 8 * dtypeBpe t ≤ 64 := by
  cases t <;> decide

theorem toNat_loadUnsigned64 (hx : x < 2 ^ (8 * dtypeBpe t)) : (loadUnsigned64 t x).toNat = x := by
  rw [loadUnsigned64, BitVec.toNat_setWidth_of_le (bits_le t).2, BitVec.toNat_ofNat,
    Nat.mod_eq_of_lt hx]

theorem toInt_ofNat_eq_signedOf {w : ℕ} (hw : 0 < w) (hx : x < 2 ^ w) :
    (BitVec.ofNat w x).toInt = signedOf w x := by
  have hpow : 2 ^ w = 2 * 2 ^ (w - 1) := by rw [← pow_succ', Nat.sub_add_cancel hw]
  rw [BitVec.toInt_eq_toNat_cond, BitVec.toNat_ofNat, Nat.mod_eq_of_lt hx, signedOf]
  refine if_congr (by omega) rfl ?_
  push_cast
  rfl

theorem toInt_loadSigned64 (hx : x < 2 ^ (8 * dtypeBpe t)) :
    (loadSigned64 t x).toInt = dtypeLoadSigned t x := by
  rw [loadSigned64, BitVec.toInt_signExtend_of_le (bits_le t).2,
    toInt_ofNat_eq_signedOf (bits_le t).1 hx, dtypeLoadSigned]

end Loads

/-! ## Clamping -/

section Clamp

variable {t : Dtype} {x : ℕ}

theorem toInt_eq_toNat_of_nonneg {a : BitVec 64} (h : 0 ≤ a.toInt) : a.toInt = a.toNat := by
  rw [BitVec.toInt_eq_toNat_cond] at h ⊢
  split_ifs at h ⊢
  · rfl
  · have := a.isLt
    omega

theorem toNat_asUnsigned64 (ops : FloatOps) (ht : t.isUnsigned || t.isSigned)
    (hx : x < 2 ^ (8 * dtypeBpe t)) (maximum : BitVec 64) :
    (asUnsigned64 t x maximum).toNat = dtypeAsUnsigned ops t x maximum.toNat := by
  rw [asUnsigned64, dtypeAsUnsigned]
  by_cases hu : t.isUnsigned = true
  · rw [if_pos hu, if_pos hu]
    dsimp only
    rw [BitVec.ult, toNat_loadUnsigned64 hx]
    by_cases hlt : maximum.toNat < x
    · rw [if_pos (by simpa using hlt), if_pos hlt]
    · rw [if_neg (by simpa using hlt), if_neg hlt, toNat_loadUnsigned64 hx]
  · have hs : t.isSigned = true := by simpa [hu] using ht
    rw [if_neg hu, if_neg hu, if_pos hs, ← toInt_loadSigned64 hx]
    dsimp only
    rw [BitVec.slt]
    by_cases hneg : (loadSigned64 t x).toInt < 0
    · rw [if_pos (by simpa using hneg), if_pos hneg]
      rfl
    · have hvalue := toInt_eq_toNat_of_nonneg (Int.not_lt.1 hneg)
      rw [if_neg (by simpa using hneg), if_neg hneg, hvalue, Int.toNat_natCast, BitVec.ult]
      by_cases hlt : maximum.toNat < (loadSigned64 t x).toNat
      · rw [if_pos (by simpa using hlt), if_pos hlt]
      · rw [if_neg (by simpa using hlt), if_neg hlt]

theorem toInt_asSigned64 (ops : FloatOps) (ht : t.isUnsigned || t.isSigned)
    (hx : x < 2 ^ (8 * dtypeBpe t)) (minimum : BitVec 64) {maximum : BitVec 64}
    (hmax : 0 ≤ maximum.toInt) : (asSigned64 t x minimum maximum).toInt =
      dtypeAsSigned ops t x minimum.toInt maximum.toInt := by
  rw [asSigned64, dtypeAsSigned]
  by_cases hu : t.isUnsigned = true
  · have hmaximum := toInt_eq_toNat_of_nonneg hmax
    rw [if_pos hu, if_pos hu]
    dsimp only
    rw [BitVec.ult, toNat_loadUnsigned64 hx]
    by_cases hlt : maximum.toNat < x
    · rw [if_pos (by simpa using hlt), if_pos (by omega)]
    · -- a value up to the maximum has no sign bit
      have hvalue : (loadUnsigned64 t x).toInt = x := by
        rw [BitVec.toInt_eq_toNat_cond] at hmaximum ⊢
        rw [toNat_loadUnsigned64 hx]
        split_ifs at hmaximum ⊢ <;> omega
      rw [if_neg (by simpa using hlt), if_neg (by omega), hvalue]
  · have hs : t.isSigned = true := by simpa [hu] using ht
    rw [if_neg hu, if_neg hu, if_pos hs, ← toInt_loadSigned64 hx]
    dsimp only
    rw [BitVec.slt, BitVec.slt]
    split_ifs <;> simp_all

end Clamp

/-! ## Stores -/

theorem toNat_setWidth_eq_patternOf {w : ℕ} (hw : w ≤ 64) (a : BitVec 64) :
    (a.setWidth w).toNat = patternOf w a.toInt := by
  have hdvd : (2 : ℤ) ^ w ∣ 2 ^ 64 := pow_dvd_pow 2 hw
  have hmod : a.toInt % 2 ^ 64 = a.toNat % 2 ^ 64 := by
    rw [BitVec.toInt_eq_toNat_bmod]
    exact Int.bmod_emod
  rw [BitVec.toNat_setWidth, patternOf, ← Int.emod_emod_of_dvd a.toInt hdvd, hmod,
    Int.emod_emod_of_dvd _ hdvd]
  exact_mod_cast (Int.toNat_natCast (a.toNat % 2 ^ w)).symm

theorem signedOf_patternOf {w : ℕ} (hw : 0 < w) {v : ℤ} (hlo : -(2 ^ (w - 1)) ≤ v)
    (hhi : v ≤ 2 ^ (w - 1) - 1) : signedOf w (patternOf w v) = v := by
  have hpow : (2 : ℤ) ^ w = 2 * 2 ^ (w - 1) := by rw [← pow_succ', Nat.sub_add_cancel hw]
  have hpos : (0 : ℤ) < 2 ^ (w - 1) := by positivity
  rw [signedOf, patternOf]
  rcases lt_or_ge v 0 with hneg | hnonneg
  · have hmod : v % 2 ^ w = v + 2 ^ w := by
      rw [← Int.add_emod_right, Int.emod_eq_of_lt (by omega) (by omega)]
    have hcast : ((v + 2 ^ w).toNat : ℤ) = v + 2 ^ w := Int.toNat_of_nonneg (by omega)
    have hge : ¬ (v + 2 ^ w).toNat < 2 ^ (w - 1) := by
      intro hlt
      have : ((v + 2 ^ w).toNat : ℤ) < 2 ^ (w - 1) := by exact_mod_cast hlt
      omega
    rw [hmod, if_neg hge, hcast, add_sub_cancel_right]
  · have hcast : (v.toNat : ℤ) = v := Int.toNat_of_nonneg hnonneg
    have hlt : v.toNat < 2 ^ (w - 1) := by
      have : (v.toNat : ℤ) < 2 ^ (w - 1) := by omega
      exact_mod_cast this
    rw [Int.emod_eq_of_lt hnonneg (by omega), if_pos hlt, hcast]

section Store

variable (ops : FloatOps) {t : Dtype} {w x : ℕ}

theorem storeSigned_eq_word (hw : 0 < w) (hle : w ≤ 64) (ht : t.isUnsigned || t.isSigned)
    (hx : x < 2 ^ (8 * dtypeBpe t)) : storeSigned ops w t x =
      ((asSigned64 t x (BitVec.ofInt 64 (-(2 ^ (w - 1))))
        (BitVec.ofInt 64 (2 ^ (w - 1) - 1))).setWidth w).toNat := by
  have hpow : (2 : ℤ) ^ (w - 1) ≤ 2 ^ 63 := pow_le_pow_right₀ (by decide) (by omega)
  have hpos : (0 : ℤ) < 2 ^ (w - 1) := by positivity
  have hmin : (BitVec.ofInt 64 (-(2 ^ (w - 1)))).toInt = -(2 ^ (w - 1)) :=
    BitVec.toInt_ofInt_eq_self (by decide) (by omega) (by omega)
  have hmax : (BitVec.ofInt 64 (2 ^ (w - 1) - 1)).toInt = 2 ^ (w - 1) - 1 :=
    BitVec.toInt_ofInt_eq_self (by decide) (by omega) (by omega)
  rw [toNat_setWidth_eq_patternOf hle, toInt_asSigned64 ops ht hx _ (by omega), hmin, hmax,
    storeSigned]

theorem dtypeAsUnsigned_le (ht : t.isUnsigned || t.isSigned) (maximum : ℕ) :
    dtypeAsUnsigned ops t x maximum ≤ maximum := by
  rw [dtypeAsUnsigned]
  by_cases hu : t.isUnsigned = true
  · rw [if_pos hu]
    split_ifs <;> omega
  · rw [if_neg hu, if_pos (by simpa [hu] using ht)]
    dsimp only
    split_ifs <;> omega

theorem storeUnsigned_eq_word (hle : w ≤ 64) (ht : t.isUnsigned || t.isSigned)
    (hx : x < 2 ^ (8 * dtypeBpe t)) : storeUnsigned ops w t x =
      ((asUnsigned64 t x (BitVec.ofInt 64 (2 ^ w - 1))).setWidth w).toNat := by
  have hpow : 2 ^ w ≤ 2 ^ 64 := Nat.pow_le_pow_right (by decide) hle
  have hpos : 0 < 2 ^ w := Nat.two_pow_pos w
  have hmax : (BitVec.ofInt 64 (2 ^ w - 1)).toNat = 2 ^ w - 1 := by
    have hcast : (2 : ℤ) ^ w - 1 = ((2 ^ w - 1 : ℕ) : ℤ) := by
      push_cast [Nat.cast_sub hpos]
      rfl
    rw [hcast, BitVec.ofInt_natCast, BitVec.toNat_ofNat, Nat.mod_eq_of_lt (by omega)]
  have hbound := @dtypeAsUnsigned_le ops t x ht (2 ^ w - 1)
  rw [BitVec.toNat_setWidth, toNat_asUnsigned64 ops ht hx, hmax, storeUnsigned,
    Nat.mod_eq_of_lt (by omega)]

end Store

theorem dtypeConvert_eq_word (ops : FloatOps) {output : OutDtype} {input : Dtype}
    (hout : output.isUnsigned || output.isSigned) (hin : input.isUnsigned || input.isSigned) {x : ℕ}
    (hx : x < 2 ^ (8 * dtypeBpe input)) :
    dtypeConvert ops output input x = dtypeConvertWord output input x := by
  cases output with
  | f32 | bf16 => exact absurd hout (by decide)
  | u8 | u16 | u32 | u64 => exact storeUnsigned_eq_word ops (by decide) hin hx
  | i8 | i16 | i32 | i64 => exact storeSigned_eq_word ops (by decide) (by decide) hin hx

/-! ## What is stored -/

section Stored

variable (ops : FloatOps) {t : Dtype} {w x : ℕ}

def clampTo (lo hi v : ℤ) : ℤ := max lo (min v hi)

theorem Dtype.unsigned_or_signed (ht : t.isUnsigned || t.isSigned) :
    (t.isUnsigned = true ∧ ¬ t.isSigned = true) ∨ (¬ t.isUnsigned = true ∧ t.isSigned = true) := by
  revert ht
  cases t <;> decide

theorem dtypeAsSigned_eq_clamp (ht : t.isUnsigned || t.isSigned) {minimum maximum : ℤ}
    (hmin : minimum ≤ 0) (hmax : 0 ≤ maximum) :
    dtypeAsSigned ops t x minimum maximum = clampTo minimum maximum (t.valueOf x) := by
  rw [dtypeAsSigned, Dtype.valueOf, clampTo]
  rcases Dtype.unsigned_or_signed ht with ⟨hu, hs⟩ | ⟨hu, hs⟩
  · rw [if_pos hu, if_neg hs]
    split_ifs <;> omega
  · rw [if_neg hu, if_pos hs, if_pos hs]
    dsimp only
    split_ifs <;> omega

theorem dtypeAsUnsigned_eq_clamp (ht : t.isUnsigned || t.isSigned) (maximum : ℕ) :
    (dtypeAsUnsigned ops t x maximum : ℤ) = clampTo 0 maximum (t.valueOf x) := by
  rw [dtypeAsUnsigned, Dtype.valueOf, clampTo]
  rcases Dtype.unsigned_or_signed ht with ⟨hu, hs⟩ | ⟨hu, hs⟩
  · rw [if_pos hu, if_neg hs]
    split_ifs <;> omega
  · rw [if_neg hu, if_pos hs, if_pos hs]
    dsimp only
    split_ifs <;> omega

theorem signedOf_storeSigned (hw : 0 < w) (ht : t.isUnsigned || t.isSigned) :
    signedOf w (storeSigned ops w t x) =
      clampTo (-(2 ^ (w - 1))) (2 ^ (w - 1) - 1) (t.valueOf x) := by
  have hpos : (0 : ℤ) < 2 ^ (w - 1) := by positivity
  rw [storeSigned, dtypeAsSigned_eq_clamp ops ht (by omega) (by omega)]
  refine signedOf_patternOf hw ?_ ?_
  · exact le_max_left _ _
  · exact max_le (by omega) (min_le_right _ _)

theorem storeUnsigned_eq_clamp (ht : t.isUnsigned || t.isSigned) :
    (storeUnsigned ops w t x : ℤ) = clampTo 0 (2 ^ w - 1) (t.valueOf x) := by
  rw [storeUnsigned, dtypeAsUnsigned_eq_clamp ops ht, Nat.cast_sub (Nat.two_pow_pos w)]
  push_cast
  rfl

end Stored

section Convert

variable {output : OutDtype} {input : Dtype} {x : ℕ}

theorem valueOf_dtypeConvert (ops : FloatOps) (hout : output.isUnsigned || output.isSigned)
    (hin : input.isUnsigned || input.isSigned) : output.valueOf (dtypeConvert ops output input x) =
      clampTo output.minimum output.maximum (input.valueOf x) := by
  cases output with
  | f32 | bf16 => exact absurd hout (by decide)
  | u8 | u16 | u32 | u64 => exact storeUnsigned_eq_clamp ops hin
  | i8 | i16 | i32 | i64 => exact signedOf_storeSigned ops (by decide) hin

theorem minimum_le_maximum (output : OutDtype) : output.minimum ≤ output.maximum := by
  cases output <;> decide

end Convert

section Clamped

variable {lo hi : ℤ}

theorem clampTo_mem (h : lo ≤ hi) (v : ℤ) : lo ≤ clampTo lo hi v ∧ clampTo lo hi v ≤ hi :=
  ⟨le_max_left _ _, max_le h (min_le_right _ _)⟩

theorem clampTo_of_mem {v : ℤ} (hlo : lo ≤ v) (hhi : v ≤ hi) : clampTo lo hi v = v := by
  rw [clampTo, min_eq_left hhi, max_eq_right hlo]

theorem clampTo_mono {v v' : ℤ} (h : v ≤ v') : clampTo lo hi v ≤ clampTo lo hi v' :=
  max_le_max_left _ (min_le_min_right _ h)

theorem clampTo_nearest {u : ℤ} (hlo : lo ≤ u) (hhi : u ≤ hi) (v : ℤ) :
    |clampTo lo hi v - v| ≤ |u - v| := by
  have hclamp : clampTo lo hi v = max lo (min v hi) := rfl
  have habove := le_abs_self (u - v)
  have hbelow := neg_abs_le (u - v)
  exact abs_le.2 ⟨by omega, by omega⟩

end Clamped

/-- What `dtype_convert` stores between integer types, on the machine's words: the value of the
output type nearest to the source's, which is the source's own where the output type has it, and in
the order of the sources. -/
theorem dtypeConvert_saturates (ops : FloatOps) {output : OutDtype} {input : Dtype}
    (hout : output.isUnsigned || output.isSigned) (hin : input.isUnsigned || input.isSigned) {x : ℕ}
    (hx : x < 2 ^ (8 * dtypeBpe input)) :
    dtypeConvert ops output input x = dtypeConvertWord output input x ∧
      let stored y := output.valueOf (dtypeConvertWord output input y)
      dtypeConvertWord output input x < 2 ^ output.bits ∧
        (output.minimum ≤ stored x ∧ stored x ≤ output.maximum) ∧
        (∀ u, output.minimum ≤ u → u ≤ output.maximum →
          |stored x - input.valueOf x| ≤ |u - input.valueOf x|) ∧
        (output.minimum ≤ input.valueOf x → input.valueOf x ≤ output.maximum →
          stored x = input.valueOf x) ∧
        (output.maximum < input.valueOf x → stored x = output.maximum) ∧
        (input.valueOf x < output.minimum → stored x = output.minimum) ∧
        ∀ y < 2 ^ (8 * dtypeBpe input), input.valueOf x ≤ input.valueOf y → stored x ≤ stored y := by
  have hstored {y : ℕ} (hy : y < 2 ^ (8 * dtypeBpe input)) :
      output.valueOf (dtypeConvertWord output input y) =
        clampTo output.minimum output.maximum (input.valueOf y) := by
    rw [← dtypeConvert_eq_word ops hout hin hy]
    exact valueOf_dtypeConvert ops hout hin
  have hrange := minimum_le_maximum output
  dsimp only
  rw [hstored hx]
  refine ⟨dtypeConvert_eq_word ops hout hin hx, ?_, clampTo_mem hrange _, ?_, clampTo_of_mem, ?_, ?_,
    ?_⟩
  · rw [dtypeConvertWord]
    split_ifs <;> exact BitVec.isLt _
  · exact fun u hlo hhi => clampTo_nearest hlo hhi _
  · intro hover
    rw [clampTo, min_eq_right hover.le, max_eq_right hrange]
  · intro hunder
    rw [clampTo, min_eq_left (hunder.le.trans hrange), max_eq_left hunder.le]
  · intro y hy hle
    rw [hstored hy]
    exact clampTo_mono hle

/-- Minus five as an unsigned byte. -/
theorem dtypeConvert_saturates_minus :
    OutDtype.valueOf .u8 (dtypeConvertWord .u8 .i64 (2 ^ 64 - 5)) = 0 ∧
      Dtype.valueOf .i64 (2 ^ 64 - 5) = -5 := by
  have h := @dtypeConvert_saturates
    ⟨id, Int.toNat, fun _ => true, fun _ => false, fun _ _ => true, id, fun x => x⟩
    .u8 .i64 (by decide) (by decide) (2 ^ 64 - 5) (by decide)
  exact ⟨h.2.2.2.2.2.2.1 (by decide), by decide⟩

end Damacy

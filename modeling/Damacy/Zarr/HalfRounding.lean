import Mathlib.Algebra.Order.Field.Power
import Mathlib.Algebra.Order.Field.Rat
import Mathlib.Tactic.Linarith
import Mathlib.Tactic.Positivity
import Damacy.Zarr.Parse

/-!
# Rounding to half precision (`float_to_half_bits`)

The mantissa is rounded to ten bits by adding half a unit and shifting, and the fields are put
together with a bitwise or. When the rounding carries out of the mantissa, the carry is the lowest
bit of the exponent field: it is added if that bit is zero, and lost if it is one. Then the result
is the power of two below the input instead of the one above it (`CarryLost`).
`floatToHalfBits_rounds_iff` says that there is nothing else wrong with numbers that half precision
has as normal ones.
-/

namespace Damacy

/-! ## Patterns -/

/-- The fields of a `float`. -/
def sign32 (bits : ℕ) : ℕ := bits / 2 ^ 31
@[inherit_doc sign32] def exponent32 (bits : ℕ) : ℕ := bits / 2 ^ 23 % 2 ^ 8
@[inherit_doc sign32] def mantissa32 (bits : ℕ) : ℕ := bits % 2 ^ 23

/-- The fields of a half. -/
def sign16 (half : ℕ) : ℕ := half / 2 ^ 15
@[inherit_doc sign16] def exponent16 (half : ℕ) : ℕ := half / 2 ^ 10 % 2 ^ 5
@[inherit_doc sign16] def mantissa16 (half : ℕ) : ℕ := half % 2 ^ 10

def unbiased32 (bits : ℕ) : ℤ := exponent32 bits - 127

def float32 (bits : ℕ) : ℚ :=
  (if sign32 bits = 0 then 1 else -1) * ((2 ^ 23 + mantissa32 bits : ℕ) : ℚ) *
    2 ^ (unbiased32 bits - 23)

/-- The number that the pattern of a half denotes; infinities and NaN are `none`. -/
def float16 (half : ℕ) : Option ℚ :=
  if exponent16 half = 31 then none
  else some ((if sign16 half = 0 then 1 else -1) *
    if exponent16 half = 0 then ((mantissa16 half : ℕ) : ℚ) * 2 ^ (-24 : ℤ)
    else ((2 ^ 10 + mantissa16 half : ℕ) : ℚ) * 2 ^ ((exponent16 half : ℤ) - 25))

def isInfinity16 (half : ℕ) : Prop := exponent16 half = 31 ∧ mantissa16 half = 0

structure HalfRange (bits : ℕ) : Prop where
  lt : bits < 2 ^ 32
  ge : -14 ≤ unbiased32 bits
  le : unbiased32 bits ≤ 15

def HalfLe (half half' : ℕ) : Prop :=
  isInfinity16 half' ∨ ∃ x x', float16 half = some x ∧ float16 half' = some x' ∧ |x| ≤ |x'|

/-- A number is rounded as it should be: the sign is kept, the result is near or an infinity beyond
the largest half, and smaller numbers do not get larger results. -/
structure RoundsToHalf (bits : ℕ) : Prop where
  sign : sign16 (floatToHalfBits bits) = sign32 bits
  near : (∃ x, float16 (floatToHalfBits bits) = some x ∧
      |x - float32 bits| ≤ 2 ^ (unbiased32 bits - 10)) ∨
    isInfinity16 (floatToHalfBits bits) ∧ 65504 ≤ |float32 bits|
  mono : ∀ bits', HalfRange bits' → sign32 bits' = sign32 bits → |float32 bits'| ≤ |float32 bits| →
    HalfLe (floatToHalfBits bits') (floatToHalfBits bits)

/-- The rounding carries out of the mantissa, and the lowest bit of the exponent field is one. -/
def CarryLost (bits : ℕ) : Prop := 0x7FF000 ≤ mantissa32 bits ∧ unbiased32 bits % 2 = 0

/-! ## The fields of the result -/

section Fields

variable {bits bits' : ℕ}

def rounded (bits : ℕ) : ℕ := (mantissa32 bits + 4096) / 8192

theorem mantissa32_lt (bits : ℕ) : mantissa32 bits < 2 ^ 23 := Nat.mod_lt _ (by decide)

theorem rounded_le (bits : ℕ) : rounded bits ≤ 1024 := by
  have := mantissa32_lt bits
  rw [rounded]
  omega

theorem rounded_eq_iff (bits : ℕ) : rounded bits = 1024 ↔ 0x7FF000 ≤ mantissa32 bits := by
  have := mantissa32_lt bits
  rw [rounded]
  omega

theorem HalfRange.exponent (h : HalfRange bits) :
    113 ≤ exponent32 bits ∧ exponent32 bits ≤ 142 := by
  have h1 := h.ge
  have h2 := h.le
  rw [unbiased32] at h1 h2
  omega

theorem HalfRange.sign_lt (h : HalfRange bits) : sign32 bits < 2 := by
  have := h.lt
  rw [sign32]
  omega

def halfFields (bits : ℕ) : ℕ := (exponent32 bits - 112) <<< 10 ||| rounded bits

theorem HalfRange.halfFields_eq (h : HalfRange bits) : halfFields bits =
    if rounded bits = 1024 ∧ exponent32 bits % 2 = 1 then (exponent32 bits - 112) * 1024
    else (exponent32 bits - 112) * 1024 + rounded bits := by
  have hexp := h.exponent
  have hcarry : ∀ k ≤ 30, k <<< 10 ||| 1024 = if k % 2 = 1 then k * 1024 else k * 1024 + 1024 := by
    decide
  rw [halfFields]
  rcases (rounded_le bits).lt_or_eq with hlt | heq
  · rw [if_neg (by omega), ← Nat.shiftLeft_add_eq_or_of_lt (by exact hlt), Nat.shiftLeft_eq]
  · rw [heq, hcarry _ (by omega)]
    have hodd : (exponent32 bits - 112) % 2 = exponent32 bits % 2 := by omega
    rw [hodd]
    split_ifs <;> omega

theorem HalfRange.halfFields_lt (h : HalfRange bits) : halfFields bits < 2 ^ 15 := by
  have hexp := h.exponent
  have hle := rounded_le bits
  rw [h.halfFields_eq]
  split_ifs <;> omega

theorem HalfRange.floatToHalfBits_eq (h : HalfRange bits) :
    floatToHalfBits bits = sign32 bits * 2 ^ 15 + halfFields bits := by
  have hexp := h.exponent
  have hsign := h.sign_lt
  have hexponent : (bits >>> 23) &&& 0xFF = exponent32 bits := by
    rw [Nat.shiftRight_eq_div_pow, exponent32]
    exact Nat.and_two_pow_sub_one_eq_mod _ 8
  have hmantissa : bits &&& 0x7FFFFF = mantissa32 bits := Nat.and_two_pow_sub_one_eq_mod _ 23
  have hmagnitude : bits &&& 0x7FFFFFFF = bits % 2 ^ 31 := Nat.and_two_pow_sub_one_eq_mod _ 31
  have hsignbit : (bits >>> 31) &&& 1 = sign32 bits := by
    rw [Nat.shiftRight_eq_div_pow, sign32]
    exact (Nat.and_two_pow_sub_one_eq_mod _ 1).trans (Nat.mod_eq_of_lt hsign)
  have hnonzero : bits % 2 ^ 31 ≠ 0 := by
    rw [exponent32] at hexp
    omega
  rw [floatToHalfBits]
  simp only [hexponent, hmantissa, hmagnitude, hsignbit]
  rw [if_neg (by omega), if_neg hnonzero, if_neg (by omega), if_neg (by omega), Nat.or_assoc,
    show exponent32 bits + 15 - 127 = exponent32 bits - 112 by omega,
    Nat.shiftRight_eq_div_pow _ 13]
  exact (Nat.shiftLeft_add_eq_or_of_lt h.halfFields_lt _).symm.trans (by rw [Nat.shiftLeft_eq])

theorem HalfRange.carryLost_iff (h : HalfRange bits) :
    CarryLost bits ↔ rounded bits = 1024 ∧ exponent32 bits % 2 = 1 := by
  have hexp := h.exponent
  rw [CarryLost, rounded_eq_iff, unbiased32]
  omega

end Fields

/-! ## Numbers -/

section Values

variable {bits bits' : ℕ}

def signFactor (sign : ℕ) : ℚ := if sign = 0 then 1 else -1

theorem abs_signFactor_mul (sign : ℕ) {x : ℚ} (hx : 0 ≤ x) : |signFactor sign * x| = x := by
  rw [abs_mul, abs_of_nonneg hx, signFactor]
  split <;> simp

theorem abs_signFactor_sub (sign : ℕ) (x y : ℚ) :
    |signFactor sign * x - signFactor sign * y| = |x - y| := by
  rw [← mul_sub, abs_mul, signFactor]
  split <;> simp

theorem float16_of_fields {sign exponent mantissa : ℕ} (hpos : 1 ≤ exponent) (hle : exponent ≤ 30)
    (hmantissa : mantissa < 1024) :
    float16 (sign * 2 ^ 15 + (exponent * 1024 + mantissa)) =
      some (signFactor sign * (((1024 + mantissa : ℕ) : ℚ) * 2 ^ ((exponent : ℤ) - 25))) := by
  have h1 : sign16 (sign * 2 ^ 15 + (exponent * 1024 + mantissa)) = sign := by
    rw [sign16]
    omega
  have h2 : exponent16 (sign * 2 ^ 15 + (exponent * 1024 + mantissa)) = exponent := by
    rw [exponent16]
    omega
  have h3 : mantissa16 (sign * 2 ^ 15 + (exponent * 1024 + mantissa)) = mantissa := by
    rw [mantissa16]
    omega
  rw [float16, h1, h2, h3, if_neg (show exponent ≠ 31 by omega),
    if_neg (show exponent ≠ 0 by omega)]
  rfl

def halfUnit (bits : ℕ) : ℚ := 2 ^ (unbiased32 bits - 10)

theorem halfUnit_pos (bits : ℕ) : 0 < halfUnit bits := by
  unfold halfUnit
  positivity

theorem HalfRange.pow_exponent (h : HalfRange bits) :
    (2 : ℚ) ^ (((exponent32 bits - 112 : ℕ) : ℤ) - 25) = halfUnit bits := by
  have hexp := h.exponent
  rw [halfUnit, unbiased32]
  congr 1
  omega

theorem HalfRange.float16_eq (h : HalfRange bits) : float16 (floatToHalfBits bits) =
    if rounded bits = 1024 ∧ exponent32 bits = 142 then none
    else some (signFactor (sign32 bits) *
      (((if rounded bits = 1024 ∧ exponent32 bits % 2 = 1 then 1024 else 1024 + rounded bits : ℕ) :
        ℚ) * halfUnit bits)) := by
  have hexp := h.exponent
  rw [h.floatToHalfBits_eq, h.halfFields_eq, ← h.pow_exponent]
  rcases (rounded_le bits).lt_or_eq with hlt | heq
  · rw [if_neg (by omega), if_neg (by omega), if_neg (by omega),
      float16_of_fields (by omega) (by omega) hlt]
  · by_cases hodd : exponent32 bits % 2 = 1
    · rw [if_pos ⟨heq, hodd⟩, if_neg (by omega), if_pos ⟨heq, hodd⟩]
      have hfields := @float16_of_fields (sign32 bits) (exponent32 bits - 112) 0 (by omega)
        (by omega) (by decide)
      rwa [Nat.add_zero, Nat.add_zero] at hfields
    · rw [if_neg (fun hc => hodd hc.2), heq]
      by_cases htop : exponent32 bits = 142
      · rw [if_pos ⟨rfl, htop⟩, htop, float16, if_pos]
        rw [exponent16]
        omega
      · -- the carry makes the next exponent
        have hcarry : (exponent32 bits - 112) * 1024 + 1024 =
            (exponent32 bits - 112 + 1) * 1024 + 0 := by omega
        rw [if_neg (fun hc => htop hc.2), if_neg (fun hc => hodd hc.2), hcarry,
          float16_of_fields (by omega) (by omega) (by decide)]
        have hexponent : ((exponent32 bits - 112 + 1 : ℕ) : ℤ) - 25 =
            ((exponent32 bits - 112 : ℕ) : ℤ) - 25 + 1 := by omega
        rw [hexponent, zpow_add_one₀ (by norm_num), Option.some.injEq]
        push_cast
        ring

theorem HalfRange.isInfinity (h : HalfRange bits) (hr : rounded bits = 1024)
    (htop : exponent32 bits = 142) : isInfinity16 (floatToHalfBits bits) := by
  rw [h.floatToHalfBits_eq, h.halfFields_eq, htop, hr, if_neg (by omega)]
  constructor
  · rw [exponent16]
    omega
  · rw [mantissa16]
    omega

theorem HalfRange.sign_eq (h : HalfRange bits) : sign16 (floatToHalfBits bits) = sign32 bits := by
  have hlt := h.halfFields_lt
  rw [h.floatToHalfBits_eq, sign16]
  omega

theorem float32_eq (bits : ℕ) : float32 bits =
    signFactor (sign32 bits) * (((2 ^ 23 + mantissa32 bits : ℕ) : ℚ) / 8192 * halfUnit bits) := by
  have hunit : (2 : ℚ) ^ (unbiased32 bits - 23) = halfUnit bits / 8192 := by
    rw [halfUnit, show unbiased32 bits - 23 = (unbiased32 bits - 10) - 13 by ring,
      zpow_sub₀ (by norm_num)]
    norm_num
  rw [float32, hunit, signFactor]
  ring

theorem abs_float32 (bits : ℕ) :
    |float32 bits| = ((2 ^ 23 + mantissa32 bits : ℕ) : ℚ) / 8192 * halfUnit bits := by
  have hunit := halfUnit_pos bits
  rw [float32_eq, abs_signFactor_mul _ (by positivity)]

theorem abs_rounded_sub (bits : ℕ) :
    |((1024 + rounded bits : ℕ) : ℚ) - ((2 ^ 23 + mantissa32 bits : ℕ) : ℚ) / 8192| ≤ 1 / 2 := by
  have hlow : 8192 * rounded bits ≤ mantissa32 bits + 4096 := by
    rw [rounded]
    omega
  have hhigh : mantissa32 bits ≤ 8192 * rounded bits + 4096 := by
    rw [rounded]
    omega
  have hlow' : (8192 : ℚ) * rounded bits ≤ mantissa32 bits + 4096 := by exact_mod_cast hlow
  have hhigh' : (mantissa32 bits : ℚ) ≤ 8192 * rounded bits + 4096 := by exact_mod_cast hhigh
  rw [abs_le]
  push_cast
  constructor <;> linarith

theorem halfUnit_congr (h : exponent32 bits' = exponent32 bits) :
    halfUnit bits' = halfUnit bits := by
  rw [halfUnit, halfUnit, unbiased32, unbiased32, h]

theorem two_mul_halfUnit_le (h : exponent32 bits' < exponent32 bits) :
    2 * halfUnit bits' ≤ halfUnit bits := by
  calc 2 * halfUnit bits' = 2 ^ (unbiased32 bits' - 10 + 1) := by
        rw [halfUnit, zpow_add_one₀ (by norm_num), mul_comm]
    _ ≤ halfUnit bits := by
        rw [halfUnit]
        refine zpow_le_zpow_right₀ (by norm_num) ?_
        rw [unbiased32, unbiased32]
        omega

theorem abs_float32_bounds (bits : ℕ) :
    1024 * halfUnit bits ≤ |float32 bits| ∧ |float32 bits| < 2048 * halfUnit bits := by
  have hunit := halfUnit_pos bits
  have hlt : (mantissa32 bits : ℚ) < 2 ^ 23 := by exact_mod_cast mantissa32_lt bits
  rw [abs_float32]
  constructor
  · gcongr
    push_cast
    linarith [Nat.cast_nonneg (α := ℚ) (mantissa32 bits)]
  · gcongr
    push_cast
    linarith

theorem lt_or_eq_of_abs_le (h : |float32 bits'| ≤ |float32 bits|) :
    exponent32 bits' < exponent32 bits ∨
      exponent32 bits' = exponent32 bits ∧ mantissa32 bits' ≤ mantissa32 bits := by
  rcases lt_trichotomy (exponent32 bits') (exponent32 bits) with hlt | heq | hgt
  · exact Or.inl hlt
  · refine Or.inr ⟨heq, ?_⟩
    have hunit := halfUnit_pos bits
    rw [abs_float32, abs_float32, halfUnit_congr heq, mul_le_mul_iff_left₀ hunit,
      div_le_div_iff_of_pos_right (by norm_num), Nat.cast_le] at h
    omega
  · have := two_mul_halfUnit_le hgt
    linarith [(abs_float32_bounds bits').1, (abs_float32_bounds bits).2]

theorem rounded_mono (h : mantissa32 bits' ≤ mantissa32 bits) : rounded bits' ≤ rounded bits := by
  rw [rounded, rounded]
  omega

/-- The result is at most the rounded mantissa, and is the rounded mantissa if no carry is lost. -/
theorem HalfRange.float16_le (h : HalfRange bits)
    (hfinite : ¬ (rounded bits = 1024 ∧ exponent32 bits = 142)) :
    ∃ x, float16 (floatToHalfBits bits) = some x ∧
      |x| ≤ ((1024 + rounded bits : ℕ) : ℚ) * halfUnit bits := by
  have hunit := halfUnit_pos bits
  refine ⟨_, h.float16_eq.trans (if_neg hfinite), ?_⟩
  rw [abs_signFactor_mul _ (by positivity)]
  gcongr
  split_ifs <;> omega

@[inherit_doc HalfRange.float16_le]
theorem HalfRange.float16_kept (h : HalfRange bits)
    (hfinite : ¬ (rounded bits = 1024 ∧ exponent32 bits = 142))
    (hkept : ¬ (rounded bits = 1024 ∧ exponent32 bits % 2 = 1)) :
    float16 (floatToHalfBits bits) =
      some (signFactor (sign32 bits) * (((1024 + rounded bits : ℕ) : ℚ) * halfUnit bits)) := by
  rw [h.float16_eq, if_neg hfinite, if_neg hkept]

theorem rounded_mul_le (h : |float32 bits'| ≤ |float32 bits|) :
    ((1024 + rounded bits' : ℕ) : ℚ) * halfUnit bits' ≤
      ((1024 + rounded bits : ℕ) : ℚ) * halfUnit bits := by
  have hunit := halfUnit_pos bits'
  rcases lt_or_eq_of_abs_le h with hlt | ⟨heq, hmantissa⟩
  · calc ((1024 + rounded bits' : ℕ) : ℚ) * halfUnit bits'
        ≤ ((1024 + 1024 : ℕ) : ℚ) * halfUnit bits' := by
          gcongr
          exact rounded_le bits'
      _ = ((1024 : ℕ) : ℚ) * (2 * halfUnit bits') := by
          push_cast
          ring
      _ ≤ ((1024 + rounded bits : ℕ) : ℚ) * halfUnit bits := by
          gcongr
          · omega
          · exact two_mul_halfUnit_le hlt
  · rw [halfUnit_congr heq] at hunit ⊢
    gcongr
    exact rounded_mono hmantissa

end Values

theorem HalfRange.not_rounds {bits : ℕ} (h : HalfRange bits) (hlost : CarryLost bits) :
    ¬ RoundsToHalf bits := by
  have hunit := halfUnit_pos bits
  obtain ⟨hr, hodd⟩ := h.carryLost_iff.1 hlost
  intro hrounds
  have htop : exponent32 bits ≠ 142 := by omega
  have hvalue := h.float16_eq
  rw [if_neg (fun hc => htop hc.2), if_pos ⟨hr, hodd⟩] at hvalue
  rcases hrounds.near with ⟨x, hx, hnear⟩ | ⟨hinf, -⟩
  · obtain rfl := Option.some.inj (hvalue.symm.trans hx)
    rw [float32_eq, abs_signFactor_sub, ← sub_mul, abs_mul, abs_of_pos hunit] at hnear
    have hone := le_of_mul_le_mul_right (hnear.trans_eq (one_mul (halfUnit bits)).symm) hunit
    have hmantissa : (0x7FF000 : ℚ) ≤ mantissa32 bits := by
      exact_mod_cast (rounded_eq_iff bits).1 hr
    have hlow := (abs_le.1 hone).1
    push_cast at hlow
    linarith
  · rw [float16, if_pos hinf.1] at hvalue
    exact absurd hvalue (by simp)

/-- **`float_to_half_bits` rounds within a unit, and in order, unless it loses a carry.** -/
theorem floatToHalfBits_rounds_iff {bits : ℕ} (h : HalfRange bits) :
    RoundsToHalf bits ↔ ¬ CarryLost bits := by
  have hunit := halfUnit_pos bits
  refine ⟨fun hrounds hlost => h.not_rounds hlost hrounds, ?_⟩
  rw [h.carryLost_iff]
  intro hkept
  refine ⟨h.sign_eq, ?_, fun bits' h' _ hle => ?_⟩
  · by_cases hfinite : rounded bits = 1024 ∧ exponent32 bits = 142
    · refine Or.inr ⟨h.isInfinity hfinite.1 hfinite.2, ?_⟩
      have hmantissa : (0x7FF000 : ℚ) ≤ mantissa32 bits := by
        exact_mod_cast (rounded_eq_iff bits).1 hfinite.1
      have h32 : halfUnit bits = 32 := by
        rw [halfUnit, unbiased32, hfinite.2]
        norm_num
      rw [abs_float32, h32]
      push_cast
      linarith
    · refine Or.inl ⟨_, h.float16_kept hfinite hkept, ?_⟩
      rw [float32_eq, abs_signFactor_sub, ← sub_mul, abs_mul, abs_of_pos hunit]
      have herror := mul_le_mul_of_nonneg_right (abs_rounded_sub bits) hunit.le
      have hhalf : 1 / 2 * halfUnit bits ≤ halfUnit bits := by linarith
      exact herror.trans hhalf
  · by_cases hfinite : rounded bits = 1024 ∧ exponent32 bits = 142
    · exact Or.inl (h.isInfinity hfinite.1 hfinite.2)
    · -- a smaller number overflows only if the larger one does
      have hfinite' : ¬ (rounded bits' = 1024 ∧ exponent32 bits' = 142) := by
        rintro ⟨hr, htop⟩
        have hexp := h.exponent
        rcases lt_or_eq_of_abs_le hle with hlt | ⟨heq, hmantissa⟩
        · omega
        · have := rounded_mono hmantissa
          have := rounded_le bits
          omega
      obtain ⟨x', hx', hbound⟩ := h'.float16_le hfinite'
      refine Or.inr ⟨x', _, hx', h.float16_kept hfinite hkept, ?_⟩
      rw [abs_signFactor_mul _ (by positivity)]
      exact hbound.trans (rounded_mul_le hle)

/-- The largest `float` below 2 becomes 1. -/
theorem floatToHalfBits_carry_lost : HalfRange 0x3FFFFFFF ∧ floatToHalfBits 0x3FFFFFFF = 0x3C00 ∧
    float16 0x3C00 = some 1 ∧ 1.99 < float32 0x3FFFFFFF ∧ ¬ RoundsToHalf 0x3FFFFFFF := by
  have h : HalfRange 0x3FFFFFFF := ⟨by decide, by decide, by decide⟩
  refine ⟨h, by decide +kernel, by decide +kernel, ?_, h.not_rounds ⟨by decide, by decide⟩⟩
  norm_num [float32, sign32, mantissa32, unbiased32, exponent32]

/-- The carry out of the mantissa of the `float` below 4 is kept. -/
theorem floatToHalfBits_rounds_four : HalfRange 0x407FFFFF ∧ ¬ CarryLost 0x407FFFFF ∧
    RoundsToHalf 0x407FFFFF :=
  have h : HalfRange 0x407FFFFF := ⟨by decide, by decide, by decide⟩
  have hkept : ¬ CarryLost 0x407FFFFF := fun hlost => absurd hlost.2 (by decide)
  ⟨h, hkept, (floatToHalfBits_rounds_iff h).2 hkept⟩

end Damacy

import Mathlib.Algebra.Order.Field.Rat
import Mathlib.Data.Int.Cast.Field
import Mathlib.Data.List.TakeWhile
import Mathlib.Tactic.Ring
import Damacy.Util.JsonLex

/-!
# Numbers and their conversions (`json_as_int`, `json_as_uint`)

The spans that the lexer returns for numbers are those of the grammar, so a literal has no leading
zeros, and one that is too long for the buffer of the conversions is too large for 64 bits. The
conversions therefore succeed on exactly the integers that fit.
-/

open List JsonText

namespace JsonText

/-! ## The value of a number -/

def Digits.value (d : Digits) : ℕ := d.bytes.foldl (fun v b => 10 * v + (b.toNat - 0x30)) 0

def Exponent.factor (e : Exponent) : ℚ :=
  if e.sign = some true then ((10 : ℚ) ^ e.digits.value)⁻¹ else (10 : ℚ) ^ e.digits.value

def Digits.fraction (d : Digits) : ℚ := (d.value : ℚ) / (10 : ℚ) ^ d.bytes.length

def Number.value (n : Number) : ℚ :=
  (if n.negative then -1 else 1) * ((n.int.value : ℚ) + n.frac.elim 0 Digits.fraction) *
    n.exp.elim 1 Exponent.factor

def Number.intValue (m : Number) : ℤ := if m.negative then -(m.int.value : ℤ) else m.int.value

theorem Number.value_eq_intValue {m : Number} (h : m.isFloat = false) : m.value = m.intValue := by
  rw [Number.isFloat, Bool.or_eq_false_iff, Option.isSome_eq_false_iff, Option.isSome_eq_false_iff,
    Option.isNone_iff_eq_none, Option.isNone_iff_eq_none] at h
  rw [Number.value, Number.intValue, h.1, h.2]
  split <;> simp

end JsonText

namespace Damacy

theorem digits_value_congr {d d' : Digits} (h : d.bytes = d'.bytes) : d.value = d'.value := by
  rw [Digits.value, Digits.value, h]

theorem exponent_factor_congr {e e' : Exponent} (h : e.bytes = e'.bytes) :
    e.factor = e'.factor := by
  have htail := congrArg List.tail h
  simp only [Exponent.bytes, cons_append, tail_cons] at htail
  have hlex := congrArg lexExpSign htail
  rw [← append_nil e.digits.bytes, ← append_nil e'.digits.bytes, lexExpSign_append,
    lexExpSign_append, Prod.mk.injEq] at hlex
  obtain ⟨hsign, hdigits⟩ := hlex
  have hminus : e.sign = some true ↔ e'.sign = some true := by
    revert hsign
    rcases e.sign with _ | _ | _ <;> rcases e'.sign with _ | _ | _ <;> simp
  simp only [Exponent.factor, hminus, digits_value_congr (by simpa using hdigits)]

/-- **The spelling of a number determines its value.** -/
theorem number_value_congr {n m : Number} (h : n.bytes = m.bytes) : n.value = m.value := by
  have hends : ∀ k : Number, k.EndsAt [] := fun k b hb => by cases hb
  obtain ⟨-, hfracN, hintN⟩ := (number_endsAt_iff n).1 (hends n)
  obtain ⟨-, hfracM, hintM⟩ := (number_endsAt_iff m).1 (hends m)
  have hbytes : n.bytes ++ [] = m.bytes ++ [] := by rw [h]
  -- the lexer cuts both spellings into the same pieces
  rw [number_bytes_append, number_bytes_append] at hbytes
  have hsign := congrArg lexSign hbytes
  rw [lexSign_append, lexSign_append, Prod.mk.injEq] at hsign
  have hint := congrArg lexInt hsign.2
  rw [lexInt_append n hintN, lexInt_append m hintM, Option.some.injEq, Prod.mk.injEq] at hint
  have hfrac := congrArg lexFrac hint.2
  rw [lexFrac_append n.frac hfracN, lexFrac_append m.frac hfracM, Option.some.injEq,
    Prod.mk.injEq] at hfrac
  have hexp : n.exp.elim [] Exponent.bytes = m.exp.elim [] Exponent.bytes := by
    simpa using hfrac.2
  have hneg : n.negative = m.negative := by
    have := hsign.1
    revert this
    cases n.negative <;> cases m.negative <;> simp
  have hfracValue : n.frac.elim 0 Digits.fraction = m.frac.elim 0 Digits.fraction := by
    have := hfrac.1
    revert this
    rcases n.frac with _ | d <;> rcases m.frac with _ | d' <;> intro hd
    · rfl
    · cases hd
    · cases hd
    · have hbytes : d.bytes = d'.bytes := by simpa using hd
      simp only [Option.elim_some, Digits.fraction, digits_value_congr hbytes, hbytes]
  have hexpValue : n.exp.elim 1 Exponent.factor = m.exp.elim 1 Exponent.factor := by
    revert hexp
    rcases n.exp with _ | e <;> rcases m.exp with _ | e' <;> intro he
    · rfl
    · cases he
    · cases he
    · exact exponent_factor_congr he
  rw [Number.value, Number.value, hneg, digits_value_congr hint.1, hfracValue, hexpValue]

/-! ## Literals -/

theorem digitsValue_cons (b : UInt8) (bs : List UInt8) :
    digitsValue (b :: bs) = (b.toNat - 0x30) * 10 ^ bs.length + digitsValue bs := by
  have hfold : ∀ (bs : List UInt8) (v : ℕ),
      bs.foldl (fun v b => 10 * v + (b.toNat - 0x30)) v = v * 10 ^ bs.length + digitsValue bs := by
    intro bs
    induction bs with
    | nil => intro v; simp [digitsValue]
    | cons b bs ih =>
      intro v
      rw [digitsValue, foldl_cons, foldl_cons, ih, ih, length_cons, pow_succ]
      ring
  rw [digitsValue, foldl_cons, hfold]
  simp

theorem digits_length_le (d : Digits) (hlead : d.bytes = [0x30] ∨ d.bytes.head d.ne_nil ≠ 0x30)
    {k : ℕ} (hk : 0 < k) (hlt : digitsValue d.bytes < 10 ^ k) : d.bytes.length ≤ k := by
  obtain ⟨bytes, hne, hdigits⟩ := d
  rcases hlead with hzero | hlead
  · exact (congrArg List.length hzero).trans_le hk
  · cases bytes with
    | nil => exact absurd rfl hne
    | cons b bs =>
      have hb : b ≠ 0x30 := hlead
      have hdigit : 1 ≤ b.toNat - 0x30 := by
        have hge := hdigits b mem_cons_self
        simp only [isDigit, Bool.and_eq_true, decide_eq_true_eq, UInt8.le_iff_toNat_le] at hge
        have hne : b.toNat ≠ 0x30 := fun h => hb (UInt8.toNat_inj.mp h)
        have : (0x30 : UInt8).toNat = 0x30 := rfl
        omega
      have hpow : 10 ^ bs.length < 10 ^ k := by
        calc 10 ^ bs.length ≤ (b.toNat - 0x30) * 10 ^ bs.length := Nat.le_mul_of_pos_left _ hdigit
          _ ≤ digitsValue (b :: bs) := by rw [digitsValue_cons]; exact Nat.le_add_right _ _
          _ < 10 ^ k := hlt
      exact (Nat.pow_lt_pow_iff_right (by decide)).mp hpow

theorem all_digits (n : Number) : n.int.bytes.all isDigit = true :=
  all_eq_true.mpr n.int.digits

theorem head_ne_minus (n : Number) : n.int.bytes.head? ≠ some 0x2D := by
  intro hhead
  have hdigit := n.int.digits 0x2D (mem_of_mem_head? hhead)
  exact absurd hdigit (by decide)

theorem fitsBuffer_of_length {s : List UInt8} (hne : s ≠ []) (hlt : s.length < 64) :
    fitsBuffer s = true := by
  simp [fitsBuffer, hne, hlt]

/-! ## The conversions -/

section Conversions

variable {m : Number} {v : Value}

theorem Number.bytes_of_isFloat (h : m.isFloat = false) :
    m.bytes = (if m.negative then [0x2D] else []) ++ m.int.bytes := by
  rw [Number.isFloat, Bool.or_eq_false_iff, Option.isSome_eq_false_iff, Option.isSome_eq_false_iff,
    Option.isNone_iff_eq_none, Option.isNone_iff_eq_none] at h
  rw [Number.bytes, h.1, h.2]
  simp

theorem valueNode_type_number (h : (valueNode v).type = .number) : ∃ m, v = .number m := by
  cases v with
  | number m => exact ⟨m, rfl⟩
  | bool b => cases b <;> exact absurd h (by decide)
  | null | string s | array gap elems | object gap members => exact absurd h (by simp [valueNode])

theorem large_of_fitsBuffer {pre : List UInt8} (hpre : pre.length ≤ 1)
    (h : fitsBuffer (pre ++ m.int.bytes) = false) : 2 ^ 64 ≤ m.int.value := by
  by_contra hlt
  have hlen := digits_length_le m.int m.leading (k := 20) (by decide)
    ((Nat.lt_of_not_le hlt).trans (by decide))
  have hfits : fitsBuffer (pre ++ m.int.bytes) = true :=
    fitsBuffer_of_length (by simp [m.int.ne_nil]) (by rw [length_append]; omega)
  rw [hfits] at h
  exact absurd h (by decide)

theorem jsonAsUint_eq (hfloat : m.isFloat = false) (hneg : m.negative = false) :
    jsonAsUint (valueNode (.number m)) =
      if m.int.value < 2 ^ 64 then .ok m.int.value else .error .range := by
  have hbytes : m.bytes = [] ++ m.int.bytes := by rw [Number.bytes_of_isFloat hfloat, hneg]; rfl
  have hhead : ([] ++ m.int.bytes).head? ≠ some 0x2D := head_ne_minus m
  rw [jsonAsUint, valueNode, hfloat, hbytes]
  dsimp only
  rw [if_neg (by decide)]
  cases hfits : fitsBuffer ([] ++ m.int.bytes) with
  | false =>
    rw [if_pos (.inr (.inr rfl)), if_neg (Nat.not_lt.mpr (large_of_fitsBuffer (by decide) hfits))]
  | true =>
    have hle : digitsValue m.int.bytes ≤ uint64Max ↔ m.int.value < 2 ^ 64 :=
      Nat.le_sub_one_iff_lt (by decide)
    rw [if_neg (by simpa using hhead), nil_append, strtoull, all_digits m]
    by_cases hlt : m.int.value < 2 ^ 64
    · rw [if_pos hlt, if_pos (by simp [hle.mpr hlt])]
      rfl
    · rw [if_neg hlt, if_neg (by simpa using fun hmax => hlt (hle.mp hmax))]
      rfl

theorem jsonAsUint_ok_iff {k : ℕ} : jsonAsUint (valueNode v) = .ok k ↔
    ∃ m, v = .number m ∧ m.isFloat = false ∧ m.negative = false ∧ m.int.value = k ∧ k < 2 ^ 64 := by
  constructor
  · intro h
    have htype : (valueNode v).type = .number := by
      by_contra hne
      rw [jsonAsUint, if_pos hne] at h
      cases h
    obtain ⟨m, rfl⟩ := valueNode_type_number htype
    have hfloat : m.isFloat = false := by
      by_contra hne
      rw [jsonAsUint, valueNode, Bool.eq_true_of_not_eq_false hne] at h
      cases h
    have hneg : m.negative = false := by
      by_contra hne
      rw [jsonAsUint, valueNode, hfloat, Number.bytes_of_isFloat hfloat,
        Bool.eq_true_of_not_eq_false hne] at h
      cases h
    rw [jsonAsUint_eq hfloat hneg] at h
    split at h
    · obtain rfl := Except.ok.inj h
      exact ⟨m, rfl, hfloat, hneg, rfl, ‹_›⟩
    · cases h
  · rintro ⟨m, rfl, hfloat, hneg, rfl, hlt⟩
    rw [jsonAsUint_eq hfloat hneg, if_pos hlt]

theorem strtoll_digits (m : Number) : strtoll m.int.bytes =
    if m.int.value < 2 ^ 63 then some (m.int.value : ℤ) else none := by
  have hall := all_digits m
  have hhead := head_ne_minus m
  have hne := m.int.ne_nil
  rw [Digits.value]
  change _ = if digitsValue m.int.bytes < 2 ^ 63 then some (digitsValue m.int.bytes : ℤ) else none
  generalize m.int.bytes = bytes at *
  cases bytes with
  | nil => exact absurd rfl hne
  | cons b bs => rw [strtoll, if_neg (by simpa using hhead), hall]; simp

theorem strtoll_minus (m : Number) : strtoll (0x2D :: m.int.bytes) =
    if m.int.value ≤ 2 ^ 63 then some (-(m.int.value : ℤ)) else none := by
  rw [strtoll, if_pos rfl, all_digits m, Digits.value]
  change _ = if digitsValue m.int.bytes ≤ 2 ^ 63 then some (-(digitsValue m.int.bytes : ℤ)) else none
  simp [m.int.ne_nil]

theorem jsonAsInt_eq (hfloat : m.isFloat = false) : jsonAsInt (valueNode (.number m)) =
    if -2 ^ 63 ≤ m.intValue ∧ m.intValue < 2 ^ 63 then .ok m.intValue else .error .range := by
  rw [jsonAsInt, valueNode, hfloat, Number.bytes_of_isFloat hfloat, Number.intValue]
  dsimp only
  rw [if_neg (by decide)]
  cases hneg : m.negative with
  | false =>
    simp only [Bool.false_eq_true, if_false]
    cases hfits : fitsBuffer ([] ++ m.int.bytes) with
    | false =>
      have hlarge := large_of_fitsBuffer (by decide) hfits
      rw [if_pos (.inr rfl), if_neg (by omega)]
    | true =>
      rw [if_neg (by simp), nil_append, strtoll_digits]
      by_cases hlt : m.int.value < 2 ^ 63
      · rw [if_pos hlt, if_pos (by omega)]
        rfl
      · rw [if_neg hlt, if_neg (by omega)]
        rfl
  | true =>
    simp only [if_true]
    cases hfits : fitsBuffer ([0x2D] ++ m.int.bytes) with
    | false =>
      have hlarge := large_of_fitsBuffer (by decide) hfits
      rw [if_pos (.inr rfl), if_neg (by omega)]
    | true =>
      rw [if_neg (by simp), singleton_append, strtoll_minus]
      by_cases hle : m.int.value ≤ 2 ^ 63
      · rw [if_pos hle, if_pos (by omega)]
        rfl
      · rw [if_neg hle, if_neg (by omega)]
        rfl

theorem jsonAsInt_ok_iff {z : ℤ} : jsonAsInt (valueNode v) = .ok z ↔
    ∃ m, v = .number m ∧ m.isFloat = false ∧ m.intValue = z ∧ -2 ^ 63 ≤ z ∧ z < 2 ^ 63 := by
  constructor
  · intro h
    have htype : (valueNode v).type = .number := by
      by_contra hne
      rw [jsonAsInt, if_pos hne] at h
      cases h
    obtain ⟨m, rfl⟩ := valueNode_type_number htype
    have hfloat : m.isFloat = false := by
      by_contra hne
      rw [jsonAsInt, valueNode, Bool.eq_true_of_not_eq_false hne] at h
      cases h
    rw [jsonAsInt_eq hfloat] at h
    split at h
    · rename_i hrange
      obtain rfl := Except.ok.inj h
      exact ⟨m, rfl, hfloat, rfl, hrange⟩
    · cases h
  · rintro ⟨m, rfl, hfloat, rfl, hrange⟩
    rw [jsonAsInt_eq hfloat, if_pos hrange]

end Conversions

/-! ## The numbers of the lexer -/

section Lexer

variable {c rest : List UInt8}

theorem digitRun_digits (c : List UInt8) : ∀ b ∈ (digitRun c).1, isDigit b = true := by
  intro b hb
  rw [digitRun, span_eq_takeWhile_dropWhile] at hb
  exact mem_takeWhile_imp hb

theorem digitRun_eq (c : List UInt8) : c = (digitRun c).1 ++ (digitRun c).2 ∧
    ∀ b, (digitRun c).2.head? = some b → isDigit b = false := by
  rw [digitRun, span_eq_takeWhile_dropWhile]
  refine ⟨(takeWhile_append_dropWhile).symm, fun b hb => ?_⟩
  have h := head?_dropWhile_not isDigit c
  rwa [hb] at h

theorem lexDigits_digits {r : List UInt8 × List UInt8} (h : lexDigits c = some r) :
    ∃ d : Digits, c = d.bytes ++ r.2 ∧ d.bytes = r.1 ∧
      ∀ b, r.2.head? = some b → isDigit b = false := by
  rw [lexDigits] at h
  split_ifs at h with hne
  obtain rfl := Option.some.inj h
  exact ⟨⟨_, hne, digitRun_digits c⟩, (digitRun_eq c).1, rfl, (digitRun_eq c).2⟩

theorem lexInt_digits {r : List UInt8 × List UInt8} (h : lexInt c = some r) :
    ∃ d : Digits, c = d.bytes ++ r.2 ∧ d.bytes = r.1 ∧ IntEnds d r.2 ∧
      (d.bytes = [0x30] ∨ d.bytes.head d.ne_nil ≠ 0x30) := by
  cases c with
  | nil => cases h
  | cons b c =>
    rw [lexInt] at h
    split_ifs at h with hzero hdigit
    · obtain rfl := Option.some.inj h
      subst hzero
      exact ⟨⟨[0x30], cons_ne_nil _ _, by simp [isDigit]⟩, rfl, rfl, .inl rfl, .inl rfl⟩
    · obtain rfl := Option.some.inj h
      have hrun : (digitRun (b :: c)).1 = b :: c.takeWhile isDigit := by
        rw [digitRun, span_eq_takeWhile_dropWhile, takeWhile_cons_of_pos hdigit]
      refine ⟨⟨_, by rw [hrun]; exact cons_ne_nil _ _, digitRun_digits (b :: c)⟩,
        (digitRun_eq _).1, rfl, .inr (digitRun_eq _).2, .inr ?_⟩
      simpa [hrun] using hzero

theorem lexFrac_digits {r : List UInt8 × List UInt8} (h : lexFrac c = some r) :
    ∃ f : Option Digits, c = r.1 ++ r.2 ∧ (f.elim [] fun d => 0x2E :: d.bytes) = r.1 ∧
      FracEnds f r.2 := by
  cases c with
  | nil =>
    obtain rfl := Option.some.inj h
    exact ⟨none, rfl, rfl, fun b hb => by cases hb⟩
  | cons b c =>
    rw [lexFrac] at h
    split_ifs at h with hpoint
    · obtain ⟨r, hr, rfl⟩ := Option.map_eq_some_iff.1 h
      obtain ⟨d, hc, hd, hends⟩ := lexDigits_digits hr
      exact ⟨some d, by rw [hc, hd]; rfl, by rw [hpoint, ← hd]; rfl, hends⟩
    · obtain rfl := Option.some.inj h
      exact ⟨none, rfl, rfl, fun b' hb => Option.some.inj hb ▸ hpoint⟩

theorem lexExpSign_sign (c : List UInt8) : c = (lexExpSign c).1 ++ (lexExpSign c).2 ∧
    ∃ sign : Option Bool,
      (sign.elim [] fun minus => [if minus then 0x2D else 0x2B]) = (lexExpSign c).1 := by
  cases c with
  | nil => exact ⟨rfl, none, rfl⟩
  | cons b c =>
    rw [lexExpSign]
    split_ifs with hsign
    · rcases hsign with rfl | rfl
      · exact ⟨rfl, some false, rfl⟩
      · exact ⟨rfl, some true, rfl⟩
    · exact ⟨rfl, none, rfl⟩

theorem lexExp_exponent {r : List UInt8 × List UInt8} (h : lexExp c = some r) :
    ∃ e : Option Exponent, c = r.1 ++ r.2 ∧ e.elim [] Exponent.bytes = r.1 ∧ ExpEnds e r.2 := by
  cases c with
  | nil =>
    obtain rfl := Option.some.inj h
    exact ⟨none, rfl, rfl, fun b hb => by cases hb⟩
  | cons b c =>
    rw [lexExp] at h
    split_ifs at h with hletter
    · obtain ⟨r, hr, rfl⟩ := Option.map_eq_some_iff.1 h
      obtain ⟨d, hc, hd, hends⟩ := lexDigits_digits hr
      obtain ⟨hsplit, sign, hsign⟩ := lexExpSign_sign c
      have htext : b :: c = b :: ((lexExpSign c).1 ++ r.1) ++ r.2 := by
        rw [cons_append, append_assoc, ← hd, ← hc, ← hsplit]
      rcases hletter with rfl | rfl
      · exact ⟨some ⟨false, sign, d⟩, htext, by rw [← hd, ← hsign]; rfl, hends⟩
      · exact ⟨some ⟨true, sign, d⟩, htext, by rw [← hd, ← hsign]; rfl, hends⟩
    · obtain rfl := Option.some.inj h
      exact ⟨none, rfl, rfl, fun b' hb => Option.some.inj hb ▸ not_or.mp hletter⟩

theorem lexSign_sign (c : List UInt8) : c = (lexSign c).1 ++ (lexSign c).2 ∧
    ∃ negative : Bool, (if negative then [0x2D] else []) = (lexSign c).1 := by
  cases c with
  | nil => exact ⟨rfl, false, rfl⟩
  | cons b c =>
    rw [lexSign]
    split_ifs with hminus
    · exact ⟨rfl, true, by rw [hminus]; rfl⟩
    · exact ⟨rfl, false, rfl⟩

theorem lexNumberSpan_number {span : List UInt8} {flag : JsonNodeFlag}
    (h : lexNumberSpan c = some (span, flag, rest)) :
    ∃ m : Number, m.bytes = span ∧ (if m.isFloat then JsonNodeFlag.numFloat else .none) = flag ∧
      c = span ++ rest ∧ m.EndsAt rest := by
  rw [lexNumberSpan] at h
  simp only [Option.bind_eq_bind, Option.bind_eq_some_iff] at h
  obtain ⟨int, hint, frac, hfrac, exp, hexp, heq⟩ := h
  obtain ⟨hc, negative, hneg⟩ := lexSign_sign c
  obtain ⟨d, hc₁, hd, hintEnds, hlead⟩ := lexInt_digits hint
  obtain ⟨f, hc₂, hf, hfracEnds⟩ := lexFrac_digits hfrac
  obtain ⟨e, hc₃, he, hexpEnds⟩ := lexExp_exponent hexp
  rw [Option.some.injEq, Prod.mk.injEq, Prod.mk.injEq] at heq
  obtain ⟨rfl, rfl, rfl⟩ := heq
  refine ⟨⟨negative, d, hlead, f, e⟩, by rw [Number.bytes, hneg, hd, hf, he], ?_, ?_, ?_⟩
  · rw [← hf, ← he, Number.isFloat]
    cases f <;> cases e <;> simp [Exponent.bytes]
  · calc c = (lexSign c).1 ++ (int.1 ++ (frac.1 ++ (exp.1 ++ exp.2))) := by
          rw [← hc₃, ← hc₂, ← hd, ← hc₁, ← hc]
      _ = _ := by simp only [append_assoc]
  · rw [hc₂, ← hf, hc₃, ← he] at hintEnds
    rw [hc₃, ← he] at hfracEnds
    exact (number_endsAt_iff _).2 ⟨hexpEnds, hfracEnds, hintEnds⟩

theorem lexContainer_type {type : JsonType} {closing : UInt8} {n : JsonNode}
    (h : lexContainer type closing c = .ok (n, rest)) : n.type = type := by
  rw [lexContainer] at h
  split at h
  · cases h
  · rw [← (Prod.mk.inj (Except.ok.inj h)).1]

theorem lexLiteral_type {type : JsonType} {kw : List UInt8} {n : JsonNode}
    (h : lexLiteral type kw c = .ok (n, rest)) : n.type = type := by
  rw [lexLiteral] at h
  split at h
  · cases h
  · rw [← (Prod.mk.inj (Except.ok.inj h)).1]

theorem lexSpan_eq_ok {type : JsonType} {n : JsonNode}
    {r : Option (List UInt8 × JsonNodeFlag × List UInt8)} (h : lexSpan type r = .ok (n, rest)) :
    n.type = type ∧ r = some (n.s, n.flag, rest) := by
  rcases r with _ | ⟨span, flag, left⟩
  · cases h
  · obtain ⟨rfl, rfl⟩ := Prod.mk.inj (Except.ok.inj h)
    exact ⟨rfl, rfl⟩

theorem lexValue_number {n : JsonNode} (h : lexValue c = .ok (n, rest)) (hn : n.type = .number) :
    ∃ m : Number, n = valueNode (.number m) := by
  have hother : ∀ {type : JsonType}, n.type = type → type ≠ .number → False :=
    fun htype hne => hne (htype.symm.trans hn)
  cases c with
  | nil => cases h
  | cons b c =>
    rw [lexValue] at h
    split_ifs at h
    · exact (hother (lexContainer_type h) (by decide)).elim
    · exact (hother (lexContainer_type h) (by decide)).elim
    · exact (hother (lexSpan_eq_ok h).1 (by decide)).elim
    · exact (hother (lexLiteral_type h) (by decide)).elim
    · exact (hother (lexLiteral_type h) (by decide)).elim
    · exact (hother (lexLiteral_type h) (by decide)).elim
    · obtain ⟨m, hbytes, hflag, -⟩ := lexNumberSpan_number (lexSpan_eq_ok h).2
      refine ⟨m, ?_⟩
      rw [valueNode, hbytes, hflag, ← hn]

end Lexer

/-- **The conversions of the numbers that the lexer returns**: `json_as_int` converts the integers of
64 bits with a sign, `json_as_uint` those without, and both return the value of the literal. -/
theorem json_as_integer_exact {c rest : List UInt8} {n : JsonNode} (h : lexValue c = .ok (n, rest))
    (hn : n.type = .number) : ∃ m : Number, m.bytes = n.s ∧
      ((∃ z, jsonAsInt n = .ok z) ↔
        m.frac = none ∧ m.exp = none ∧ -2 ^ 63 ≤ m.value ∧ m.value < 2 ^ 63) ∧
      (∀ z, jsonAsInt n = .ok z → m.value = z) ∧
      ((∃ k, jsonAsUint n = .ok k) ↔
        m.frac = none ∧ m.exp = none ∧ m.negative = false ∧ m.value < 2 ^ 64) ∧
      ∀ k, jsonAsUint n = .ok k → m.value = k := by
  obtain ⟨m, rfl⟩ := lexValue_number h hn
  have hfloat : m.isFloat = false ↔ m.frac = none ∧ m.exp = none := by
    simp [Number.isFloat]
  -- what the two conversions succeed on, with the value as a rational number
  have hint : ∀ z, jsonAsInt (valueNode (.number m)) = .ok z →
      m.isFloat = false ∧ m.value = z ∧ -2 ^ 63 ≤ z ∧ z < 2 ^ 63 := by
    intro z hz
    obtain ⟨m', heq, hinteger, rfl, hrange⟩ := jsonAsInt_ok_iff.1 hz
    obtain rfl := Value.number.inj heq
    exact ⟨hinteger, Number.value_eq_intValue hinteger, hrange⟩
  have huint : ∀ k, jsonAsUint (valueNode (.number m)) = .ok k →
      m.isFloat = false ∧ m.negative = false ∧ m.value = k ∧ k < 2 ^ 64 := by
    intro k hk
    obtain ⟨m', heq, hinteger, hneg, rfl, hlt⟩ := jsonAsUint_ok_iff.1 hk
    obtain rfl := Value.number.inj heq
    refine ⟨hinteger, hneg, ?_, hlt⟩
    rw [Number.value_eq_intValue hinteger, Number.intValue, hneg]
    simp
  refine ⟨m, rfl, ⟨?_, ?_⟩, fun z hz => (hint z hz).2.1, ⟨?_, ?_⟩, fun k hk => (huint k hk).2.2.1⟩
  · rintro ⟨z, hz⟩
    obtain ⟨hinteger, hvalue, hlo, hhi⟩ := hint z hz
    rw [hvalue]
    exact ⟨(hfloat.1 hinteger).1, (hfloat.1 hinteger).2, by exact_mod_cast hlo, by exact_mod_cast hhi⟩
  · rintro ⟨hfrac, hexp, hlo, hhi⟩
    have hinteger := hfloat.2 ⟨hfrac, hexp⟩
    rw [Number.value_eq_intValue hinteger] at hlo hhi
    exact ⟨_, jsonAsInt_ok_iff.2 ⟨m, rfl, hinteger, rfl, by exact_mod_cast hlo, by exact_mod_cast hhi⟩⟩
  · rintro ⟨k, hk⟩
    obtain ⟨hinteger, hneg, hvalue, hlt⟩ := huint k hk
    rw [hvalue]
    exact ⟨(hfloat.1 hinteger).1, (hfloat.1 hinteger).2, hneg, by exact_mod_cast hlt⟩
  · rintro ⟨hfrac, hexp, hneg, hlt⟩
    have hinteger := hfloat.2 ⟨hfrac, hexp⟩
    rw [Number.value_eq_intValue hinteger, Number.intValue, hneg, if_neg (by decide)] at hlt
    exact ⟨_, jsonAsUint_ok_iff.2 ⟨m, rfl, hinteger, hneg, rfl, by exact_mod_cast hlt⟩⟩

/-- A negative number. -/
theorem json_as_integer_exact_minus :
    lexValue [0x2D, 0x31] = .ok (⟨.number, .none, [0x2D, 0x31]⟩, []) ∧
    ∃ m : Number, m.bytes = [0x2D, 0x31] ∧ m.value = (-1 : ℤ) := by
  have hlex : lexValue [0x2D, 0x31] = .ok (⟨.number, .none, [0x2D, 0x31]⟩, []) := by decide +kernel
  obtain ⟨m, hbytes, -, hexact, -⟩ := json_as_integer_exact hlex rfl
  exact ⟨hlex, m, hbytes, hexact (-1) (by decide +kernel)⟩

end Damacy

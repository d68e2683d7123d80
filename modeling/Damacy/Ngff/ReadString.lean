import Mathlib.Algebra.Order.Ring.Nat
import Mathlib.Data.Nat.Cast.Order.Basic
import Damacy.Lib.JsonString
import Damacy.Util.JsonLex

/-!
# Reading the text of a string (`ngff/metadata.c`)

`read_string` copies a string node into a buffer of its own, of the length of its span, and replaces
the escapes on the way. A turn of its loop takes a character off the span, and for a surrogate the
next one with it, before it writes the bytes of the text.
-/

open List JsonText

namespace Damacy

/-! ## The reader -/

def hexDigit (c : UInt8) : Option ℕ :=
  if 0x30 ≤ c ∧ c ≤ 0x39 then some (c.toNat - 0x30)
  else if 0x61 ≤ c ∧ c ≤ 0x66 then some (c.toNat - 0x61 + 10)
  else if 0x41 ≤ c ∧ c ≤ 0x46 then some (c.toNat - 0x41 + 10)
  else none

def hex4 (p : List UInt8) : Option ℕ :=
  p.foldlM (fun out c => (hexDigit c).map fun digit => u32 (out <<< 4) ||| digit) 0

/-- What `strchr` finds in the list of escapes; their terminators stand at the same place. -/
def simpleEscape (c : UInt8) : Option UInt8 :=
  let escapes : List UInt8 := [0x22, 0x5C, 0x2F, 0x62, 0x66, 0x6E, 0x72, 0x74, 0x00]
  let values : List UInt8 := [0x22, 0x5C, 0x2F, 0x08, 0x0C, 0x0A, 0x0D, 0x09, 0x00]
  (escapes.idxOf? c).bind (values[·]?)

def putCode (code : ℕ) : List UInt8 :=
  if code < 0x80 then [UInt8.ofNat code]
  else if code < 0x800 then
    [UInt8.ofNat (0xC0 ||| code >>> 6), UInt8.ofNat (0x80 ||| code &&& 0x3F)]
  else if code < 0x10000 then
    [UInt8.ofNat (0xE0 ||| code >>> 12), UInt8.ofNat (0x80 ||| code >>> 6 &&& 0x3F),
      UInt8.ofNat (0x80 ||| code &&& 0x3F)]
  else
    [UInt8.ofNat (0xF0 ||| code >>> 18), UInt8.ofNat (0x80 ||| code >>> 12 &&& 0x3F),
      UInt8.ofNat (0x80 ||| code >>> 6 &&& 0x3F), UInt8.ofNat (0x80 ||| code &&& 0x3F)]

def readLow : List UInt8 → Option (ℕ × List UInt8)
  | p₀ :: p₁ :: a :: b :: c :: d :: p =>
    if p₀ ≠ 0x5C ∨ p₁ ≠ 0x75 then none
    else (hex4 [a, b, c, d]).bind fun low =>
      if low < 0xDC00 ∨ 0xDFFF < low then none else some (low, p)
  | _ => none

def readCode : List UInt8 → Option (ℕ × List UInt8)
  | a :: b :: c :: d :: p =>
    (hex4 [a, b, c, d]).bind fun code =>
      if 0xD800 ≤ code ∧ code ≤ 0xDBFF then
        (readLow p).map fun r => (0x10000 + (code - 0xD800) <<< 10 + r.1 - 0xDC00, r.2)
      else if 0xDC00 ≤ code ∧ code ≤ 0xDFFF then none
      else some (code, p)
  | _ => none

/-- A turn of the loop of `read_string`: what it writes, and what is left to read. -/
def readStringTurn : List UInt8 → Option (List UInt8 × List UInt8)
  | [] => none
  | c :: p =>
    if c ≠ 0x5C then some ([c], p)
    else
      match p with
      | [] => none
      | c :: p =>
        if c = 0x75 then
          (readCode p).bind fun r => if r.1 = 0 then none else some (putCode r.1, r.2)
        else (simpleEscape c).map fun value => ([value], p)

/-- The loop of `read_string`, with what it has written. -/
def readStringLoop : (fuel : ℕ) → (dst p : List UInt8) → Option (List UInt8)
  | _, dst, [] => some dst
  | 0, _, _ => none
  | fuel + 1, dst, c :: p =>
    (readStringTurn (c :: p)).bind fun r => readStringLoop fuel (dst ++ r.1) r.2

/-- `read_string`; `malloc` says whether there is memory for the text. -/
def readString (malloc : Bool) (node : JsonNode) : Except Status (List UInt8) :=
  if node.type ≠ .string ∨ node.s = [] then .error .inval
  else if !malloc then .error .oom
  else (readStringLoop node.s.length [] node.s).elim (.error .inval) .ok

/-- The loop has read a span up to `p` and has written `dst`. -/
inductive ReadsTo (span : List UInt8) : (dst p : List UInt8) → Prop
  | start : ReadsTo span [] span
  | turn {dst p bytes p' : List UInt8} (h : ReadsTo span dst p)
      (hturn : readStringTurn p = some (bytes, p')) : ReadsTo span (dst ++ bytes) p'

/-! ## Codes -/

theorem hexDigit_eq {b : UInt8} (h : isHexDigit b = true) : hexDigit b = some (hexValue b) := by
  revert b
  decide +kernel

theorem simpleEscape_eq {b : UInt8} (h : isSimpleEscape b = true) :
    simpleEscape b = some (escapeValue b) := by
  revert b
  decide +kernel

theorem hex4_eq {a b c d : UInt8} (h : ∀ x ∈ [a, b, c, d], isHexDigit x = true) :
    hex4 [a, b, c, d] = some (hexCode a b c d) := by
  simp only [forall_mem_cons, not_mem_nil, false_implies, implies_true, and_true] at h
  have hor {out digit : ℕ} (hout : out < 2 ^ 28) (hdigit : digit < 16) :
      u32 (out <<< 4) ||| digit = out * 16 + digit := by
    rw [u32, Nat.shiftLeft_eq, Nat.mod_eq_of_lt (by omega), mul_comm]
    exact (Nat.two_pow_add_eq_or_of_lt (i := 4) hdigit out).symm
  have ha := hexValue_lt h.1
  have hb := hexValue_lt h.2.1
  have hc := hexValue_lt h.2.2.1
  have hd := hexValue_lt h.2.2.2
  simp only [hex4, foldlM_cons, foldlM_nil, hexDigit_eq h.1, hexDigit_eq h.2.1,
    hexDigit_eq h.2.2.1, hexDigit_eq h.2.2.2, Option.map_some, Option.bind_eq_bind, Option.bind_some,
    Option.pure_def]
  rw [hor (by omega) ha, hor (by omega) hb, hor (by omega) hc, hor (by omega) hd, hexCode, zero_mul,
    zero_add]

theorem or_continuation (code : ℕ) : 0x80 ||| code &&& 0x3F = code % 64 + 128 := by
  rw [show (0x3F : ℕ) = 2 ^ 6 - 1 from rfl, Nat.and_two_pow_sub_one_eq_mod, add_comm]
  exact (Nat.two_pow_add_eq_or_of_lt (i := 7) (by omega) 1).symm

theorem putCode_eq_utf8 {code : ℕ} (h : code.isValidChar) : putCode code = utf8 code := by
  have hchar : (Char.ofNat code).val.toNat = code := by
    rw [Char.ofNat, dif_pos h]
    rfl
  have hbound : code < 0x110000 := by
    rcases h with h | h <;> omega
  have hlead {lead : ℕ} (i : ℕ) {x : ℕ} (hx : x < 2 ^ i) : 2 ^ i * lead ||| x = x + 2 ^ i * lead := by
    rw [add_comm, Nat.two_pow_add_eq_or_of_lt hx]
  rw [putCode, utf8, String.utf8EncodeChar]
  simp only [hchar, or_continuation, Nat.shiftRight_eq_div_pow]
  split_ifs <;> first | omega | skip
  · rfl
  · rw [show (0xC0 : ℕ) = 2 ^ 5 * 6 from rfl, hlead 5 (by omega),
      Nat.mod_eq_of_lt (b := 32) (by omega)]
  · rw [show (0xE0 : ℕ) = 2 ^ 4 * 14 from rfl, hlead 4 (by omega),
      Nat.mod_eq_of_lt (b := 16) (by omega)]
  · rw [show (0xF0 : ℕ) = 2 ^ 3 * 30 from rfl, hlead 3 (by omega),
      Nat.mod_eq_of_lt (b := 8) (by omega)]

/-! ## What a turn takes and gives -/

theorem length_readLow {p p' : List UInt8} {low : ℕ} (h : readLow p = some (low, p')) :
    p.length = p'.length + 6 := by
  rw [readLow.eq_def] at h
  split at h
  · split_ifs at h
    obtain ⟨code, -, h⟩ := Option.bind_eq_some_iff.1 h
    split_ifs at h
    obtain ⟨-, rfl⟩ := Prod.mk.inj (Option.some.inj h)
    rfl
  · cases h

theorem length_readCode {p p' : List UInt8} {code : ℕ} (h : readCode p = some (code, p')) :
    (putCode code).length + p'.length ≤ p.length := by
  have hfour : (putCode code).length ≤ 4 := by
    rw [putCode]
    split_ifs <;> simp
  rw [readCode.eq_def] at h
  split at h
  · obtain ⟨code', -, h⟩ := Option.bind_eq_some_iff.1 h
    split_ifs at h
    · obtain ⟨⟨low, p''⟩, hlow, heq⟩ := Option.map_eq_some_iff.1 h
      obtain ⟨-, rfl⟩ := Prod.mk.inj heq
      have := length_readLow hlow
      simp only [length_cons]
      omega
    · obtain ⟨-, rfl⟩ := Prod.mk.inj (Option.some.inj h)
      simp only [length_cons]
      omega
  · cases h

theorem length_readStringTurn {p bytes p' : List UInt8} (h : readStringTurn p = some (bytes, p')) :
    bytes.length + p'.length ≤ p.length := by
  rw [readStringTurn.eq_def] at h
  split at h
  · cases h
  · split_ifs at h
    · obtain ⟨rfl, rfl⟩ := Prod.mk.inj (Option.some.inj h)
      simp only [length_cons, length_nil]
      omega
    · split at h
      · cases h
      · split_ifs at h
        · obtain ⟨⟨code, p''⟩, hcode, h⟩ := Option.bind_eq_some_iff.1 h
          dsimp only at h
          split_ifs at h
          obtain ⟨rfl, rfl⟩ := Prod.mk.inj (Option.some.inj h)
          have := length_readCode hcode
          simp only [length_cons]
          omega
        · obtain ⟨value, -, heq⟩ := Option.map_eq_some_iff.1 h
          obtain ⟨rfl, rfl⟩ := Prod.mk.inj heq
          simp only [length_cons, length_nil]
          omega

/-- **The buffer suffices**: at every point of the loop no more has been written than read. -/
theorem ReadsTo.length_le {span dst p : List UInt8} (h : ReadsTo span dst p) :
    dst.length + p.length ≤ span.length := by
  induction h with
  | start => simp
  | turn h hturn ih =>
    have := length_readStringTurn hturn
    rw [length_append]
    omega

/-! ## The characters of a string -/

section Turn

variable {a b c d : UInt8} {p : List UInt8}

theorem readStringTurn_plain (h : b ≠ 0x5C) : readStringTurn (b :: p) = some ([b], p) := by
  rw [readStringTurn.eq_def]
  exact if_pos h

theorem readStringTurn_escape (h : isSimpleEscape b = true) :
    readStringTurn (0x5C :: b :: p) = some (utf8 (escapeValue b).toNat, p) := by
  have hu : b ≠ 0x75 := by
    rintro rfl
    exact absurd h (by decide)
  have hvalue : utf8 (escapeValue b).toNat = [escapeValue b] := by
    revert b
    decide +kernel
  rw [readStringTurn, if_neg (by simp), if_neg hu, simpleEscape_eq h, hvalue]
  rfl

theorem readStringTurn_unicode : readStringTurn (0x5C :: 0x75 :: p) =
    (readCode p).bind fun r => if r.1 = 0 then none else some (putCode r.1, r.2) := by
  rw [readStringTurn, if_neg (by simp), if_pos rfl]

theorem readCode_eq (h : ∀ x ∈ [a, b, c, d], isHexDigit x = true) : readCode (a :: b :: c :: d :: p) =
    if isHighSurrogate (hexCode a b c d) then
      (readLow p).map fun r => (0x10000 + (hexCode a b c d - 0xD800) <<< 10 + r.1 - 0xDC00, r.2)
    else if isLowSurrogate (hexCode a b c d) then none
    else some (hexCode a b c d, p) := by
  rw [readCode, hex4_eq h, Option.bind_some]
  simp only [isHighSurrogate, isLowSurrogate, Bool.and_eq_true, decide_eq_true_eq]

theorem readLow_eq (h : ∀ x ∈ [a, b, c, d], isHexDigit x = true) :
    readLow (0x5C :: 0x75 :: a :: b :: c :: d :: p) =
      if isLowSurrogate (hexCode a b c d) then some (hexCode a b c d, p) else none := by
  rw [readLow, if_neg (by simp), hex4_eq h, Option.bind_some]
  simp only [isLowSurrogate, Bool.and_eq_true, decide_eq_true_eq]
  split_ifs <;> first | rfl | omega

end Turn

section Body

variable {item next : StringItem} {s : StringBody}

theorem bytes_cons : StringBody.bytes (item :: s) = item.bytes ++ StringBody.bytes s := rfl

theorem readStringTurn_item (hhigh : ¬ item.isHigh) (hlow : ¬ item.isLow) (hnul : item.code ≠ some 0)
    (p : List UInt8) : readStringTurn (item.bytes ++ p) = some (item.text, p) := by
  cases item with
  | plain b ge ne_quote ne_backslash => exact readStringTurn_plain ne_backslash
  | escape b simple => exact readStringTurn_escape simple
  | unicode a b c d hex =>
    rw [StringItem.isHigh_unicode] at hhigh
    rw [StringItem.isLow_unicode] at hlow
    have hnul : hexCode a b c d ≠ 0 := fun h => hnul (congrArg some h)
    have hvalid : (hexCode a b c d).isValidChar := by
      have hlt := hexCode_lt hex
      simp only [isHighSurrogate, isLowSurrogate, Bool.and_eq_true, decide_eq_true_eq] at hhigh hlow
      simp only [Nat.isValidChar]
      omega
    show readStringTurn (0x5C :: 0x75 :: a :: b :: c :: d :: p) = _
    rw [readStringTurn_unicode, readCode_eq hex, if_neg hhigh, if_neg hlow, Option.bind_some,
      if_neg hnul, putCode_eq_utf8 hvalid]
    rfl

theorem readStringTurn_nul (hnul : item.code = some 0) (p : List UInt8) :
    readStringTurn (item.bytes ++ p) = none := by
  cases item with
  | plain | escape => cases hnul
  | unicode a b c d hex =>
    have hzero : hexCode a b c d = 0 := Option.some.inj hnul
    show readStringTurn (0x5C :: 0x75 :: a :: b :: c :: d :: p) = _
    rw [readStringTurn_unicode, readCode_eq hex, hzero]
    rfl

theorem readStringTurn_low (hlow : item.isLow) (p : List UInt8) :
    readStringTurn (item.bytes ++ p) = none := by
  have hhigh : ¬ item.isHigh := fun h => StringBody.high_low_false h hlow
  cases item with
  | plain | escape => cases hlow
  | unicode a b c d hex =>
    rw [StringItem.isHigh_unicode] at hhigh
    rw [StringItem.isLow_unicode] at hlow
    show readStringTurn (0x5C :: 0x75 :: a :: b :: c :: d :: p) = _
    rw [readStringTurn_unicode, readCode_eq hex, if_neg hhigh, if_pos hlow]
    rfl

theorem readLow_bytes : ∀ s : StringBody, readLow s.bytes =
    match s with
    | [] => none
    | next :: s => if next.isLow then some (next.code.getD 0, StringBody.bytes s) else none
  | [] => rfl
  | .plain b ge ne_quote ne_backslash :: s => by
    show readLow (b :: StringBody.bytes s) = none
    rw [readLow.eq_def]
    split
    · exact if_pos (.inl (by simp_all))
    · rfl
  | .escape b simple :: s => by
    have hu : b ≠ 0x75 := by
      rintro rfl
      exact absurd simple (by decide)
    show readLow (0x5C :: b :: StringBody.bytes s) = none
    rw [readLow.eq_def]
    split
    · exact if_pos (.inr (by simp_all))
    · rfl
  | .unicode a b c d hex :: s => readLow_eq hex

theorem surrogatePair_valid {high low : ℕ} (hhigh : isHighSurrogate high) (hlow : isLowSurrogate low) :
    (surrogatePair high low).isValidChar ∧ surrogatePair high low ≠ 0 ∧
      0x10000 + (high - 0xD800) <<< 10 + low - 0xDC00 = surrogatePair high low := by
  simp only [isHighSurrogate, isLowSurrogate, Bool.and_eq_true, decide_eq_true_eq] at hhigh hlow
  have hpair : surrogatePair high low = 0x10000 + (high - 0xD800) * 0x400 + (low - 0xDC00) := rfl
  rw [Nat.shiftLeft_eq, Nat.isValidChar]
  generalize surrogatePair high low = pair at hpair ⊢
  refine ⟨by omega, by omega, by omega⟩

theorem readStringTurn_high (hhigh : item.isHigh) (s : StringBody) :
    readStringTurn (item.bytes ++ s.bytes) =
      match s with
      | [] => none
      | next :: s =>
        if next.isLow then
          some (utf8 (surrogatePair (item.code.getD 0) (next.code.getD 0)), StringBody.bytes s)
        else none := by
  cases item with
  | plain | escape => cases hhigh
  | unicode a b c d hex =>
    rw [StringItem.isHigh_unicode] at hhigh
    show readStringTurn (0x5C :: 0x75 :: a :: b :: c :: d :: s.bytes) = _
    rw [readStringTurn_unicode, readCode_eq hex, if_pos hhigh, readLow_bytes]
    rcases s with _ | ⟨next, s⟩
    · rfl
    · dsimp only
      split_ifs with hlow
      · have hnext : isLowSurrogate (next.code.getD 0) := by
          cases hcode : next.code <;> simp_all [StringItem.isLow]
        obtain ⟨hvalid, hne, hcode⟩ := surrogatePair_valid hhigh hnext
        rw [Option.map_some, Option.bind_some, hcode, if_neg hne, putCode_eq_utf8 hvalid]
        rfl
      · rfl

theorem bytes_ne_nil (item : StringItem) (p : List UInt8) : item.bytes ++ p ≠ [] := by
  cases item <;> exact cons_ne_nil _ _

theorem readStringLoop_turn {p : List UInt8} (hp : p ≠ []) (fuel : ℕ) (dst : List UInt8) :
    readStringLoop (fuel + 1) dst p =
      (readStringTurn p).bind fun r => readStringLoop fuel (dst ++ r.1) r.2 := by
  cases p with
  | nil => exact absurd rfl hp
  | cons c p => rfl

theorem hasNul_cons : StringBody.HasNul (item :: s) ↔ item.code = some 0 ∨ s.HasNul := by
  simp [StringBody.HasNul]

def LoopReads (s : StringBody) : Prop :=
  ∀ fuel dst, s.bytes.length ≤ fuel →
    (s.HasNul ∨ s.Unpaired → readStringLoop fuel dst s.bytes = none) ∧
      (¬ (s.HasNul ∨ s.Unpaired) → readStringLoop fuel dst s.bytes = some (dst ++ s.text))

theorem LoopReads.of_turn {text : List UInt8} {rest : StringBody}
    (hturn : readStringTurn (StringBody.bytes (item :: s)) = some (text, rest.bytes))
    (hlength : rest.bytes.length < (StringBody.bytes (item :: s)).length)
    (hbad : StringBody.HasNul (item :: s) ∨ StringBody.Unpaired (item :: s) ↔
      rest.HasNul ∨ rest.Unpaired)
    (htext : StringBody.text (item :: s) = text ++ rest.text) (ih : LoopReads rest) :
    LoopReads (item :: s) := by
  have hne : StringBody.bytes (item :: s) ≠ [] := bytes_ne_nil item _
  rintro (_ | fuel) dst hfuel
  · omega
  · rw [readStringLoop_turn hne, hturn, Option.bind_some, hbad, htext, ← append_assoc]
    exact ih fuel (dst ++ text) (by omega)

theorem LoopReads.of_refused (hturn : readStringTurn (StringBody.bytes (item :: s)) = none)
    (hbad : StringBody.HasNul (item :: s) ∨ StringBody.Unpaired (item :: s)) :
    LoopReads (item :: s) := by
  have hne : StringBody.bytes (item :: s) ≠ [] := bytes_ne_nil item _
  rintro (_ | fuel) dst hfuel
  · exact absurd (eq_nil_of_length_eq_zero (Nat.le_zero.1 hfuel)) hne
  · rw [readStringLoop_turn hne, hturn]
    exact ⟨fun _ => rfl, fun h => absurd hbad h⟩

/-- **The loop reads every string.** -/
theorem loopReads : ∀ s : StringBody, LoopReads s
  | [] => fun fuel dst _ => by
    have hloop : readStringLoop fuel dst (StringBody.bytes []) = some dst := by
      cases fuel <;> rfl
    rw [hloop]
    refine ⟨fun h => absurd h ?_, fun _ => by simp [StringBody.text]⟩
    simp [StringBody.HasNul, StringBody.not_unpaired_nil]
  | item :: s => by
    have hpos : 0 < item.bytes.length := length_pos_iff.2 (by simpa using bytes_ne_nil item [])
    by_cases hhigh : item.isHigh
    · have hnul : ¬ item.code = some 0 := by
        intro h
        simp [StringItem.isHigh, h, isHighSurrogate] at hhigh
      have hturn := readStringTurn_high hhigh s
      rcases s with _ | ⟨next, s⟩
      · exact .of_refused hturn (.inr (StringBody.unpaired_of_high hhigh (by simp)))
      · by_cases hlow : next.isLow
        · -- a pair is read in one turn
          have hnext : ¬ next.code = some 0 := by
            intro h
            simp [StringItem.isLow, h, isLowSurrogate] at hlow
          refine .of_turn (hturn.trans (if_pos hlow)) ?_ ?_ (StringBody.text_pair hhigh hlow)
            (loopReads s)
          · simp only [bytes_cons, length_append]
            omega
          · rw [hasNul_cons, hasNul_cons, StringBody.unpaired_pair_iff hhigh hlow, or_iff_right hnul,
              or_iff_right hnext]
        · exact .of_refused (hturn.trans (if_neg hlow))
            (.inr (StringBody.unpaired_of_high hhigh (by simpa using hlow)))
    · by_cases hlow : item.isLow
      · exact .of_refused (readStringTurn_low hlow _) (.inr (StringBody.unpaired_of_low hlow))
      · by_cases hnul : item.code = some 0
        · exact .of_refused (readStringTurn_nul hnul _) (.inl (hasNul_cons.2 (.inl hnul)))
        · refine .of_turn (readStringTurn_item hhigh hlow hnul _) ?_ ?_ (StringBody.text_cons hhigh)
            (loopReads s)
          · rw [bytes_cons, length_append]
            omega
          · rw [hasNul_cons, StringBody.unpaired_cons_iff hhigh hlow, or_iff_right hnul]

end Body

/-! ## Spans -/

theorem stringLoop_inv {c : List UInt8} {r : List UInt8 × JsonNodeFlag × List UInt8}
    (h : stringLoop c = some r) : ∃ s : StringBody, r.1 = s.bytes ∧ c = s.bytes ++ 0x22 :: r.2.2 := by
  fun_induction stringLoop c generalizing r with
  | case2 =>
    obtain rfl := Option.some.inj h
    exact ⟨[], rfl, rfl⟩
  | case4 =>
    rename_i hhex _ ih
    obtain ⟨r', hr', rfl⟩ := Option.map_eq_some_iff.mp h
    obtain ⟨s, hs, hc⟩ := ih hr'
    simp only [Bool.and_eq_true] at hhex
    refine ⟨.unicode _ _ _ _ (by simpa [and_assoc] using hhex) :: s, ?_, ?_⟩
    · simp [bytes_cons, StringItem.bytes, hs]
    · simp [bytes_cons, StringItem.bytes, hc]
  | case7 =>
    rename_i hsimple _ ih
    obtain ⟨r', hr', rfl⟩ := Option.map_eq_some_iff.mp h
    obtain ⟨s, hs, hc⟩ := ih hr'
    refine ⟨.escape _ hsimple :: s, ?_, ?_⟩
    · simp [bytes_cons, StringItem.bytes, hs]
    · simp [bytes_cons, StringItem.bytes, hc]
  | case10 ch c hquote hslash hctl ih =>
    obtain ⟨r', hr', rfl⟩ := Option.map_eq_some_iff.mp h
    obtain ⟨s, hs, hc⟩ := ih hr'
    refine ⟨.plain ch (by simpa using hctl) hquote hslash :: s, ?_, ?_⟩
    · simp [bytes_cons, StringItem.bytes, hs]
    · simp [bytes_cons, StringItem.bytes, hc]
  | _ => cases h

theorem lexStringSpan_inv {c span rest : List UInt8} {flag : JsonNodeFlag}
    (h : lexStringSpan c = some (span, flag, rest)) :
    ∃ s : StringBody, span = s.bytes ∧ c = 0x22 :: (s.bytes ++ 0x22 :: rest) := by
  cases c with
  | nil => cases h
  | cons ch c =>
    rw [lexStringSpan] at h
    split_ifs at h with hquote
    obtain ⟨s, hs, hc⟩ := stringLoop_inv h
    exact ⟨s, hs, by rw [hquote, hc]⟩

theorem readString_bytes (s : StringBody) (flag : JsonNodeFlag) :
    (s.bytes = [] ∨ s.HasNul ∨ s.Unpaired →
      readString true ⟨.string, flag, s.bytes⟩ = .error .inval) ∧
      (¬ (s.bytes = [] ∨ s.HasNul ∨ s.Unpaired) →
        readString true ⟨.string, flag, s.bytes⟩ = .ok s.text) := by
  obtain ⟨hbad, hgood⟩ := loopReads s s.bytes.length [] le_rfl
  by_cases hnil : s.bytes = []
  · rw [readString, if_pos (.inr hnil)]
    exact ⟨fun _ => rfl, fun h => absurd (.inl hnil) h⟩
  · rw [readString, if_neg (by simpa using hnil), if_neg (by simp), or_iff_right hnil]
    dsimp only
    refine ⟨fun h => ?_, fun h => ?_⟩
    · rw [hbad h]
      rfl
    · rw [hgood h]
      rfl

/-- **`read_string` on a span of the lexer.** It refuses the empty text, code point zero and a
surrogate without its other half, and returns the text of every other string. At no point has it
written more than it has read: not before a turn, and not while a turn, which has moved on to `p'`,
writes its bytes. -/
theorem readString_lexed {c span rest : List UInt8} {flag : JsonNodeFlag}
    (h : lexStringSpan c = some (span, flag, rest)) : ∃ s : StringBody, span = s.bytes ∧
      (readString true ⟨.string, flag, span⟩ = .error .inval ↔ span = [] ∨ s.HasNul ∨ s.Unpaired) ∧
      (¬ (span = [] ∨ s.HasNul ∨ s.Unpaired) →
        readString true ⟨.string, flag, span⟩ = .ok s.text) ∧
      (span ≠ [] → readString false ⟨.string, flag, span⟩ = .error .oom) ∧
      ∀ dst p, ReadsTo span dst p → dst.length ≤ span.length - p.length ∧
        ∀ bytes p', readStringTurn p = some (bytes, p') →
          ∀ k, (dst ++ bytes.take k).length ≤ span.length - p'.length := by
  obtain ⟨s, rfl, -⟩ := lexStringSpan_inv h
  obtain ⟨hbad, hgood⟩ := readString_bytes s flag
  refine ⟨s, rfl, ⟨fun hread => ?_, hbad⟩, hgood, ?_, ?_⟩
  · by_contra hnot
    rw [hgood hnot] at hread
    cases hread
  · intro hne
    rw [readString, if_neg (by simpa using hne)]
    rfl
  · intro dst p hreads
    have hle := hreads.length_le
    refine ⟨by omega, fun bytes p' hturn k => ?_⟩
    have hle' := (hreads.turn hturn).length_le
    rw [length_append] at hle' ⊢
    have htake : (bytes.take k).length ≤ bytes.length := length_take_le' k bytes
    omega

/-- A pair of escapes is one character. -/
theorem readString_lexed_pair : ∃ s : StringBody,
    s.bytes = [0x5C, 0x75, 0x64, 0x38, 0x33, 0x64, 0x5C, 0x75, 0x64, 0x65, 0x30, 0x30] ∧
      s.text = [0xF0, 0x9F, 0x98, 0x80] := by
  have hread : readString true ⟨.string, .strEscaped,
      [0x5C, 0x75, 0x64, 0x38, 0x33, 0x64, 0x5C, 0x75, 0x64, 0x65, 0x30, 0x30]⟩ =
        .ok [0xF0, 0x9F, 0x98, 0x80] := by
    decide +kernel
  obtain ⟨s, hs, hbad, hgood, -⟩ := @readString_lexed
    [0x22, 0x5C, 0x75, 0x64, 0x38, 0x33, 0x64, 0x5C, 0x75, 0x64, 0x65, 0x30, 0x30, 0x22] _ _ _ rfl
  rw [hread] at hbad hgood
  refine ⟨s, hs.symm, (Except.ok.inj (hgood fun h => ?_)).symm⟩
  cases hbad.2 h

end Damacy

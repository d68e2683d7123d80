import Mathlib.Data.FinEnum
import Damacy.Lib.JsonText

/-!
# What a JSON string says

A string is a sequence of characters, some of them written as escapes. `StringBody.text` is the text
that it denotes, in UTF-8: an escape stands for its code point, and two `\u` escapes that form a
surrogate pair stand for one. A surrogate that is not part of a pair denotes nothing.
-/

open List

namespace JsonText

/-! ## Escapes -/

def escapeValue (b : UInt8) : UInt8 :=
  if b = 0x62 then 0x08
  else if b = 0x66 then 0x0C
  else if b = 0x6E then 0x0A
  else if b = 0x72 then 0x0D
  else if b = 0x74 then 0x09
  else b

def hexValue (b : UInt8) : ℕ :=
  if isDigit b then b.toNat - 0x30 else if 0x61 ≤ b then b.toNat - 0x61 + 10 else b.toNat - 0x41 + 10

def hexCode (a b c d : UInt8) : ℕ :=
  ((hexValue a * 16 + hexValue b) * 16 + hexValue c) * 16 + hexValue d

theorem hexValue_lt {b : UInt8} (h : isHexDigit b = true) : hexValue b < 16 := by
  revert b
  decide +kernel

theorem hexCode_lt {a b c d : UInt8} (h : ∀ x ∈ [a, b, c, d], isHexDigit x = true) :
    hexCode a b c d < 0x10000 := by
  simp only [forall_mem_cons, not_mem_nil, false_implies, implies_true, and_true] at h
  have ha := hexValue_lt h.1
  have hb := hexValue_lt h.2.1
  have hc := hexValue_lt h.2.2.1
  have hd := hexValue_lt h.2.2.2
  rw [hexCode]
  omega

/-! ## Surrogates -/

def isHighSurrogate (code : ℕ) : Bool := 0xD800 ≤ code && code ≤ 0xDBFF

def isLowSurrogate (code : ℕ) : Bool := 0xDC00 ≤ code && code ≤ 0xDFFF

def surrogatePair (high low : ℕ) : ℕ := 0x10000 + (high - 0xD800) * 0x400 + (low - 0xDC00)

def StringItem.code : StringItem → Option ℕ
  | unicode a b c d _ => some (hexCode a b c d)
  | _ => none

def StringItem.isHigh (item : StringItem) : Bool := item.code.any isHighSurrogate

def StringItem.isLow (item : StringItem) : Bool := item.code.any isLowSurrogate

@[simp] theorem StringItem.isHigh_unicode {a b c d : UInt8}
    (hex : ∀ x ∈ [a, b, c, d], isHexDigit x = true) :
    (unicode a b c d hex).isHigh = isHighSurrogate (hexCode a b c d) := rfl

@[simp] theorem StringItem.isLow_unicode {a b c d : UInt8}
    (hex : ∀ x ∈ [a, b, c, d], isHexDigit x = true) :
    (unicode a b c d hex).isLow = isLowSurrogate (hexCode a b c d) := rfl

namespace StringBody

/-- Some surrogate has not its other half right behind, or right before it. -/
def Unpaired (s : StringBody) : Prop :=
  ∃ before item after, s = before ++ item :: after ∧
    (item.isHigh ∧ ¬ after.head?.any StringItem.isLow ∨
      item.isLow ∧ ¬ before.getLast?.any StringItem.isHigh)

def HasNul (s : StringBody) : Prop := ∃ item ∈ s, item.code = some 0

section Unpaired

variable {item next : StringItem} {s : StringBody}

theorem high_low_false (h : item.isHigh) : ¬ item.isLow := by
  cases hcode : item.code with
  | none => simp [StringItem.isHigh, hcode] at h
  | some code =>
    simp only [StringItem.isHigh, StringItem.isLow, hcode, Option.any_some, isHighSurrogate,
      isLowSurrogate, Bool.and_eq_true, decide_eq_true_eq] at h ⊢
    omega

theorem not_unpaired_nil : ¬ Unpaired [] := by
  rintro ⟨before, item, after, h, -⟩
  exact append_ne_nil_of_right_ne_nil before (cons_ne_nil item after) h.symm

theorem unpaired_append_iff {before : StringBody} (hlast : ¬ before.getLast?.any StringItem.isHigh)
    (hfirst : ∀ a x b, before = a ++ x :: b → ¬ (x.isHigh ∧ ¬ (b ++ s).head?.any StringItem.isLow ∨
      x.isLow ∧ ¬ a.getLast?.any StringItem.isHigh)) : Unpaired (before ++ s) ↔ Unpaired s := by
  constructor
  · rintro ⟨a, x, b, heq, hx⟩
    rcases append_eq_append_iff.1 heq with ⟨a', rfl, hs⟩ | ⟨b', rfl, hb⟩
    · refine ⟨a', x, b, hs, hx.imp_right fun h => ⟨h.1, fun ha' => h.2 ?_⟩⟩
      cases a' with
      | nil => cases ha'
      | cons y a' => rwa [getLast?_append_of_ne_nil _ (cons_ne_nil y a')]
    · rcases b' with _ | ⟨y, b'⟩
      · rw [append_nil] at hlast
        refine ⟨[], x, b, hb.symm, hx.imp_right fun h => ⟨h.1, ?_⟩⟩
        simp
      · obtain ⟨rfl, rfl⟩ := List.cons.inj hb
        exact absurd hx (hfirst a x b' rfl)
  · rintro ⟨a, x, b, rfl, hx⟩
    refine ⟨before ++ a, x, b, (append_assoc ..).symm, hx.imp_right fun h => ⟨h.1, ?_⟩⟩
    rcases a with _ | ⟨y, a⟩
    · rwa [append_nil]
    · rw [getLast?_append_of_ne_nil _ (cons_ne_nil y a)]
      exact h.2

theorem unpaired_cons_iff (hhigh : ¬ item.isHigh) (hlow : ¬ item.isLow) :
    Unpaired (item :: s) ↔ Unpaired s := by
  refine @unpaired_append_iff s [item] (by simpa using hhigh) fun a x b h => ?_
  obtain ⟨rfl, rfl, rfl⟩ : a = [] ∧ x = item ∧ b = [] := by
    rcases a with _ | ⟨y, a⟩
    · obtain ⟨rfl, rfl⟩ := List.cons.inj h
      exact ⟨rfl, rfl, rfl⟩
    · exact absurd (List.cons.inj h).2.symm (by simp)
  simp [hhigh, hlow]

theorem unpaired_pair_iff (hhigh : item.isHigh) (hlow : next.isLow) :
    Unpaired (item :: next :: s) ↔ Unpaired s := by
  have hnext : ¬ next.isHigh := fun h => high_low_false h hlow
  have hitem := high_low_false hhigh
  refine @unpaired_append_iff s [item, next] (by simpa using hnext) fun a x b h => ?_
  rcases a with _ | ⟨y, _ | ⟨z, a⟩⟩
  · obtain ⟨rfl, rfl⟩ := List.cons.inj h
    simp [hitem, hlow]
  · obtain ⟨rfl, htail⟩ := List.cons.inj h
    obtain ⟨rfl, rfl⟩ := List.cons.inj htail
    simp [hnext, hhigh]
  · exact absurd (List.cons.inj (List.cons.inj h).2).2.symm (by simp)

theorem unpaired_of_high (hhigh : item.isHigh) (hnext : ¬ s.head?.any StringItem.isLow) :
    Unpaired (item :: s) :=
  ⟨[], item, s, rfl, .inl ⟨hhigh, hnext⟩⟩

theorem unpaired_of_low (hlow : item.isLow) : Unpaired (item :: s) :=
  ⟨[], item, s, rfl, .inr ⟨hlow, by simp⟩⟩

end Unpaired

end StringBody

/-! ## Texts -/

def utf8 (code : ℕ) : List UInt8 := String.utf8EncodeChar (Char.ofNat code)

/-- The text of a character on its own. -/
def StringItem.text : StringItem → List UInt8
  | plain b _ _ _ => [b]
  | escape b _ => utf8 (escapeValue b).toNat
  | unicode a b c d _ => utf8 (hexCode a b c d)

/-- The text of a string. -/
def StringBody.text : StringBody → List UInt8
  | [] => []
  | [item] => item.text
  | item :: next :: s =>
    if item.isHigh ∧ next.isLow then
      utf8 (surrogatePair (item.code.getD 0) (next.code.getD 0)) ++ StringBody.text s
    else item.text ++ StringBody.text (next :: s)

namespace StringBody

variable {item next : StringItem} {s : StringBody}

theorem text_pair (hhigh : item.isHigh) (hlow : next.isLow) : text (item :: next :: s) =
    utf8 (surrogatePair (item.code.getD 0) (next.code.getD 0)) ++ text s := by
  rw [text, if_pos ⟨hhigh, hlow⟩]

theorem text_cons (hhigh : ¬ item.isHigh) : text (item :: s) = item.text ++ text s := by
  cases s with
  | nil => simp [text]
  | cons next s => rw [text, if_neg fun h => hhigh h.1]

end StringBody

end JsonText

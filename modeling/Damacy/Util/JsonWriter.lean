import Damacy.Ngff.ReadString

/-!
# Writing strings (`util/json_writer.c`)

The writer appends to a string buffer and remembers whether an append has failed; `append` says
whether the buffer takes some bytes more. What `jw_string` writes is a string of the grammar, and the
reader of `ngff/metadata.c` gets the bytes back.
-/

open List JsonText

namespace Damacy

/-! ## The writer -/

/-- `struct json_writer` with the contents of its buffer. -/
structure JsonWriter where
  sb : List UInt8
  needsComma : Bool
  error : Bool
deriving DecidableEq

namespace JsonWriter

section Ops

variable (append : (sb text : List UInt8) → Bool)

/-- `jw_put`, with the bytes that the format gives. -/
def put (text : List UInt8) (jw : JsonWriter) : JsonWriter :=
  if jw.error then jw
  else if append jw.sb text then { jw with sb := jw.sb ++ text }
  else { jw with error := true }

/-- `jw_comma`. -/
def comma (jw : JsonWriter) : JsonWriter := if jw.needsComma then put append [0x2C] jw else jw

def lowerHex (n : ℕ) : UInt8 :=
  if n < 10 then UInt8.ofNat (0x30 + n) else UInt8.ofNat (0x61 + (n - 10))

/-- The text that `jw_put_escaped_string` puts for a byte. -/
def escaped (c : UInt8) : List UInt8 :=
  if c = 0x22 then [0x5C, 0x22]
  else if c = 0x5C then [0x5C, 0x5C]
  else if c = 0x0A then [0x5C, 0x6E]
  else if c = 0x0D then [0x5C, 0x72]
  else if c = 0x09 then [0x5C, 0x74]
  else if c < 0x20 then
    [0x5C, 0x75, 0x30, 0x30, lowerHex (c.toNat / 16), lowerHex (c.toNat % 16)]
  else [c]

/-- The loop of `jw_put_escaped_string`. -/
def putBytes : (s : CString) → JsonWriter → JsonWriter
  | [], jw => jw
  | c :: s, jw => if jw.error then jw else putBytes s (put append (escaped c) jw)

/-- `jw_put_escaped_string`. -/
def putEscapedString (s : CString) (jw : JsonWriter) : JsonWriter :=
  put append [0x22] (putBytes append s (put append [0x22] jw))

/-- `jw_string`. -/
def string (val : CString) (jw : JsonWriter) : JsonWriter :=
  { putEscapedString append val (comma append jw) with needsComma := true }

end Ops

/-! ## What is written -/

section Written

variable {append : (sb text : List UInt8) → Bool} {text : List UInt8} {s : CString} {jw : JsonWriter}

theorem put_error (h : (put append text jw).error = false) :
    jw.error = false ∧ (put append text jw).sb = jw.sb ++ text := by
  rw [put] at h ⊢
  split_ifs at h ⊢ with herror happend
  · exact absurd h (by simp [herror])
  · exact ⟨h, rfl⟩

theorem putBytes_error (h : (putBytes append s jw).error = false) :
    jw.error = false ∧ (putBytes append s jw).sb = jw.sb ++ s.flatMap escaped := by
  induction s generalizing jw with
  | nil => exact ⟨h, by simp [putBytes]⟩
  | cons c s ih =>
    rw [putBytes] at h ⊢
    split_ifs at h ⊢ with herror
    · exact absurd h (by simp [herror])
    · obtain ⟨hput, hsb⟩ := ih h
      obtain ⟨hjw, hput⟩ := put_error hput
      exact ⟨hjw, by rw [hsb, hput, append_assoc, flatMap_cons]⟩

theorem comma_error (h : (comma append jw).error = false) : jw.error = false ∧
    (comma append jw).sb = jw.sb ++ if jw.needsComma then [0x2C] else [] := by
  rw [comma] at h ⊢
  split_ifs at h ⊢
  · exact put_error h
  · exact ⟨h, by simp⟩

theorem string_error (h : (string append s jw).error = false) : (string append s jw).sb =
    jw.sb ++ (if jw.needsComma then [0x2C] else []) ++ (0x22 :: (s.flatMap escaped ++ [0x22])) := by
  obtain ⟨hclose, hsb⟩ := put_error (show (put append [0x22] _).error = false from h)
  obtain ⟨hbytes, hsb'⟩ := putBytes_error hclose
  obtain ⟨hopen, hsb''⟩ := put_error hbytes
  obtain ⟨-, hcomma⟩ := comma_error hopen
  show (put append [0x22] _).sb = _
  rw [hsb, hsb', hsb'', hcomma]
  simp only [append_assoc, cons_append, nil_append]

theorem string_error_of_append (happend : ∀ sb text, append sb text = true) (h : jw.error = false) :
    (string append s jw).error = false := by
  have hput {jw : JsonWriter} (text : List UInt8) (h : jw.error = false) :
      (put append text jw).error = false := by
    simp [put, h, happend]
  have hbytes {jw : JsonWriter} (h : jw.error = false) : (putBytes append s jw).error = false := by
    induction s generalizing jw with
    | nil => exact h
    | cons c s ih =>
      rw [putBytes, if_neg (by simp [h])]
      exact ih (hput _ h)
  have hcomma : (comma append jw).error = false := by
    rw [comma]
    split_ifs
    · exact hput _ h
    · exact h
  exact hput _ (hbytes (hput _ hcomma))

end Written

/-! ## Strings of the grammar -/

/-- A character that is neither a surrogate nor the escape of code point zero. -/
def Ordinary (item : StringItem) : Prop := ¬ item.isHigh ∧ ¬ item.isLow ∧ item.code ≠ some 0

theorem ordinary_of_code {item : StringItem} (h : item.code = none) : Ordinary item := by
  simp [Ordinary, StringItem.isHigh, StringItem.isLow, h]

theorem lowerHex_control {c : UInt8} (h : c < 0x20) :
    (isHexDigit (lowerHex (c.toNat / 16)) = true ∧ isHexDigit (lowerHex (c.toNat % 16)) = true) ∧
      hexCode 0x30 0x30 (lowerHex (c.toNat / 16)) (lowerHex (c.toNat % 16)) = c.toNat ∧
      utf8 c.toNat = [c] := by
  revert c
  decide +kernel

theorem exists_item {c : UInt8} (hc : c ≠ 0) :
    ∃ item : StringItem, item.bytes = escaped c ∧ item.text = [c] ∧ Ordinary item := by
  have hescape {b : UInt8} (hb : isSimpleEscape b = true) : Ordinary (.escape b hb) :=
    ordinary_of_code rfl
  rw [escaped]
  split_ifs with hquote hbackslash hn hr ht hctl
  · subst hquote
    exact ⟨.escape 0x22 rfl, rfl, by decide, hescape rfl⟩
  · subst hbackslash
    exact ⟨.escape 0x5C rfl, rfl, by decide, hescape rfl⟩
  · subst hn
    exact ⟨.escape 0x6E rfl, rfl, by decide, hescape rfl⟩
  · subst hr
    exact ⟨.escape 0x72 rfl, rfl, by decide, hescape rfl⟩
  · subst ht
    exact ⟨.escape 0x74 rfl, rfl, by decide, hescape rfl⟩
  · obtain ⟨⟨hhi, hlo⟩, hcode, htext⟩ := lowerHex_control hctl
    have hzero : isHexDigit 0x30 = true := rfl
    have hlt : c.toNat < 0x20 := hctl
    have hne : c.toNat ≠ 0 := fun h => hc (UInt8.toNat_inj.1 h)
    refine ⟨.unicode 0x30 0x30 _ _ (by simp [hhi, hlo, hzero]), rfl, ?_, ?_, ?_, ?_⟩
    · rw [StringItem.text, hcode, htext]
    · rw [StringItem.isHigh_unicode, hcode]
      simp only [isHighSurrogate, Bool.and_eq_true, decide_eq_true_eq]
      omega
    · rw [StringItem.isLow_unicode, hcode]
      simp only [isLowSurrogate, Bool.and_eq_true, decide_eq_true_eq]
      omega
    · rw [StringItem.code, hcode]
      exact fun h => hne (Option.some.inj h)
  · exact ⟨.plain c (by simpa using hctl) hquote hbackslash, rfl, rfl, ordinary_of_code rfl⟩

theorem exists_body {s : CString} (hs : 0 ∉ s) : ∃ body : StringBody,
    body.bytes = s.flatMap escaped ∧ body.text = s ∧ ∀ item ∈ body, Ordinary item := by
  induction s with
  | nil => exact ⟨[], rfl, rfl, nofun⟩
  | cons c s ih =>
    rw [mem_cons, not_or] at hs
    obtain ⟨item, hbytes, htext, hitem⟩ := exists_item (Ne.symm hs.1)
    obtain ⟨body, hbytes', htext', hbody⟩ := ih hs.2
    refine ⟨item :: body, ?_, ?_, forall_mem_cons.2 ⟨hitem, hbody⟩⟩
    · rw [bytes_cons, hbytes, hbytes', flatMap_cons]
    · rw [StringBody.text_cons hitem.1, htext, htext']
      rfl

/-- **What `jw_string` writes reads back.** The text it writes for a string, after a comma where one
is needed, is lexed as one string to its end, and `read_string` returns the bytes of the string. -/
theorem string_readString {s : CString} (hne : s ≠ []) (hs : 0 ∉ s) : ∃ text span flag,
    lexStringSpan text = some (span, flag, []) ∧
      readString true ⟨.string, flag, span⟩ = .ok s ∧
      ∀ append jw, ((string append s jw).error = false → (string append s jw).sb =
          jw.sb ++ (if jw.needsComma then [0x2C] else []) ++ text) ∧
        ((∀ sb text, append sb text = true) → jw.error = false →
          (string append s jw).error = false) := by
  obtain ⟨body, hbytes, htext, hbody⟩ := exists_body hs
  refine ⟨_, body.bytes, _, lexStringSpan_bytes body [], ?_, fun append jw =>
    ⟨fun h => ?_, string_error_of_append⟩⟩
  · have hgood : ¬ (body.bytes = [] ∨ body.HasNul ∨ body.Unpaired) := by
      rintro (hnil | ⟨item, hitem, hnul⟩ | ⟨before, item, after, rfl, hitem⟩)
      · -- a string without bytes has no text either
        rcases body with _ | ⟨item, body⟩
        · exact hne htext.symm
        · exact bytes_ne_nil item _ hnil
      · exact (hbody item hitem).2.2 hnul
      · obtain ⟨hhigh, hlow, -⟩ := hbody item (by simp)
        exact hitem.elim (fun h => hhigh h.1) fun h => hlow h.1
    rw [(readString_bytes body _).2 hgood, htext]
  · rw [string_error h, hbytes]

/-- A line feed and a byte outside of ASCII. -/
theorem string_readString_feed : ∃ text span flag,
    lexStringSpan text = some (span, flag, []) ∧
      readString true ⟨.string, flag, span⟩ = .ok [0x0A, 0xFF] ∧
      (string (fun _ _ => true) [0x0A, 0xFF] ⟨[], true, false⟩).sb = 0x2C :: text := by
  obtain ⟨text, span, flag, hlex, hread, hwrite⟩ :=
    @string_readString [0x0A, 0xFF] (by decide) (by decide)
  obtain ⟨hsb, herror⟩ := hwrite (fun _ _ => true) ⟨[], true, false⟩
  exact ⟨text, span, flag, hlex, hread, hsb (herror (fun _ _ => rfl) rfl)⟩

end JsonWriter

end Damacy

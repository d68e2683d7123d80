import Damacy.Util.JsonNumber

/-!
# Strings read as documents

The span of a string node is what stands between its quotes, and `where_holds` resolves its
sub-query on the span of the current node, so for a string that text is read as a document. A quote
in it is part of an escape and what follows it has no closing quote, so neither a string nor a member
of an object is ever found: the lexer can only read keywords, numbers and containers without a quote
(`Lexeme`), and only indices lead on from there (`TextLeads`). Both are stated on the text alone.
-/

open List JsonText

namespace Damacy

/-! ## What can be read -/

/-- The text closes so many open brackets of a kind, the last of them with its last byte, and holds
no quote. -/
structure Closing (o cl : UInt8) (depth : ℕ) (x : List UInt8) : Prop where
  quoteless : 0x22 ∉ x
  closed : x.count cl = depth + x.count o
  open_before : ∀ y, y <+: x → y ≠ x → y.count cl < depth + y.count o

/-- The texts without a string that are read as one value: a keyword, whatever follows it; a number
that nothing behind it goes on with; and what stands between brackets of one kind. -/
inductive Lexeme : (type : JsonType) → (x rest : List UInt8) → Prop
  | null (rest : List UInt8) : Lexeme .null kwNull rest
  | bool (b : Bool) (rest : List UInt8) : Lexeme .bool (if b then kwTrue else kwFalse) rest
  | number (n : Number) {rest : List UInt8} (ends : n.EndsAt rest) : Lexeme .number n.bytes rest
  | array {y : List UInt8} (closing : Closing 0x5B 0x5D 1 y) (rest : List UInt8) :
      Lexeme .array (0x5B :: y) rest
  | object {y : List UInt8} (closing : Closing 0x7B 0x7D 1 y) (rest : List UInt8) :
      Lexeme .object (0x7B :: y) rest

/-- The element of an index, in the text behind the bracket of an array. -/
inductive ElementAt : (index : ℕ) → (c : List UInt8) → (type : JsonType) → (x : List UInt8) → Prop
  | head (w : Ws) {type : JsonType} {x rest : List UInt8} (read : Lexeme type x rest) :
      ElementAt 0 (w.bytes ++ (x ++ rest)) type x
  | tail (w w' : Ws) {index : ℕ} {type' type : JsonType} {y x c : List UInt8}
      (passed : Lexeme type' y (w'.bytes ++ 0x2C :: c)) (next : ElementAt index c type x) :
      ElementAt (index + 1) (w.bytes ++ (y ++ (w'.bytes ++ 0x2C :: c))) type x

def LeadsFrom : (path : List ℕ) → (type : JsonType) → (x : List UInt8) → (type' : JsonType) →
    (x' : List UInt8) → Prop
  | [], type, x, type', x' => type = type' ∧ x = x'
  | index :: path, type, x, type', x' => type = .array ∧
      ∃ c, x = 0x5B :: c ∧ ∃ u y, ElementAt index c u y ∧ LeadsFrom path u y type' x'

def TextLeads (path : List ℕ) (text : List UInt8) (type : JsonType) (x : List UInt8) : Prop :=
  ∃ (w : Ws) (u : JsonType) (y rest : List UInt8),
    text = w.bytes ++ (y ++ rest) ∧ Lexeme u y rest ∧ LeadsFrom path u y type x

theorem Lexeme.type_ne_string {type : JsonType} {x rest : List UInt8} (h : Lexeme type x rest) :
    type ≠ .string := by
  cases h <;> decide

theorem Lexeme.quoteless {type : JsonType} {x rest : List UInt8} (h : Lexeme type x rest)
    (htype : type = .array ∨ type = .object) : 0x22 ∉ x := by
  cases h with
  | null rest | bool b rest | number n ends => simp at htype
  | array closing rest | object closing rest =>
    rw [mem_cons, not_or]
    exact ⟨by decide, closing.quoteless⟩

theorem Lexeme.array_text {x rest : List UInt8} (h : Lexeme .array x rest) :
    ∃ y, x = 0x5B :: y ∧ 0x22 ∉ y := by
  cases h with
  | array closing rest => exact ⟨_, rfl, closing.quoteless⟩

theorem Lexeme.skipWs {type : JsonType} {x rest : List UInt8} (h : Lexeme type x rest) (w : Ws) :
    skipWs (w.bytes ++ (x ++ rest)) = x ++ rest := by
  have hhead : ∃ b y, x = b :: y ∧ isWs b = false := by
    cases h with
    | null rest => exact ⟨_, _, rfl, rfl⟩
    | bool b rest => cases b <;> exact ⟨_, _, rfl, rfl⟩
    | number n ends =>
      obtain ⟨b, y, hbytes, rfl | hb⟩ := number_head n
      · exact ⟨_, _, hbytes, rfl⟩
      · refine ⟨_, _, hbytes, Bool.eq_false_iff.2 fun hws => ?_⟩
        rw [isWs] at hws
        simp only [Bool.or_eq_true, beq_iff_eq] at hws
        rcases hws with ((rfl | rfl) | rfl) | rfl <;> exact absurd hb (by decide)
    | array closing rest => exact ⟨_, _, rfl, rfl⟩
    | object closing rest => exact ⟨_, _, rfl, rfl⟩
  obtain ⟨b, y, rfl, hb⟩ := hhead
  rw [skipWs_ws, cons_append, skipWs_cons hb]

theorem exists_ws (c : List UInt8) : ∃ w : Ws, c = w.bytes ++ skipWs c :=
  ⟨⟨c.takeWhile isWs, fun _ hb => mem_takeWhile_imp hb⟩, takeWhile_append_dropWhile.symm⟩

/-! ## Quotes in a string -/

def QuoteSafe (c : List UInt8) : Prop :=
  ∀ a b : List UInt8, c = a ++ 0x22 :: b → ∃ s : StringBody, b = s.bytes

theorem QuoteSafe.cons {x : UInt8} {c : List UInt8} (hx : x ≠ 0x22) (h : QuoteSafe c) :
    QuoteSafe (x :: c) := by
  rintro (_ | ⟨y, a⟩) b heq
  · exact absurd (List.cons.inj heq).1 hx
  · exact h a b (List.cons.inj heq).2

theorem QuoteSafe.suffix {a c : List UInt8} (h : QuoteSafe (a ++ c)) : QuoteSafe c := by
  rintro a' b rfl
  exact h (a ++ a') b (by simp)

theorem quoteSafe_of_notMem {c : List UInt8} (h : 0x22 ∉ c) : QuoteSafe c := by
  rintro a b rfl
  exact absurd (by simp) h

theorem quoteSafe_body (s : StringBody) : QuoteSafe s.bytes := by
  induction s with
  | nil =>
    intro a b heq
    exact absurd heq (by simp [StringBody.bytes])
  | cons item s ih =>
    have hbytes : StringBody.bytes (item :: s) = item.bytes ++ StringBody.bytes s := rfl
    rw [hbytes]
    cases item with
    | plain b ge ne_quote ne_backslash => exact ih.cons ne_quote
    | escape b simple =>
      refine QuoteSafe.cons (by decide) ?_
      rintro (_ | ⟨y, a⟩) t heq
      · exact ⟨s, (List.cons.inj heq).2.symm⟩
      · exact ih a t (List.cons.inj heq).2
    | unicode a b c d hex =>
      have hhex : ∀ x ∈ [a, b, c, d], x ≠ 0x22 := by
        rintro x hx rfl
        exact absurd (hex _ hx) (by decide)
      simp only [forall_mem_cons] at hhex
      obtain ⟨ha, hb, hc, hd, -⟩ := hhex
      exact QuoteSafe.cons (by decide) (QuoteSafe.cons (by decide)
        ((((ih.cons hd).cons hc).cons hb).cons ha))

theorem stringLoop_body (s : StringBody) : stringLoop s.bytes = none := by
  rw [← append_nil s.bytes, stringLoop_append]
  rfl

theorem lexStringSpan_quoteSafe {c : List UInt8} (h : QuoteSafe c) : lexStringSpan c = none := by
  cases c with
  | nil => rfl
  | cons ch c =>
    rw [lexStringSpan]
    split
    · rename_i hch
      obtain ⟨s, rfl⟩ := h [] c (by rw [hch]; rfl)
      exact stringLoop_body s
    · rfl

/-! ## The lexer on such texts -/

section Closing

variable {o cl b : UInt8} {d : ℕ} {c y rest : List UInt8}

theorem closing_nil (hd : 0 < d) : ¬ Closing o cl d [] := fun h => by
  have := h.closed
  simp only [count_nil] at this
  omega

theorem closing_cons (hne : o ≠ cl) (hd : 0 < d) (hb : b ≠ 0x22) : Closing o cl d (b :: y) ↔
    if b = o then Closing o cl (d + 1) y
    else if b = cl then if d - 1 = 0 then y = [] else Closing o cl (d - 1) y
    else Closing o cl d y := by
  have hquote : 0x22 ∉ b :: y ↔ 0x22 ∉ y := by simp [hb.symm]
  have hprefix : (∀ z, z <+: b :: y → z ≠ b :: y → z.count cl < d + z.count o) ↔
      ∀ z, z <+: y → z ≠ y → (b :: z).count cl < d + (b :: z).count o := by
    constructor
    · intro h z hz hzy
      exact h (b :: z) ((prefix_cons_inj b).2 hz) fun heq => hzy (List.cons.inj heq).2
    · rintro h (_ | ⟨b', z⟩) hz hzy
      · simpa using hd
      · obtain ⟨rfl, hzs⟩ := cons_prefix_cons.1 hz
        exact h z hzs fun heq => hzy (by rw [heq])
  have hiff : ∀ k, Closing o cl k y ↔ 0x22 ∉ y ∧ y.count cl = k + y.count o ∧
      ∀ z, z <+: y → z ≠ y → z.count cl < k + z.count o :=
    fun k => ⟨fun h => ⟨h.1, h.2, h.3⟩, fun h => ⟨h.1, h.2.1, h.2.2⟩⟩
  have hleft : Closing o cl d (b :: y) ↔ 0x22 ∉ y ∧ (b :: y).count cl = d + (b :: y).count o ∧
      ∀ z, z <+: y → z ≠ y → (b :: z).count cl < d + (b :: z).count o := by
    rw [← hquote, ← hprefix]
    exact ⟨fun h => ⟨h.1, h.2, h.3⟩, fun h => ⟨h.1, h.2.1, h.2.2⟩⟩
  rw [hleft]
  by_cases ho : b = o
  · subst ho
    have hcount : ∀ z : List UInt8, (b :: z).count cl = z.count cl ∧
        d + (b :: z).count b = d + 1 + z.count b := fun z =>
      ⟨count_cons_of_ne hne, by rw [count_cons_self]; omega⟩
    rw [if_pos rfl, hiff]
    simp only [hcount]
  · rw [if_neg ho]
    by_cases hcl : b = cl
    · subst hcl
      have hcount : ∀ z : List UInt8, (b :: z).count b = z.count b + 1 ∧
          (b :: z).count o = z.count o := fun z =>
        ⟨count_cons_self, count_cons_of_ne hne.symm⟩
      rw [if_pos rfl]
      simp only [hcount]
      split
      · rename_i hlast
        constructor
        · rintro ⟨-, -, hopen⟩
          by_contra hy
          have := hopen [] nil_prefix (Ne.symm hy)
          simp only [count_nil] at this
          omega
        · rintro rfl
          exact ⟨not_mem_nil, by simp only [count_nil]; omega, fun z hz hzy =>
            absurd (prefix_nil.1 hz) hzy⟩
      · rw [hiff]
        have hle : ∀ k m : ℕ, k + 1 = d + m ↔ k = d - 1 + m := fun k m => by omega
        have hlt : ∀ k m : ℕ, k + 1 < d + m ↔ k < d - 1 + m := fun k m => by omega
        simp only [hle, hlt]
    · rw [if_neg hcl, hiff]
      have hcount : ∀ z : List UInt8, (b :: z).count cl = z.count cl ∧
          (b :: z).count o = z.count o := fun z =>
        ⟨count_cons_of_ne hcl, count_cons_of_ne ho⟩
      simp only [hcount]

theorem skip_iff_closing (hne : o ≠ cl) (hsafe : QuoteSafe c) (hd : 0 < d) :
    skip o cl d c = some rest ↔ ∃ y, c = y ++ rest ∧ Closing o cl d y := by
  induction c generalizing d with
  | nil =>
    constructor
    · intro h
      cases h
    · rintro ⟨y, hy, hclosing⟩
      rw [(append_eq_nil_iff.1 hy.symm).1] at hclosing
      exact absurd hclosing (closing_nil hd)
  | cons b c ih =>
    have hcons : (∃ y, b :: c = y ++ rest ∧ Closing o cl d y) ↔
        ∃ y, c = y ++ rest ∧ Closing o cl d (b :: y) := by
      constructor
      · rintro ⟨_ | ⟨b', y⟩, hy, hclosing⟩
        · exact absurd hclosing (closing_nil hd)
        · obtain ⟨rfl, rfl⟩ := List.cons.inj hy
          exact ⟨y, rfl, hclosing⟩
      · rintro ⟨y, rfl, hclosing⟩
        exact ⟨b :: y, rfl, hclosing⟩
    have ih : ∀ k, 0 < k → (skip o cl k c = some rest ↔ ∃ y, c = y ++ rest ∧ Closing o cl k y) :=
      fun k hk => ih (QuoteSafe.suffix (a := [b]) hsafe) hk
    rw [hcons]
    by_cases hb : b = 0x22
    · subst hb
      rw [skip, length_cons, skipLoop, if_pos rfl, lexStringSpan_quoteSafe hsafe]
      constructor
      · intro h
        cases h
      · rintro ⟨y, -, hclosing⟩
        exact absurd mem_cons_self hclosing.quoteless
    · simp only [skip_cons hb, closing_cons hne hd hb]
      split
      · exact ih _ (Nat.succ_pos d)
      · split
        · split
          · simp
          · exact ih _ (by omega)
        · exact ih _ hd

theorem lexContainer_iff_closing (ho : o ≠ 0x22) (hne : o ≠ cl) (hsafe : QuoteSafe c)
    (type : JsonType) (n : JsonNode) : lexContainer type cl (o :: c) = .ok (n, rest) ↔
      ∃ y, c = y ++ rest ∧ Closing o cl 1 y ∧ n = ⟨type, .none, o :: y⟩ := by
  have hskip : skipContainer cl (o :: c) = skip o cl 1 c := by
    show skip o cl 0 (o :: c) = _
    rw [skip_cons ho, if_pos rfl]
  rw [lexContainer, hskip]
  constructor
  · intro h
    split at h
    · cases h
    · rename_i r hr
      obtain ⟨rfl, rfl⟩ := Prod.mk.inj (Except.ok.inj h)
      obtain ⟨y, rfl, hclosing⟩ := (skip_iff_closing hne hsafe Nat.one_pos).1 hr
      refine ⟨y, rfl, hclosing, ?_⟩
      rw [← cons_append, take_append_sub]
  · rintro ⟨y, rfl, hclosing, rfl⟩
    rw [(skip_iff_closing hne hsafe Nat.one_pos).2 ⟨y, rfl, hclosing⟩]
    dsimp only
    rw [← cons_append, take_append_sub]

end Closing

theorem lexLiteral_iff (type : JsonType) (kw c rest : List UInt8) (n : JsonNode) :
    lexLiteral type kw c = .ok (n, rest) ↔ c = kw ++ rest ∧ n = ⟨type, .none, kw⟩ := by
  rw [lexLiteral, lexKeyword]
  constructor
  · intro h
    split at h
    · cases h
    · rename_i r hr
      obtain ⟨rfl, rfl⟩ := Prod.mk.inj (Except.ok.inj h)
      split at hr
      · rename_i hprefix
        obtain ⟨t, rfl⟩ := isPrefixOf_iff_prefix.1 hprefix
        rw [drop_left, Option.some.injEq] at hr
        exact ⟨by rw [hr], rfl⟩
      · cases hr
  · rintro ⟨rfl, rfl⟩
    rw [if_pos ( isPrefixOf_iff_prefix.2 (prefix_append kw rest)), drop_left]

theorem lexValue_lexeme {c rest : List UInt8} {n : JsonNode} (hsafe : QuoteSafe c)
    (h : lexValue c = .ok (n, rest)) : c = n.s ++ rest ∧ Lexeme n.type n.s rest := by
  cases c with
  | nil => cases h
  | cons ch c =>
    have htail : QuoteSafe c := QuoteSafe.suffix (a := [ch]) hsafe
    rw [lexValue] at h
    split_ifs at h with hobject harray hquote htrue hfalse hnull hnumber
    · subst hobject
      obtain ⟨y, rfl, hclosing, rfl⟩ :=
        (lexContainer_iff_closing (by decide) (by decide) htail _ _).1 h
      exact ⟨rfl, .object hclosing rest⟩
    · subst harray
      obtain ⟨y, rfl, hclosing, rfl⟩ :=
        (lexContainer_iff_closing (by decide) (by decide) htail _ _).1 h
      exact ⟨rfl, .array hclosing rest⟩
    · rw [lexStringSpan_quoteSafe hsafe] at h
      cases h
    · obtain ⟨hc, rfl⟩ := (lexLiteral_iff _ _ _ _ _).1 h
      exact ⟨hc, .bool true rest⟩
    · obtain ⟨hc, rfl⟩ := (lexLiteral_iff _ _ _ _ _).1 h
      exact ⟨hc, .bool false rest⟩
    · obtain ⟨hc, rfl⟩ := (lexLiteral_iff _ _ _ _ _).1 h
      exact ⟨hc, .null rest⟩
    · obtain ⟨htype, hspan⟩ := lexSpan_eq_ok h
      obtain ⟨m, hbytes, -, hc, hends⟩ := lexNumberSpan_number hspan
      refine ⟨hc, ?_⟩
      rw [htype, ← hbytes]
      exact .number m hends

theorem Lexeme.lexValue {type : JsonType} {x rest : List UInt8} (h : Lexeme type x rest)
    (hsafe : QuoteSafe (x ++ rest)) :
    ∃ flag, lexValue (x ++ rest) = .ok (⟨type, flag, x⟩, rest) := by
  cases h with
  | null rest => exact ⟨_, rfl⟩
  | bool b rest => cases b <;> exact ⟨_, rfl⟩
  | number n ends => exact ⟨_, lexValue_number_append n ends⟩
  | @array y closing rest =>
    exact ⟨.none, (lexContainer_iff_closing (by decide) (by decide)
      (QuoteSafe.suffix (a := [0x5B]) hsafe) .array _).2 ⟨y, rfl, closing, rfl⟩⟩
  | @object y closing rest =>
    exact ⟨.none, (lexContainer_iff_closing (by decide) (by decide)
      (QuoteSafe.suffix (a := [0x7B]) hsafe) .object _).2 ⟨y, rfl, closing, rfl⟩⟩

/-! ## Steps -/

theorem ElementAt.lexeme {index : ℕ} {c x : List UInt8} {type : JsonType}
    (h : ElementAt index c type x) : ∃ rest, Lexeme type x rest := by
  induction h with
  | head w read => exact ⟨_, read⟩
  | tail w w' passed next ih => exact ih

theorem arrayLoop_elementAt (index : ℕ) : ∀ {c : List UInt8} {n : JsonNode}, 0x22 ∉ c →
    arrayLoop index c = .ok n → ElementAt index c n.type n.s := by
  induction index with
  | zero =>
    intro c n hc h
    rw [arrayLoop.eq_def] at h
    dsimp only at h
    split at h
    · cases h
    · rename_i value rest hlex
      obtain rfl := Except.ok.inj h
      obtain ⟨w, hw⟩ := exists_ws c
      rw [hw] at hc
      obtain ⟨hread, hlexeme⟩ := lexValue_lexeme (quoteSafe_of_notMem fun hmem =>
        hc (mem_append_right _ hmem)) hlex
      rw [hw, hread]
      exact .head w hlexeme
  | succ index ih =>
    intro c n hc h
    rw [arrayLoop.eq_def] at h
    dsimp only at h
    split at h
    · cases h
    · rename_i value rest hlex
      obtain ⟨w, hw⟩ := exists_ws c
      rw [hw] at hc
      obtain ⟨hread, hlexeme⟩ := lexValue_lexeme (quoteSafe_of_notMem fun hmem =>
        hc (mem_append_right _ hmem)) hlex
      obtain ⟨w', hw'⟩ := exists_ws rest
      split at h
      · cases h
      · rename_i ch c' hc'
        split_ifs at h with hcomma
        · subst hcomma
          rw [hc'] at hw'
          subst hw'
          rw [hw, hread]
          refine .tail w w' hlexeme (ih (fun hmem => hc ?_) h)
          rw [hread]
          simp [hmem]

theorem ElementAt.arrayLoop {index : ℕ} {c x : List UInt8} {type : JsonType}
    (h : ElementAt index c type x) (hc : 0x22 ∉ c) :
    ∃ flag, arrayLoop index c = .ok ⟨type, flag, x⟩ := by
  induction h with
  | head w read =>
    obtain ⟨flag, hlex⟩ := read.lexValue (quoteSafe_of_notMem fun hmem =>
      hc (mem_append_right _ hmem))
    refine ⟨flag, ?_⟩
    rw [arrayLoop.eq_def]
    dsimp only
    rw [read.skipWs, hlex]
  | @tail w w' index type' type y x c passed next ih =>
    obtain ⟨flag', hlex⟩ := passed.lexValue (quoteSafe_of_notMem fun hmem =>
      hc (mem_append_right _ hmem))
    obtain ⟨flag, hloop⟩ := ih fun hmem => hc (by simp [hmem])
    refine ⟨flag, ?_⟩
    rw [arrayLoop.eq_def]
    dsimp only
    rw [passed.skipWs, hlex]
    dsimp only
    rw [skipWs_ws, skipWs_cons rfl]
    exact hloop

theorem arrayLoop_closed {c : List UInt8} (h : (skipWs c).head? = some 0x5D) (index : ℕ) :
    arrayLoop index c = .error .parse := by
  rw [arrayLoop.eq_def]
  dsimp only
  cases hc : skipWs c with
  | nil => rfl
  | cons b t =>
    rw [hc] at h
    obtain rfl := Option.some.inj h
    rfl

theorem arrayStep_iff {n : JsonNode} {rest : List UInt8} (hn : Lexeme n.type n.s rest) (index : ℕ)
    (type : JsonType) (x : List UInt8) :
    (∃ flag, arrayStep n index = .ok ⟨type, flag, x⟩) ↔
      n.type = .array ∧ ∃ c, n.s = 0x5B :: c ∧ ElementAt index c type x := by
  rw [arrayStep]
  by_cases htype : n.type = .array
  · rw [htype] at hn
    obtain ⟨y, hs, hquote⟩ := hn.array_text
    rw [if_neg (not_not_intro htype), hs]
    dsimp only
    rw [if_neg (not_not_intro rfl)]
    have hloop : (∃ flag, arrayLoop index y = .ok ⟨type, flag, x⟩) ↔ ElementAt index y type x :=
      ⟨fun ⟨_, h⟩ => arrayLoop_elementAt index hquote h, fun h => h.arrayLoop hquote⟩
    have hright : (n.type = .array ∧ ∃ c, 0x5B :: y = 0x5B :: c ∧ ElementAt index c type x) ↔
        ElementAt index y type x := by
      simp [htype]
    rw [hright, ← hloop]
    split
    · rename_i hclosed
      simp [arrayLoop_closed hclosed]
    · rfl
  · simp [htype]

theorem objectStep_error {n : JsonNode} {rest : List UInt8} (hn : Lexeme n.type n.s rest)
    (key : List UInt8) (m : JsonNode) : objectStep n key ≠ .ok m := by
  intro h
  rw [objectStep] at h
  split at h
  · cases h
  · rename_i htype
    have hspan := hn.quoteless (.inr (Classical.not_not.1 htype))
    cases hs : n.s with
    | nil =>
      rw [hs] at h
      cases h
    | cons ch c =>
      rw [hs] at h hspan
      dsimp only at h
      split_ifs at h
      have hc : 0x22 ∉ skipWs c := fun hmem =>
        hspan (mem_cons_of_mem _ ((dropWhile_sublist _).subset hmem))
      cases hlen : c.length with
      | zero =>
        rw [hlen] at h
        cases h
      | succ fuel =>
        rw [hlen, objectLoop, lexStringSpan_quoteSafe (quoteSafe_of_notMem hc)] at h
        cases h

/-! ## Paths -/

/-- A `QUERY_KEY` or `QUERY_INDEX` part. -/
def JsonQuery.isStep : JsonQuery → Bool
  | .key _ => true
  | .index _ => true
  | _ => false

theorem applyFrom_steps_frames {sub : List JsonQuery} (hsub : ∀ q ∈ sub, q.isStep = true) :
    ∀ (i : ℕ) (n : JsonNode), (applyFrom (JsonQuery.parts sub) i n []).2 = [] := by
  induction sub with
  | nil => exact fun _ _ => rfl
  | cons q sub ih =>
    intro i n
    rw [forall_mem_cons] at hsub
    cases q with
    | key k =>
      rw [JsonQuery.parts, JsonQuery.part, applyFrom]
      split
      · rfl
      · exact ih hsub.2 _ _
    | index k =>
      rw [JsonQuery.parts, JsonQuery.part, applyFrom]
      split
      · rfl
      · exact ih hsub.2 _ _
    | iter => cases hsub.1
    | whereEq part rhs rhsType => cases hsub.1

theorem applyFrom_iff {sub : List JsonQuery} (hsub : ∀ q ∈ sub, q.isStep = true) (type : JsonType)
    (x : List UInt8) : ∀ {i : ℕ} {n : JsonNode} {rest : List UInt8}, Lexeme n.type n.s rest →
      ((∃ flag, (applyFrom (JsonQuery.parts sub) i n []).1 = .ok ⟨type, flag, x⟩) ↔
        ∃ path : List ℕ, sub = path.map JsonQuery.index ∧ LeadsFrom path n.type n.s type x) := by
  induction sub with
  | nil =>
    intro i n rest hn
    constructor
    · rintro ⟨flag, h⟩
      obtain rfl := Except.ok.inj h
      exact ⟨[], rfl, rfl, rfl⟩
    · rintro ⟨path, hpath, hleads⟩
      obtain rfl := map_eq_nil_iff.1 hpath.symm
      obtain ⟨htype, hx⟩ := hleads
      exact ⟨n.flag, by rw [← htype, ← hx]; rfl⟩
  | cons q sub ih =>
    intro i n rest hn
    rw [forall_mem_cons] at hsub
    cases q with
    | key k =>
      rw [JsonQuery.parts, JsonQuery.part, applyFrom]
      constructor
      · rintro ⟨flag, h⟩
        split at h
        · cases h
        · rename_i m hm
          exact absurd hm (objectStep_error hn k m)
      · rintro ⟨_ | ⟨index, path⟩, hpath, -⟩ <;> cases hpath
    | index k =>
      rw [JsonQuery.parts, JsonQuery.part, applyFrom]
      constructor
      · rintro ⟨flag, h⟩
        split at h
        · cases h
        · rename_i m hm
          obtain ⟨htype, c, hs, helem⟩ := (arrayStep_iff hn k m.type m.s).1 ⟨m.flag, hm⟩
          obtain ⟨rest', hm'⟩ := helem.lexeme
          obtain ⟨path, rfl, hleads⟩ := (ih hsub.2 hm').1 ⟨flag, h⟩
          exact ⟨k :: path, rfl, htype, c, hs, _, _, helem, hleads⟩
      · rintro ⟨_ | ⟨index, path⟩, hpath, hleads⟩
        · cases hpath
        · obtain ⟨hindex, rfl⟩ := List.cons.inj hpath
          obtain rfl := JsonQuery.index.inj hindex
          obtain ⟨htype, c, hs, u, y, helem, hleads⟩ := hleads
          obtain ⟨flag, hm⟩ := (arrayStep_iff hn k u y).2 ⟨htype, c, hs, helem⟩
          obtain ⟨rest', hm'⟩ := helem.lexeme
          rw [hm]
          exact (ih hsub.2 (n := ⟨u, flag, y⟩) hm').2 ⟨path, rfl, hleads⟩
    | iter => cases hsub.1
    | whereEq part rhs rhsType => cases hsub.1

theorem resolveParts_steps {sub : List JsonQuery} (hsub : ∀ q ∈ sub, q.isStep = true)
    (src : List UInt8) : resolveParts src (JsonQuery.parts sub) =
      match lexValue (skipWs src) with
      | .error e => .error e
      | .ok (root, _) => (applyFrom (JsonQuery.parts sub) 0 root []).1 := by
  rw [resolveParts]
  cases lexValue (skipWs src) with
  | error e => rfl
  | ok r =>
    have hframes := applyFrom_steps_frames hsub 0 r.1
    dsimp only
    rw [firstResult]
    split
    · rename_i hr
      rw [hr] at hframes
      cases hframes
    · rfl

/-- **A path in the text of a string.** What a sub-query finds when the text between the quotes is
read as a document. -/
theorem resolveParts_body_iff (s : StringBody) {sub : List JsonQuery}
    (hsub : ∀ q ∈ sub, q.isStep = true) (type : JsonType) (x : List UInt8) :
    (∃ flag, resolveParts s.bytes (JsonQuery.parts sub) = .ok ⟨type, flag, x⟩) ↔
      ∃ path : List ℕ, sub = path.map JsonQuery.index ∧ TextLeads path s.bytes type x := by
  obtain ⟨w, hw⟩ := exists_ws s.bytes
  have hsafe : QuoteSafe (skipWs s.bytes) := QuoteSafe.suffix (hw ▸ quoteSafe_body s)
  rw [resolveParts_steps hsub]
  constructor
  · rintro ⟨flag, h⟩
    split at h
    · cases h
    · rename_i root rest hlex
      obtain ⟨hread, hroot⟩ := lexValue_lexeme hsafe hlex
      obtain ⟨path, hpath, hleads⟩ := (applyFrom_iff hsub type x hroot).1 ⟨flag, h⟩
      exact ⟨path, hpath, w, _, _, rest, hread ▸ hw, hroot, hleads⟩
  · rintro ⟨path, hpath, w', u, y, rest, htext, hroot, hleads⟩
    have hskip : skipWs s.bytes = y ++ rest := by rw [htext, hroot.skipWs]
    rw [hskip] at hsafe ⊢
    obtain ⟨flag, hlex⟩ := hroot.lexValue hsafe
    rw [hlex]
    exact (applyFrom_iff hsub type x (n := ⟨u, flag, y⟩) hroot).2 ⟨path, hpath, hleads⟩

theorem LeadsFrom.type_ne_string {path : List ℕ} : ∀ {u type : JsonType} {y x rest : List UInt8},
    Lexeme u y rest → LeadsFrom path u y type x → type ≠ .string := by
  induction path with
  | nil =>
    rintro u type y x rest hroot ⟨rfl, -⟩
    exact hroot.type_ne_string
  | cons index path ih =>
    rintro u type y x rest - ⟨-, c, -, u', y', helem, hleads⟩
    obtain ⟨rest', hread⟩ := helem.lexeme
    exact ih hread hleads

/-- **No string is found inside a string.** -/
theorem resolveParts_body_type {s : StringBody} {sub : List JsonQuery} {leaf : JsonNode}
    (hsub : ∀ q ∈ sub, q.isStep = true)
    (h : resolveParts s.bytes (JsonQuery.parts sub) = .ok leaf) : leaf.type ≠ .string := by
  obtain ⟨path, -, w, u, y, rest, -, hroot, hleads⟩ :=
    (resolveParts_body_iff s hsub leaf.type leaf.s).1 ⟨leaf.flag, h⟩
  exact hleads.type_ne_string hroot

end Damacy

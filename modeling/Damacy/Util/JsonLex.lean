import Mathlib.Data.List.TakeDrop
import Mathlib.Data.Nat.Basic
import Mathlib.Data.Option.Basic
import Mathlib.Order.Basic
import Damacy.Util.Json

/-!
# The lexer on well-formed texts

On the text of a value the lexer returns the node of that value and stops at its end. For a number
this needs something behind it that cannot go on with it, as every byte does that may follow a value
in a document (`Delimited`). Containers are skipped by counting one kind of bracket, which is right
because brackets inside strings are passed over with the string (`skip_value`).
-/

open List JsonText

namespace JsonText

/-- No byte behind a number goes on with it: a digit stands only behind a lone zero, a point only
behind a fraction or an exponent, and the letter of an exponent only behind an exponent. -/
def Number.EndsAt (n : Number) (rest : List UInt8) : Prop :=
  ∀ b, rest.head? = some b →
    (isDigit b = true → n.int.bytes = [0x30] ∧ n.isFloat = false) ∧
      (b = 0x2E → n.isFloat = true) ∧ (b = 0x65 ∨ b = 0x45 → n.exp.isSome = true)

end JsonText

namespace Damacy

def valueNode : Value → JsonNode
  | .null => ⟨.null, .none, kwNull⟩
  | .bool true => ⟨.bool, .none, kwTrue⟩
  | .bool false => ⟨.bool, .none, kwFalse⟩
  | .number n => ⟨.number, if n.isFloat then .numFloat else .none, n.bytes⟩
  | .string s => ⟨.string, if s.escaped then .strEscaped else .none, s.bytes⟩
  | .array gap elems => ⟨.array, .none, (Value.array gap elems).render⟩
  | .object gap members => ⟨.object, .none, (Value.object gap members).render⟩

/-- What may follow a value: the end, whitespace, a comma, a closing bracket, or the colon behind a
key. -/
def Delimited (rest : List UInt8) : Prop :=
  ∀ b, rest.head? = some b → isWs b = true ∨ b = 0x2C ∨ b = 0x5D ∨ b = 0x7D ∨ b = 0x3A

variable {b : UInt8} {c rest : List UInt8}

/-! ## Whitespace -/

@[simp] theorem skipWs_ws (w : Ws) (c : List UInt8) : skipWs (w.bytes ++ c) = skipWs c :=
  dropWhile_append_of_pos w.ws

theorem skipWs_cons (h : isWs b = false) (c : List UInt8) : skipWs (b :: c) = b :: c := by
  rw [skipWs, dropWhile_cons_of_neg (by simp [h])]

theorem delimited_ws_append (w : Ws) (h : Delimited c) : Delimited (w.bytes ++ c) := by
  intro b hb
  rcases hw : w.bytes with _ | ⟨x, xs⟩
  · rw [hw] at hb
    exact h b hb
  · rw [hw] at hb
    obtain rfl := Option.some.inj hb
    exact .inl (w.ws x (hw ▸ mem_cons_self))

/-! ## Strings -/

theorem stringLoop_append (s : StringBody) (c : List UInt8) :
    stringLoop (s.bytes ++ c) = (stringLoop c).map fun r =>
      (s.bytes ++ r.1, if s.escaped then .strEscaped else r.2.1, r.2.2) := by
  induction s with
  | nil => exact Option.map_id'.symm
  | cons item s ih =>
    have hbytes : StringBody.bytes (item :: s) = item.bytes ++ StringBody.bytes s := rfl
    rw [hbytes, append_assoc, stringLoop.eq_def]
    cases item with
    | plain b ge ne_quote ne_backslash =>
      simp only [StringItem.bytes, singleton_append]
      rw [if_neg ne_quote, if_neg ne_backslash, if_neg (by simpa using ge), ih, Option.map_map]
      rfl
    | escape b simple =>
      have hne : b ≠ 0x75 := by
        rintro rfl
        exact absurd simple (by decide)
      simp only [StringItem.bytes, cons_append, nil_append]
      rw [if_neg (by decide), if_pos trivial, if_neg hne, if_pos simple, ih, Option.map_map]
      rfl
    | unicode a b c d hex =>
      simp only [forall_mem_cons] at hex
      simp only [StringItem.bytes, cons_append, nil_append]
      rw [if_neg (by decide), if_pos trivial, if_pos trivial, if_pos (by simp [hex]), ih,
        Option.map_map]
      rfl

theorem lexStringSpan_bytes (s : StringBody) (rest : List UInt8) :
    lexStringSpan (0x22 :: (s.bytes ++ 0x22 :: rest)) =
      some (s.bytes, if s.escaped then .strEscaped else .none, rest) := by
  have hquote : stringLoop (0x22 :: rest) = some ([], .none, rest) := by
    rw [stringLoop.eq_def]
    rfl
  rw [lexStringSpan, if_pos rfl, stringLoop_append, hquote, Option.map_some, append_nil]

theorem stringLoop_length {r : List UInt8 × JsonNodeFlag × List UInt8}
    (h : stringLoop c = some r) : r.2.2.length < c.length := by
  fun_induction stringLoop c generalizing r with
  | case2 =>
    obtain rfl := Option.some.inj h
    exact Nat.lt_succ_self _
  | case4 =>
    rename_i ih
    obtain ⟨r', hr', rfl⟩ := Option.map_eq_some_iff.mp h
    have := ih hr'
    simp only [length_cons]
    omega
  | case7 =>
    rename_i ih
    obtain ⟨r', hr', rfl⟩ := Option.map_eq_some_iff.mp h
    have := ih hr'
    simp only [length_cons]
    omega
  | case10 ch c hquote hslash hctl ih =>
    obtain ⟨r', hr', rfl⟩ := Option.map_eq_some_iff.mp h
    exact (ih hr').trans (Nat.lt_succ_self _)
  | _ => cases h

/-! ## Numbers -/

theorem digitRun_append {ds : List UInt8} (hds : ∀ b ∈ ds, isDigit b = true)
    (hrest : ∀ b, rest.head? = some b → isDigit b = false) : digitRun (ds ++ rest) = (ds, rest) := by
  rw [digitRun, span_eq_takeWhile_dropWhile, takeWhile_append_of_pos hds,
    dropWhile_append_of_pos hds]
  cases rest with
  | nil => simp
  | cons b rest => simp [hrest b rfl]

theorem lexDigits_append (ds : Digits) (hrest : ∀ b, rest.head? = some b → isDigit b = false) :
    lexDigits (ds.bytes ++ rest) = some (ds.bytes, rest) := by
  rw [lexDigits, digitRun_append ds.digits hrest]
  exact if_neg ds.ne_nil

def ExpEnds : Option Exponent → List UInt8 → Prop
  | none, rest => ∀ b, rest.head? = some b → b ≠ 0x65 ∧ b ≠ 0x45
  | some _, rest => ∀ b, rest.head? = some b → isDigit b = false

def FracEnds : Option Digits → List UInt8 → Prop
  | none, rest => ∀ b, rest.head? = some b → b ≠ 0x2E
  | some _, rest => ∀ b, rest.head? = some b → isDigit b = false

/-- What may stand behind the integer part: nothing goes on with a lone zero. -/
def IntEnds (int : Digits) (rest : List UInt8) : Prop :=
  int.bytes = [0x30] ∨ ∀ b, rest.head? = some b → isDigit b = false

theorem lexExpSign_append (e : Exponent) (rest : List UInt8) :
    lexExpSign (e.sign.elim [] (fun minus => [if minus then 0x2D else 0x2B]) ++
        (e.digits.bytes ++ rest)) =
      (e.sign.elim [] fun minus => [if minus then 0x2D else 0x2B], e.digits.bytes ++ rest) := by
  cases e.sign with
  | none =>
    obtain ⟨d, ds, hd⟩ := exists_cons_of_ne_nil e.digits.ne_nil
    have hdigit := e.digits.digits d (hd ▸ mem_cons_self)
    have hne : ¬ (d = 0x2B ∨ d = 0x2D) := by
      rintro (rfl | rfl) <;> exact absurd hdigit (by decide)
    simp [hd, lexExpSign, hne]
  | some minus => cases minus <;> simp [lexExpSign]

theorem lexExp_append (e : Option Exponent) (h : ExpEnds e rest) :
    lexExp (e.elim [] Exponent.bytes ++ rest) = some (e.elim [] Exponent.bytes, rest) := by
  cases e with
  | none =>
    cases rest with
    | nil => rfl
    | cons b rest => simp [lexExp, h b rfl]
  | some e =>
    have hletter : (if e.upper then (0x45 : UInt8) else 0x65) = 0x65 ∨
        (if e.upper then (0x45 : UInt8) else 0x65) = 0x45 := by
      cases e.upper <;> simp
    show lexExp ((if e.upper then 0x45 else 0x65) ::
      (e.sign.elim [] (fun minus => [if minus then 0x2D else 0x2B]) ++ e.digits.bytes ++ rest)) = _
    rw [lexExp, if_pos hletter, append_assoc, lexExpSign_append]
    simp [lexDigits_append e.digits h, Exponent.bytes]

theorem lexFrac_append (f : Option Digits) (h : FracEnds f rest) :
    lexFrac ((f.elim [] fun d => 0x2E :: d.bytes) ++ rest) =
      some (f.elim [] fun d => 0x2E :: d.bytes, rest) := by
  cases f with
  | none =>
    cases rest with
    | nil => rfl
    | cons b rest => simp [lexFrac, h b rfl]
  | some d =>
    show lexFrac (0x2E :: (d.bytes ++ rest)) = _
    rw [lexFrac, if_pos rfl, lexDigits_append d h]
    rfl

theorem lexInt_append (n : Number) (h : IntEnds n.int rest) :
    lexInt (n.int.bytes ++ rest) = some (n.int.bytes, rest) := by
  by_cases hzero : n.int.bytes = [0x30]
  · rw [hzero]
    rfl
  · obtain ⟨d, ds, hd⟩ := exists_cons_of_ne_nil n.int.ne_nil
    have hdigit := n.int.digits d (hd ▸ mem_cons_self)
    have hne : d ≠ 0x30 := by simpa [hd] using n.leading.resolve_left hzero
    have hrun := digitRun_append n.int.digits (h.resolve_left hzero)
    rw [hd] at hrun ⊢
    rw [cons_append, lexInt, if_neg hne, if_pos hdigit, ← cons_append, hrun]

theorem exponent_head (e : Exponent) (rest : List UInt8) (hb : (e.bytes ++ rest).head? = some b) :
    b = 0x65 ∨ b = 0x45 := by
  obtain rfl := Option.some.inj hb
  cases e.upper <;> simp

theorem number_endsAt_iff (n : Number) : n.EndsAt rest ↔
    ExpEnds n.exp rest ∧ FracEnds n.frac (n.exp.elim [] Exponent.bytes ++ rest) ∧
      IntEnds n.int ((n.frac.elim [] fun d => 0x2E :: d.bytes) ++
        (n.exp.elim [] Exponent.bytes ++ rest)) := by
  have hpoint : ∀ (d : Digits) (c : List UInt8), IntEnds n.int (0x2E :: d.bytes ++ c) :=
    fun d c => .inr fun b hb => by obtain rfl := Option.some.inj hb; decide
  rw [Number.EndsAt, Number.isFloat]
  cases hexp : n.exp with
  | some e =>
    -- the letter of the exponent ends what stands before it
    have hletter : ∀ b, (e.bytes ++ rest).head? = some b → isDigit b = false ∧ b ≠ 0x2E := by
      intro b hb
      rcases exponent_head e rest hb with rfl | rfl <;> decide
    have hfrac : FracEnds n.frac (e.bytes ++ rest) := by
      cases n.frac with
      | none => exact fun b hb => (hletter b hb).2
      | some d => exact fun b hb => (hletter b hb).1
    have hint : IntEnds n.int ((n.frac.elim [] fun d => 0x2E :: d.bytes) ++ (e.bytes ++ rest)) := by
      cases n.frac with
      | none => exact .inr fun b hb => (hletter b hb).1
      | some d => exact hpoint d _
    simp only [Option.elim_some, hfrac, hint, ExpEnds, Option.isSome_some, Bool.or_true, and_true,
      implies_true, Bool.true_eq_false, and_false, imp_false, Bool.not_eq_true]
  | none =>
    cases hfrac : n.frac with
    | some d =>
      simp only [Option.elim_none, Option.elim_some, nil_append, hpoint, ExpEnds, FracEnds,
        Option.isSome_some, Option.isSome_none, Bool.or_false, and_true, implies_true,
        Bool.true_eq_false, and_false, imp_false, Bool.not_eq_true, true_and, Bool.false_eq_true,
        not_or]
      exact ⟨fun h => ⟨fun b hb => (h b hb).2, fun b hb => (h b hb).1⟩,
        fun h b hb => ⟨h.2 b hb, h.1 b hb⟩⟩
    | none =>
      simp only [Option.elim_none, nil_append, ExpEnds, FracEnds, IntEnds, Option.isSome_none,
        Bool.or_false, and_true, Bool.false_eq_true, imp_false, not_or]
      constructor
      · intro h
        refine ⟨fun b hb => (h b hb).2.2, fun b hb => (h b hb).2.1, ?_⟩
        by_cases hzero : n.int.bytes = [0x30]
        · exact .inl hzero
        · exact .inr fun b hb => by simpa [hzero] using (h b hb).1
      · rintro ⟨hletter, hdot, hint⟩ b hb
        refine ⟨fun hdigit => hint.resolve_right fun h => ?_, hdot b hb, hletter b hb⟩
        rw [h b hb] at hdigit
        cases hdigit

theorem lexSign_append (n : Number) (rest : List UInt8) :
    lexSign ((if n.negative then [0x2D] else []) ++ (n.int.bytes ++ rest)) =
      (if n.negative then [0x2D] else [], n.int.bytes ++ rest) := by
  obtain ⟨d, ds, hd⟩ := exists_cons_of_ne_nil n.int.ne_nil
  have hdigit := n.int.digits d (hd ▸ mem_cons_self)
  have hne : d ≠ 0x2D := by
    rintro rfl
    exact absurd hdigit (by decide)
  cases n.negative with
  | true => simp [lexSign]
  | false => simp [hd, lexSign, hne]

theorem number_bytes_append (n : Number) (rest : List UInt8) :
    n.bytes ++ rest = (if n.negative then [0x2D] else []) ++ (n.int.bytes ++
      ((n.frac.elim [] fun d => 0x2E :: d.bytes) ++ (n.exp.elim [] Exponent.bytes ++ rest))) := by
  simp [Number.bytes, append_assoc]

theorem lexNumberSpan_append (n : Number) (h : n.EndsAt rest) :
    lexNumberSpan (n.bytes ++ rest) =
      some (n.bytes, if n.isFloat then .numFloat else .none, rest) := by
  obtain ⟨hexp, hfrac, hint⟩ := (number_endsAt_iff n).1 h
  have hflag : ((n.frac.elim [] fun d => 0x2E :: d.bytes) = [] ∧ n.exp.elim [] Exponent.bytes = []) ↔
      ¬ n.isFloat = true := by
    rw [Number.isFloat]
    cases n.frac <;> cases n.exp <;> simp [Exponent.bytes]
  rw [number_bytes_append, lexNumberSpan, lexSign_append]
  simp only [lexInt_append n hint, lexFrac_append n.frac hfrac, lexExp_append n.exp hexp,
    Option.bind_eq_bind, Option.bind_some, hflag, ite_not]
  rw [Number.bytes]

theorem Delimited.endsAt (h : Delimited rest) (n : Number) : n.EndsAt rest := by
  intro b hb
  have hb' : isDigit b = false ∧ b ≠ 0x2E ∧ b ≠ 0x65 ∧ b ≠ 0x45 := by
    rcases h b hb with hws | rfl | rfl | rfl | rfl
    · rw [isWs] at hws
      simp only [Bool.or_eq_true, beq_iff_eq] at hws
      rcases hws with ((rfl | rfl) | rfl) | rfl <;> decide
    all_goals decide
  simp [hb']

/-! ## Containers -/

section Skip

variable {o cl : UInt8} {d : ℕ}

theorem skipLoop_fuel (fuel : ℕ) : ∀ (d : ℕ) (c : List UInt8), c.length ≤ fuel →
    skipLoop o cl fuel d c = skipLoop o cl c.length d c := by
  induction fuel using Nat.strong_induction_on with
  | _ fuel ih =>
    intro d c hle
    cases c with
    | nil => cases fuel <;> rfl
    | cons ch c =>
      obtain ⟨fuel, rfl⟩ : ∃ k, fuel = k + 1 := ⟨fuel - 1, by rw [length_cons] at hle; omega⟩
      rw [length_cons] at hle
      have hrec : ∀ d' (r : List UInt8), r.length ≤ c.length →
          skipLoop o cl fuel d' r = skipLoop o cl c.length d' r := by
        intro d' r hr
        rw [ih fuel (by omega) d' r (by omega)]
        rcases Nat.lt_or_ge c.length (fuel + 1) with hlt | hge
        · exact (ih c.length hlt d' r hr).symm
        · omega
      rw [length_cons, skipLoop, skipLoop, hrec _ c le_rfl, hrec _ c le_rfl, hrec _ c le_rfl]
      cases hlex : lexStringSpan (ch :: c) with
      | none => rfl
      | some r =>
        have hshort : r.2.2.length ≤ c.length := by
          rw [lexStringSpan] at hlex
          split at hlex
          · exact (stringLoop_length hlex).le
          · cases hlex
        dsimp only
        rw [hrec _ _ hshort]

/-- The loop of `skip_container` with as much fuel as it needs. -/
def skip (o cl : UInt8) (d : ℕ) (c : List UInt8) : Option (List UInt8) := skipLoop o cl c.length d c

theorem skip_cons (h : b ≠ 0x22) (c : List UInt8) : skip o cl d (b :: c) =
    if b = o then skip o cl (d + 1) c
    else if b = cl then if d - 1 = 0 then some c else skip o cl (d - 1) c
    else skip o cl d c := by
  rw [skip, length_cons, skipLoop, if_neg h]
  rfl

theorem skip_string (s : StringBody) (c : List UInt8) :
    skip o cl d (0x22 :: (s.bytes ++ 0x22 :: c)) = skip o cl d c := by
  rw [skip, length_cons, skipLoop, if_pos rfl, lexStringSpan_bytes]
  exact skipLoop_fuel _ d c (by simp only [length_append, length_cons]; omega)

theorem skip_plain (bs : List UInt8) (h : ∀ b ∈ bs, b ≠ 0x22 ∧ b ≠ o ∧ b ≠ cl) (c : List UInt8) :
    skip o cl d (bs ++ c) = skip o cl d c := by
  induction bs with
  | nil => rfl
  | cons b bs ih =>
    obtain ⟨hquote, ho, hcl⟩ := h b mem_cons_self
    rw [cons_append, skip_cons hquote, if_neg ho, if_neg hcl]
    exact ih fun x hx => h x (mem_cons_of_mem b hx)

def Brackets (o cl : UInt8) : Prop := o = 0x7B ∧ cl = 0x7D ∨ o = 0x5B ∧ cl = 0x5D

def Inert (b : UInt8) : Prop := b ≠ 0x22 ∧ b ≠ 0x7B ∧ b ≠ 0x7D ∧ b ≠ 0x5B ∧ b ≠ 0x5D

instance (b : UInt8) : Decidable (Inert b) := inferInstanceAs (Decidable (_ ∧ _))

theorem Inert.skips (hb : Brackets o cl) (h : Inert b) : b ≠ 0x22 ∧ b ≠ o ∧ b ≠ cl := by
  obtain ⟨h₁, h₂, h₃, h₄, h₅⟩ := h
  rcases hb with ⟨rfl, rfl⟩ | ⟨rfl, rfl⟩
  · exact ⟨h₁, h₂, h₃⟩
  · exact ⟨h₁, h₄, h₅⟩

theorem skip_inert (hb : Brackets o cl) (bs : List UInt8) (h : ∀ b ∈ bs, Inert b) (c : List UInt8) :
    skip o cl d (bs ++ c) = skip o cl d c :=
  skip_plain bs (fun b hmem => (h b hmem).skips hb) c

theorem inert_of_isWs (h : isWs b = true) : Inert b := by
  rw [isWs] at h
  simp only [Bool.or_eq_true, beq_iff_eq] at h
  rcases h with ((rfl | rfl) | rfl) | rfl <;> decide

theorem inert_of_isDigit (h : isDigit b = true) : Inert b := by
  refine ⟨?_, ?_, ?_, ?_, ?_⟩ <;> rintro rfl <;> exact absurd h (by decide)

theorem skip_ws (hb : Brackets o cl) (w : Ws) (c : List UInt8) :
    skip o cl d (w.bytes ++ c) = skip o cl d c :=
  skip_inert hb _ (fun b hmem => inert_of_isWs (w.ws b hmem)) c

theorem inert_exponent (e : Exponent) : ∀ b ∈ e.bytes, Inert b := by
  intro b hb
  rw [Exponent.bytes, cons_append, mem_cons, mem_append] at hb
  rcases hb with rfl | hb | hb
  · cases e.upper <;> decide
  · cases hs : e.sign with
    | none =>
      rw [hs] at hb
      cases hb
    | some minus =>
      rw [hs] at hb
      obtain rfl := mem_singleton.mp hb
      cases minus <;> decide
  · exact inert_of_isDigit (e.digits.digits b hb)

theorem inert_number (n : Number) : ∀ b ∈ n.bytes, Inert b := by
  intro b hb
  rw [Number.bytes, mem_append, mem_append, mem_append] at hb
  rcases hb with ((hb | hb) | hb) | hb
  · cases hn : n.negative <;> rw [hn] at hb
    · cases hb
    · obtain rfl := mem_singleton.mp hb
      decide
  · exact inert_of_isDigit (n.int.digits b hb)
  · cases hf : n.frac with
    | none =>
      rw [hf] at hb
      cases hb
    | some ds =>
      rw [hf] at hb
      rcases mem_cons.mp hb with rfl | hb
      · decide
      · exact inert_of_isDigit (ds.digits b hb)
  · cases he : n.exp with
    | none =>
      rw [he] at hb
      cases hb
    | some e =>
      rw [he] at hb
      exact inert_exponent e b hb

/-- Where the loop is after a bracket has closed: at the end when that was the outermost. -/
def landing (o cl : UInt8) (d : ℕ) (c : List UInt8) : Option (List UInt8) :=
  if d = 0 then some c else skip o cl d c

def weight (o kind : UInt8) : ℕ := if o = kind then 1 else 0

theorem skip_open (hb : Brackets o cl) {kind : UInt8} (hk : kind = 0x5B ∨ kind = 0x7B)
    (c : List UInt8) : skip o cl d (kind :: c) = skip o cl (d + weight o kind) c := by
  have hquote : kind ≠ 0x22 := by rcases hk with rfl | rfl <;> decide
  rw [skip_cons hquote, weight]
  by_cases ho : kind = o
  · rw [if_pos ho, if_pos ho.symm]
  · have hcl : kind ≠ cl := by
      rcases hb with ⟨-, rfl⟩ | ⟨-, rfl⟩ <;> rcases hk with rfl | rfl <;> decide
    rw [if_neg ho, if_neg hcl, if_neg (Ne.symm ho)]
    rfl

theorem skip_close (hb : Brackets o cl) {opening closing : UInt8}
    (hk : Brackets opening closing) (hd : o = opening ∨ 0 < d) (c : List UInt8) :
    skip o cl (d + weight o opening) (closing :: c) = landing o cl d c := by
  have hquote : closing ≠ 0x22 := by rcases hk with ⟨-, rfl⟩ | ⟨-, rfl⟩ <;> decide
  have ho : closing ≠ o := by
    rcases hb with ⟨rfl, -⟩ | ⟨rfl, -⟩ <;> rcases hk with ⟨-, rfl⟩ | ⟨-, rfl⟩ <;> decide
  rw [skip_cons hquote, if_neg ho, weight, landing]
  by_cases hsame : o = opening
  · have hcl : closing = cl := by
      subst hsame
      rcases hb with ⟨rfl, rfl⟩ | ⟨rfl, rfl⟩ <;> rcases hk with ⟨h, rfl⟩ | ⟨h, rfl⟩ <;>
        first | rfl | exact absurd h (by decide)
    rw [if_pos hsame, if_pos hcl, Nat.add_sub_cancel]
  · have hcl : closing ≠ cl := by
      rcases hb with ⟨rfl, rfl⟩ | ⟨rfl, rfl⟩ <;> rcases hk with ⟨rfl, rfl⟩ | ⟨rfl, rfl⟩ <;>
        first | decide | exact absurd rfl hsame
    have hpos : d ≠ 0 := (hd.resolve_left hsame).ne'
    rw [if_neg hsame, if_neg hcl, Nat.add_zero, if_neg hpos]

theorem skip_elemsTail (hb : Brackets o cl) (hd : o = 0x5B ∨ 0 < d) {elems : List (Padded Value)}
    (hall : ∀ e ∈ elems, ∀ d c, 0 < d → skip o cl d (e.value.render ++ c) = skip o cl d c)
    (c : List UInt8) : skip o cl (d + weight o 0x5B) (Value.renderElemsTail elems ++ c) =
      landing o cl d c := by
  have hpos : 0 < d + weight o 0x5B := by
    rcases hd with rfl | hpos
    · rw [weight, if_pos rfl]
      exact Nat.succ_pos d
    · omega
  induction elems with
  | nil =>
    rw [Value.renderElemsTail]
    exact skip_close hb (.inr ⟨rfl, rfl⟩) hd c
  | cons e elems ih =>
    have hcomma : ∀ b ∈ [(0x2C : UInt8)], Inert b := forall_mem_singleton.mpr (by decide)
    have hvalue := hall e mem_cons_self
    have htail := ih fun e' he' => hall e' (mem_cons_of_mem e he')
    obtain ⟨before, value, after⟩ := e
    have hassoc : Value.renderElemsTail (⟨before, value, after⟩ :: elems) ++ c =
        [0x2C] ++ (before.bytes ++ (value.render ++ (after.bytes ++
          (Value.renderElemsTail elems ++ c)))) := by
      simp [Value.renderElemsTail, append_assoc]
    rw [hassoc, skip_inert hb _ hcomma, skip_ws hb, hvalue _ _ hpos, skip_ws hb]
    exact htail

theorem skip_membersTail (hb : Brackets o cl) (hd : o = 0x7B ∨ 0 < d)
    {members : List (Member Value)}
    (hall : ∀ m ∈ members, ∀ d c, 0 < d → skip o cl d (m.value.render ++ c) = skip o cl d c)
    (c : List UInt8) : skip o cl (d + weight o 0x7B) (Value.renderMembersTail members ++ c) =
      landing o cl d c := by
  have hpos : 0 < d + weight o 0x7B := by
    rcases hd with rfl | hpos
    · rw [weight, if_pos rfl]
      exact Nat.succ_pos d
    · omega
  induction members with
  | nil =>
    rw [Value.renderMembersTail]
    exact skip_close hb (.inl ⟨rfl, rfl⟩) hd c
  | cons m members ih =>
    have hcomma : ∀ b ∈ [(0x2C : UInt8)], Inert b := forall_mem_singleton.mpr (by decide)
    have hcolon : ∀ b ∈ [(0x3A : UInt8)], Inert b := forall_mem_singleton.mpr (by decide)
    have hvalue := hall m mem_cons_self
    have htail := ih fun m' hm' => hall m' (mem_cons_of_mem m hm')
    obtain ⟨before, key, afterKey, beforeValue, value, after⟩ := m
    have hassoc : Value.renderMembersTail (⟨before, key, afterKey, beforeValue, value, after⟩ ::
        members) ++ c = [0x2C] ++ (before.bytes ++ (0x22 :: (key.bytes ++ 0x22 ::
          (afterKey.bytes ++ ([0x3A] ++ (beforeValue.bytes ++ (value.render ++ (after.bytes ++
            (Value.renderMembersTail members ++ c))))))))) := by
      simp [Value.renderMembersTail, append_assoc]
    rw [hassoc, skip_inert hb _ hcomma, skip_ws hb, skip_string, skip_ws hb, skip_inert hb _ hcolon,
      skip_ws hb, hvalue _ _ hpos, skip_ws hb]
    exact htail

theorem skip_elems (hb : Brackets o cl) (hd : o = 0x5B ∨ 0 < d) (gap : Ws)
    {elems : List (Padded Value)}
    (hall : ∀ e ∈ elems, ∀ d c, 0 < d → skip o cl d (e.value.render ++ c) = skip o cl d c)
    (c : List UInt8) : skip o cl (d + weight o 0x5B) (Value.renderElems gap elems ++ c) =
      landing o cl d c := by
  cases elems with
  | nil =>
    rw [Value.renderElems, append_assoc, skip_ws hb]
    exact skip_elemsTail hb hd hall c
  | cons e elems =>
    -- the same as a tail without its comma
    have htail := skip_elemsTail hb hd hall c
    have hcomma : ∀ b ∈ [(0x2C : UInt8)], Inert b := forall_mem_singleton.mpr (by decide)
    have hsame : Value.renderElemsTail (e :: elems) ++ c =
        [0x2C] ++ (Value.renderElems gap (e :: elems) ++ c) := rfl
    rwa [hsame, skip_inert hb _ hcomma] at htail

theorem skip_members (hb : Brackets o cl) (hd : o = 0x7B ∨ 0 < d) (gap : Ws)
    {members : List (Member Value)}
    (hall : ∀ m ∈ members, ∀ d c, 0 < d → skip o cl d (m.value.render ++ c) = skip o cl d c)
    (c : List UInt8) : skip o cl (d + weight o 0x7B) (Value.renderMembers gap members ++ c) =
      landing o cl d c := by
  cases members with
  | nil =>
    rw [Value.renderMembers, append_assoc, skip_ws hb]
    exact skip_membersTail hb hd hall c
  | cons m members =>
    have htail := skip_membersTail hb hd hall c
    have hcomma : ∀ b ∈ [(0x2C : UInt8)], Inert b := forall_mem_singleton.mpr (by decide)
    have hsame : Value.renderMembersTail (m :: members) ++ c =
        [0x2C] ++ (Value.renderMembers gap (m :: members) ++ c) := rfl
    rwa [hsame, skip_inert hb _ hcomma] at htail

theorem skip_value (hb : Brackets o cl) (v : Value) :
    ∀ d c, 0 < d → skip o cl d (v.render ++ c) = skip o cl d c := by
  induction v using Value.induct with
  | null => exact fun d c _ => skip_inert hb kwNull (by simp [kwNull, Inert]) c
  | bool b =>
    intro d c _
    cases b
    · exact skip_inert hb kwFalse (by simp [kwFalse, Inert]) c
    · exact skip_inert hb kwTrue (by simp [kwTrue, Inert]) c
  | number n => exact fun d c _ => skip_inert hb _ (inert_number n) c
  | string s =>
    intro d c _
    rw [Value.render, cons_append, append_assoc]
    exact skip_string s c
  | array gap elems ih =>
    intro d c hd
    rw [Value.render, cons_append, skip_open hb (.inl rfl),
      skip_elems hb (.inr hd) gap ih, landing, if_neg hd.ne']
  | object gap members ih =>
    intro d c hd
    rw [Value.render, cons_append, skip_open hb (.inr rfl),
      skip_members hb (.inr hd) gap ih, landing, if_neg hd.ne']

end Skip

/-! ## Values -/

theorem skipContainer_array (gap : Ws) (elems : List (Padded Value)) (c : List UInt8) :
    skipContainer 0x5D ((Value.array gap elems).render ++ c) = some c := by
  have hb : Brackets 0x5B 0x5D := .inr ⟨rfl, rfl⟩
  have hskip := skip_open (d := 0) hb (.inl rfl) (Value.renderElems gap elems ++ c)
  rw [skip_elems hb (.inl rfl) gap fun e _ => skip_value hb e.value] at hskip
  exact hskip

theorem skipContainer_object (gap : Ws) (members : List (Member Value)) (c : List UInt8) :
    skipContainer 0x7D ((Value.object gap members).render ++ c) = some c := by
  have hb : Brackets 0x7B 0x7D := .inl ⟨rfl, rfl⟩
  have hskip := skip_open (d := 0) hb (.inr rfl) (Value.renderMembers gap members ++ c)
  rw [skip_members hb (.inl rfl) gap fun m _ => skip_value hb m.value] at hskip
  exact hskip

theorem take_append_sub (a c : List UInt8) : (a ++ c).take ((a ++ c).length - c.length) = a := by
  rw [length_append, Nat.add_sub_cancel, take_left]

theorem number_head (n : Number) : ∃ ch bs, n.bytes = ch :: bs ∧ (ch = 0x2D ∨ isDigit ch = true) := by
  obtain ⟨d, ds, hd⟩ := exists_cons_of_ne_nil n.int.ne_nil
  have hdigit := n.int.digits d (hd ▸ mem_cons_self)
  rw [Number.bytes, hd]
  cases n.negative with
  | true => exact ⟨_, _, rfl, .inl rfl⟩
  | false => exact ⟨_, _, rfl, .inr hdigit⟩

theorem lexValue_number_append (n : Number) (h : n.EndsAt rest) :
    lexValue (n.bytes ++ rest) = .ok (valueNode (.number n), rest) := by
  obtain ⟨ch, bs, hbytes, hch⟩ := number_head n
  have hnumber := lexNumberSpan_append n h
  have hne : ∀ x : UInt8, x ≠ 0x2D → isDigit x = false → ch ≠ x := by
    rintro x hminus hdigit rfl
    rcases hch with rfl | hch
    · exact hminus rfl
    · rw [hdigit] at hch
      cases hch
  rw [valueNode]
  rw [hbytes] at hnumber ⊢
  rw [cons_append, lexValue, if_neg (hne _ (by decide) (by decide)),
    if_neg (hne _ (by decide) (by decide)), if_neg (hne _ (by decide) (by decide)),
    if_neg (hne _ (by decide) (by decide)), if_neg (hne _ (by decide) (by decide)),
    if_neg (hne _ (by decide) (by decide)), if_pos hch, ← cons_append, hnumber]
  rfl

/-- **The lexer reads a value as a whole and stops at its end.** -/
theorem lexValue_render (v : Value) (h : Delimited rest) :
    lexValue (v.render ++ rest) = .ok (valueNode v, rest) := by
  cases v with
  | null => rfl
  | bool b => cases b <;> rfl
  | number n => exact lexValue_number_append n (h.endsAt n)
  | string s =>
    have hstring := lexStringSpan_bytes s rest
    rw [Value.render, cons_append, append_assoc]
    show lexSpan .string (lexStringSpan (0x22 :: (s.bytes ++ 0x22 :: rest))) = _
    rw [hstring]
    rfl
  | array gap elems =>
    have hskip := skipContainer_array gap elems rest
    have htake := take_append_sub (Value.array gap elems).render rest
    show lexContainer .array 0x5D ((Value.array gap elems).render ++ rest) = _
    rw [lexContainer, hskip]
    dsimp only
    rw [htake]
    rfl
  | object gap members =>
    have hskip := skipContainer_object gap members rest
    have htake := take_append_sub (Value.object gap members).render rest
    show lexContainer .object 0x7D ((Value.object gap members).render ++ rest) = _
    rw [lexContainer, hskip]
    dsimp only
    rw [htake]
    rfl

end Damacy

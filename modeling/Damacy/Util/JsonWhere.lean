import Damacy.Util.JsonBody
import Damacy.Util.JsonResolve

/-!
# `QUERY_WHERE`

A `QUERY_WHERE` part resolves its own query on the span of the current node and compares what it
finds with a literal. The span of a string is what stands between its quotes, so for a string the
sub-query is run on that text as if it were a document; and numbers are compared by their spelling.
`whereHolds_iff` says on which values the filter still is what the query language promises.
-/

open List JsonText

namespace Damacy

/-! ## What the filter promises -/

/-- A literal of a `QUERY_WHERE` part. -/
inductive Literal
  | string (bytes : List UInt8)
  | number (n : Number)
  | bool (b : Bool)

def Literal.bytes : Literal → List UInt8
  | string bytes => bytes
  | number n => n.bytes
  | bool b => if b then kwTrue else kwFalse

/-- `where.rhs_type`. -/
def Literal.type : Literal → JsonType
  | string _ => .string
  | number _ => .number
  | bool _ => .bool

/-- A value equals a literal: it has the literal's type, and it is a string without escapes of the
same bytes, a number of the same value, or the same boolean. -/
def Literal.Matches : Literal → Value → Prop
  | string bytes, .string s => s.escaped = false ∧ s.bytes = bytes
  | number m, .number n => n.value = m.value
  | bool b, .bool b' => b' = b
  | _, _ => False

/-- A value passes a filter: the sub-query finds a value that equals the literal. -/
def Passes (sub : List JsonQuery) (lit : Literal) (v : Value) : Prop :=
  ∃ leaf, evalParts (JsonQuery.parts sub) v = .found leaf ∧ lit.Matches leaf

theorem iterCount_steps {sub : List JsonQuery} (h : ∀ q ∈ sub, q.isStep = true) :
    iterCount (JsonQuery.parts sub) = 0 := by
  induction sub with
  | nil => rfl
  | cons q sub ih =>
    rw [forall_mem_cons] at h
    have hq : q.part.isIter = false := by
      cases q with
      | key k => rfl
      | index i => rfl
      | iter => cases h.1
      | whereEq part rhs rhsType => cases h.1
    rw [JsonQuery.parts, iterCount, countP_cons_of_neg (by simp [hq])]
    exact ih h.2

/-! ## The filter -/

/-- The comparison that the code makes: that of `Literal.Matches`, but numbers are compared by their
spelling. -/
def Literal.Spells : Literal → Value → Prop
  | string bytes, .string s => s.escaped = false ∧ s.bytes = bytes
  | number m, .number n => n.bytes = m.bytes
  | bool b, .bool b' => b' = b
  | _, _ => False

theorem eqLiteral_iff (n : JsonNode) (lit : Literal) :
    n.eqLiteral lit.bytes lit.type = true ↔
      n.type = lit.type ∧ (lit.type = .string → n.flag ≠ .strEscaped) ∧ n.s = lit.bytes := by
  cases lit with
  | string bytes =>
    simp only [JsonNode.eqLiteral, Literal.type, Bool.and_eq_true, decide_eq_true_eq]
    tauto
  | number m => simp [JsonNode.eqLiteral, Literal.type]
  | bool b => simp [JsonNode.eqLiteral, Literal.type]

theorem eqLiteral_valueNode (lit : Literal) (v : Value) :
    (valueNode v).eqLiteral lit.bytes lit.type = true ↔ lit.Spells v := by
  rw [eqLiteral_iff]
  cases lit with
  | string bytes =>
    cases v with
    | null | number n | array gap elems | object gap members =>
      simp [Literal.type, Literal.Spells, valueNode]
    | bool b => cases b <;> simp [Literal.type, Literal.Spells, valueNode]
    | string s =>
      cases hs : s.escaped <;> simp [Literal.type, Literal.Spells, Literal.bytes, valueNode, hs]
  | number m =>
    cases v with
    | null | number n | string s | array gap elems | object gap members =>
      simp [Literal.type, Literal.Spells, Literal.bytes, valueNode]
    | bool b => cases b <;> simp [Literal.type, Literal.Spells, valueNode]
  | bool b =>
    cases v with
    | null | number n | string s | array gap elems | object gap members =>
      simp [Literal.type, Literal.Spells, valueNode]
    | bool b' =>
      cases b <;> cases b' <;>
        simp [Literal.type, Literal.Spells, Literal.bytes, valueNode, kwTrue, kwFalse]

theorem Literal.Spells.matches {lit : Literal} {v : Value} (h : lit.Spells v) : lit.Matches v := by
  cases lit <;> cases v <;> first | exact h | exact number_value_congr h

theorem Literal.Matches.spells {lit : Literal} {v : Value} (h : lit.Matches v)
    (hnum : ∀ m n, lit = .number m → v = .number n → n.bytes = m.bytes) : lit.Spells v := by
  cases lit <;> cases v <;> first | exact h | exact hnum _ _ rfl rfl

theorem document_span {v : Value} (hv : ∀ s, v ≠ .string s) : Document v (valueNode v).s := by
  refine ⟨noWs, noWs, ?_⟩
  have hspan : (valueNode v).s = v.render := by
    cases v with
    | null | number n | array gap elems | object gap members => rfl
    | bool b => cases b <;> rfl
    | string s => exact absurd rfl (hv s)
  rw [hspan]
  exact (append_nil _).symm

theorem whereHolds_value {sub : List JsonQuery} (hsub : ∀ q ∈ sub, q.isStep = true) (lit : Literal)
    {v : Value} (hv : ∀ s, v ≠ .string s) :
    whereHolds (valueNode v) (JsonQuery.parts sub) lit.bytes lit.type = true ↔
      ∃ leaf, evalParts (JsonQuery.parts sub) v = .found leaf ∧ lit.Spells leaf := by
  have hresolve := jsonResolve_document (document_span hv)
    (by rw [iterCount_steps hsub]; exact Nat.zero_le _)
  rw [jsonResolve] at hresolve
  rw [whereHolds, hresolve]
  cases evalParts (JsonQuery.parts sub) v with
  | found leaf =>
    simp only [Outcome.result, eqLiteral_valueNode, Outcome.found.injEq, exists_eq_left']
  | notFound => simp [Outcome.result]
  | wrongType => simp [Outcome.result]

theorem passes_string {sub : List JsonQuery} (hsub : ∀ q ∈ sub, q.isStep = true) (lit : Literal)
    (s : StringBody) : Passes sub lit (.string s) ↔ sub = [] ∧ lit.Matches (.string s) := by
  cases sub with
  | nil => simp [Passes, JsonQuery.parts, evalParts]
  | cons q sub =>
    have hq := hsub q mem_cons_self
    cases q with
    | key k => simp [Passes, JsonQuery.parts, JsonQuery.part, evalParts]
    | index k => simp [Passes, JsonQuery.parts, JsonQuery.part, evalParts]
    | iter => cases hq
    | whereEq part rhs rhsType => cases hq

/-- The values on which a filter is what the query language promises. A string must not itself be
what is looked for; nor may the sub-query consist of indices that lead to the number or the boolean
that is looked for in its text. Of another value, a number that the sub-query finds must not have
the value of the literal in another spelling. -/
def FilterExact (sub : List JsonQuery) : Literal → Value → Prop
  | .string bytes, .string s => ¬ (sub = [] ∧ s.escaped = false ∧ s.bytes = bytes)
  | lit, .string s => ¬ ∃ path : List ℕ,
      sub = path.map JsonQuery.index ∧ TextLeads path s.bytes lit.type lit.bytes
  | .number m, v => ∀ n, evalParts (JsonQuery.parts sub) v = .found (.number n) →
      n.value = m.value → n.bytes = m.bytes
  | _, _ => True

theorem filterExact_value (sub : List JsonQuery) (lit : Literal) {v : Value}
    (hv : ∀ s, v ≠ .string s) :
    FilterExact sub lit v ↔ ∀ m, lit = .number m → ∀ n,
      evalParts (JsonQuery.parts sub) v = .found (.number n) → n.value = m.value →
        n.bytes = m.bytes := by
  cases v with
  | string s => exact absurd rfl (hv s)
  | null | bool b | number n | array gap elems | object gap members =>
    cases lit <;> simp [FilterExact]

theorem whereHolds_string (s : StringBody) {sub : List JsonQuery}
    (hsub : ∀ q ∈ sub, q.isStep = true) {lit : Literal} (hlit : lit.type ≠ .string) :
    whereHolds (valueNode (.string s)) (JsonQuery.parts sub) lit.bytes lit.type = true ↔
      ∃ path : List ℕ, sub = path.map JsonQuery.index ∧
        TextLeads path s.bytes lit.type lit.bytes := by
  have hspan : (valueNode (.string s)).s = s.bytes := rfl
  rw [← resolveParts_body_iff s hsub, whereHolds, hspan]
  cases hres : resolveParts s.bytes (JsonQuery.parts sub) with
  | error e => simp
  | ok leaf =>
    obtain ⟨type, flag, x⟩ := leaf
    simp [eqLiteral_iff, hlit]

/-- **When a `QUERY_WHERE` filter does what the query language says.** For a sub-query of
`QUERY_KEY` and `QUERY_INDEX` parts, a literal, and a current value of any type: behind the
`QUERY_WHERE` part the evaluator goes on with the value if the filter holds and finds nothing
otherwise; and the filter holds exactly if the sub-query finds a value equal to the literal, if and
only if the value is none of those that `FilterExact` excludes. -/
theorem whereHolds_iff {sub : List JsonQuery} (hsub : ∀ q ∈ sub, q.isStep = true) (lit : Literal)
    (v : Value) :
    (∀ (rest : List JsonQuery) (i : ℕ) (frames : List IterFrame),
      applyFrom (JsonQuery.parts (.whereEq sub lit.bytes lit.type :: rest)) i (valueNode v) frames =
        if whereHolds (valueNode v) (JsonQuery.parts sub) lit.bytes lit.type then
          applyFrom (JsonQuery.parts rest) (i + 1) (valueNode v) frames
        else (.error .notFound, frames)) ∧
    ((whereHolds (valueNode v) (JsonQuery.parts sub) lit.bytes lit.type = true ↔
      Passes sub lit v) ↔ FilterExact sub lit v) := by
  refine ⟨fun rest i frames => by rw [JsonQuery.parts, JsonQuery.part, applyFrom], ?_⟩
  by_cases hv : ∃ s, v = .string s
  · obtain ⟨s, rfl⟩ := hv
    rw [passes_string hsub]
    cases lit with
    | string bytes =>
      -- the code never finds a string inside a string
      have hfalse : whereHolds (valueNode (.string s)) (JsonQuery.parts sub) bytes .string =
          false := by
        have hspan : (valueNode (.string s)).s = s.bytes := rfl
        rw [whereHolds, hspan]
        cases hres : resolveParts s.bytes (JsonQuery.parts sub) with
        | error e => rfl
        | ok leaf => simp [JsonNode.eqLiteral, resolveParts_body_type hsub hres]
      simp only [Literal.bytes, Literal.type, hfalse, Bool.false_eq_true, false_iff, FilterExact,
        Literal.Matches]
    | number m =>
      rw [whereHolds_string s hsub (by simp [Literal.type])]
      simp [FilterExact, Literal.Matches]
    | bool b =>
      rw [whereHolds_string s hsub (by simp [Literal.type])]
      simp [FilterExact, Literal.Matches]
  · rw [not_exists] at hv
    rw [whereHolds_value hsub lit hv, Passes]
    rw [filterExact_value sub lit hv]
    constructor
    · rintro h m rfl n hfound hvalue
      obtain ⟨leaf, hleaf, hspells⟩ := h.mpr ⟨.number n, hfound, hvalue⟩
      obtain rfl : Value.number n = leaf := Outcome.found.inj (hfound.symm.trans hleaf)
      exact hspells
    · intro h
      constructor
      · rintro ⟨leaf, hfound, hleaf⟩
        exact ⟨leaf, hfound, hleaf.matches⟩
      · rintro ⟨leaf, hfound, hleaf⟩
        refine ⟨leaf, hfound, hleaf.spells ?_⟩
        rintro m n rfl rfl
        exact h m rfl n hfound hleaf

/-- The object `{"a":true}` passes the filter `.a == true`, as it should. -/
theorem whereHolds_exact_bool :
    let v := Value.object noWs [⟨noWs, [itemA], noWs, noWs, .bool true, noWs⟩]
    whereHolds (valueNode v) [.key [0x61]] kwTrue .bool = true ∧
      Passes [.key [0x61]] (.bool true) v := by
  intro v
  have hholds : whereHolds (valueNode v) [.key [0x61]] kwTrue .bool = true := by decide +kernel
  have hsub : ∀ q ∈ [JsonQuery.key [0x61]], q.isStep = true :=
    forall_mem_singleton.mpr rfl
  exact ⟨hholds, ((whereHolds_iff hsub (.bool true) v).2.mpr trivial).mp hholds⟩

def stringTrue : StringBody :=
  [.plain 0x74 (by decide) (by decide) (by decide), .plain 0x72 (by decide) (by decide) (by decide),
    .plain 0x75 (by decide) (by decide) (by decide), .plain 0x65 (by decide) (by decide) (by decide)]

def numberOne (fraction : Bool) : Number where
  negative := false
  int := ⟨[0x31], by decide, forall_mem_singleton.mpr rfl⟩
  leading := .inr (by decide)
  frac := if fraction then some ⟨[0x30], by decide, forall_mem_singleton.mpr rfl⟩ else none
  exp := none

/-- Three values that a filter treats otherwise than promised: the string `"a"` does not equal the
string `a`, the string `"true"` equals the boolean, and the number `1.0` does not equal `1`. -/
theorem whereHolds_diverges :
    (Passes [] (.string [0x61]) (.string [itemA]) ∧
      whereHolds (valueNode (.string [itemA])) [] [0x61] .string = false ∧
      jsonResolve (Value.array noWs [⟨noWs, .string [itemA], noWs⟩]).render
        [.iter, .whereEq [] [0x61] .string] = .error .notFound) ∧
    (¬ Passes [] (.bool true) (.string stringTrue) ∧
      whereHolds (valueNode (.string stringTrue)) [] kwTrue .bool = true ∧
      jsonResolve (Value.array noWs [⟨noWs, .string stringTrue, noWs⟩]).render
        [.iter, .whereEq [] kwTrue .bool] = .ok (valueNode (.string stringTrue))) ∧
    Passes [] (.number (numberOne false)) (.number (numberOne true)) ∧
      whereHolds (valueNode (.number (numberOne true))) [] (numberOne false).bytes .number =
        false := by
  refine ⟨⟨⟨_, rfl, rfl, rfl⟩, by decide +kernel, by decide +kernel⟩,
    ⟨?_, by decide +kernel, by decide +kernel⟩, ⟨_, rfl, ?_⟩, by decide +kernel⟩
  · rintro ⟨leaf, hleaf, hmatch⟩
    obtain rfl := Outcome.found.inj hleaf
    exact hmatch
  · simp [Literal.Matches, Number.value, Digits.value, Digits.fraction, numberOne]

end Damacy

import Mathlib.Algebra.GroupWithZero.Nat
import Damacy.Util.JsonLex

/-!
# Queries on well-formed documents

`evalParts` is what a query means on a value: the first result of a depth-first walk, in document
order. `json_resolve` computes it on the text, with a stack of the arrays that are still open and a
cursor in each of them (`Frames`); what is left to try in the open arrays is `evalFrames`.
-/

open List JsonText

namespace Damacy

/-! ## The meaning of a query -/

inductive Outcome
  | found (v : Value)
  | notFound
  | wrongType

def Outcome.orElse : Outcome → Outcome → Outcome
  | notFound, o => o
  | o, _ => o

def firstOutcome (eval : Value → Outcome) (elems : List (Padded Value)) : Outcome :=
  elems.foldr (fun e o => (eval e.value).orElse o) .notFound

/-- Whether a member is selected by a key: its own key is written without escapes. -/
def memberHasKey (key : List UInt8) (m : Member Value) : Bool :=
  !m.key.escaped && m.key.bytes = key

def evalParts : List QueryPart → Value → Outcome
  | [], v => .found v
  | .key key :: parts, .object _ members =>
    match members.find? (memberHasKey key) with
    | none => .notFound
    | some m => evalParts parts m.value
  | .key _ :: _, _ => .wrongType
  | .index i :: parts, .array _ elems =>
    match elems[i]? with
    | none => .notFound
    | some e => evalParts parts e.value
  | .index _ :: _, _ => .wrongType
  | .iter :: parts, .array _ elems => firstOutcome (evalParts parts) elems
  | .iter :: _, _ => .wrongType
  | .whereHolds holds :: parts, v => if holds (valueNode v) then evalParts parts v else .notFound

/-- What `json_resolve` returns for an outcome. -/
def Outcome.result : Outcome → Except JsonErr JsonNode
  | found v => .ok (valueNode v)
  | notFound => .error .notFound
  | wrongType => .error .type

/-- Whether a part is a `QUERY_ITER`. -/
def QueryPart.isIter : QueryPart → Bool
  | iter => true
  | _ => false

/-- The number of `QUERY_ITER` parts. -/
def iterCount (parts : List QueryPart) : ℕ := parts.countP QueryPart.isIter

def Document (v : Value) (src : List UInt8) : Prop :=
  ∃ before after : Ws, src = before.bytes ++ (v.render ++ after.bytes)

@[simp] theorem Outcome.orElse_notFound (o : Outcome) : o.orElse .notFound = o := by cases o <;> rfl

theorem Outcome.orElse_assoc (a b c : Outcome) : (a.orElse b).orElse c = a.orElse (b.orElse c) := by
  cases a <;> rfl

/-! ## The steps of the walk -/

variable {rest : List UInt8} {v : Value}

theorem delimited_nil : Delimited [] := fun b hb => by cases hb

theorem delimited_cons {b : UInt8} (h : b = 0x2C ∨ b = 0x5D ∨ b = 0x7D ∨ b = 0x3A)
    (c : List UInt8) : Delimited (b :: c) := by
  intro x hx
  obtain rfl := Option.some.inj hx
  exact .inr h

theorem delimited_elemsTail (elems : List (Padded Value)) :
    Delimited (Value.renderElemsTail elems) := by
  cases elems with
  | nil => exact delimited_cons (.inr (.inl rfl)) _
  | cons e elems => exact delimited_cons (.inl rfl) _

theorem delimited_membersTail (members : List (Member Value)) :
    Delimited (Value.renderMembersTail members) := by
  cases members with
  | nil => exact delimited_cons (.inr (.inr (.inl rfl))) _
  | cons m members => exact delimited_cons (.inl rfl) _

theorem render_head (v : Value) :
    ∃ ch bs, v.render = ch :: bs ∧ isWs ch = false ∧ ch ≠ 0x5D ∧ ch ≠ 0x7D := by
  cases v with
  | null => exact ⟨_, _, rfl, by decide, by decide, by decide⟩
  | bool b => cases b <;> exact ⟨_, _, rfl, by decide, by decide, by decide⟩
  | number n =>
    obtain ⟨ch, bs, hbytes, hch⟩ := number_head n
    refine ⟨ch, bs, hbytes, ?_, ?_, ?_⟩
    · rcases hch with rfl | hch
      · decide
      · by_contra hws
        rw [Bool.not_eq_false, isWs] at hws
        simp only [Bool.or_eq_true, beq_iff_eq] at hws
        rcases hws with ((rfl | rfl) | rfl) | rfl <;> exact absurd hch (by decide)
    · rintro rfl
      exact absurd hch (by decide)
    · rintro rfl
      exact absurd hch (by decide)
  | string s => exact ⟨_, _, rfl, by decide, by decide, by decide⟩
  | array gap elems => exact ⟨_, _, rfl, by decide, by decide, by decide⟩
  | object gap members => exact ⟨_, _, rfl, by decide, by decide, by decide⟩

theorem skipWs_render (v : Value) (c : List UInt8) : skipWs (v.render ++ c) = v.render ++ c := by
  obtain ⟨ch, bs, hv, hws, -⟩ := render_head v
  rw [hv, cons_append, skipWs_cons hws]

theorem skipWs_elemsTail (elems : List (Padded Value)) :
    skipWs (Value.renderElemsTail elems) = Value.renderElemsTail elems := by
  cases elems with
  | nil => exact skipWs_cons (by decide) _
  | cons e elems => exact skipWs_cons (by decide) _

theorem skipWs_membersTail (members : List (Member Value)) :
    skipWs (Value.renderMembersTail members) = Value.renderMembersTail members := by
  cases members with
  | nil => exact skipWs_cons (by decide) _
  | cons m members => exact skipWs_cons (by decide) _

theorem lexValue_padded (before : Ws) (v : Value) (after : Ws) (h : Delimited rest) :
    lexValue (skipWs (before.bytes ++ (v.render ++ (after.bytes ++ rest)))) =
      .ok (valueNode v, after.bytes ++ rest) := by
  rw [skipWs_ws, skipWs_render]
  exact lexValue_render v (delimited_ws_append after h)

/-! ### Members -/

theorem objectLoop_step (key : List UInt8) (gap : Ws) (m : Member Value)
    (members : List (Member Value)) (fuel : ℕ) :
    objectLoop key (fuel + 1) (Value.renderMembers gap (m :: members)) =
      if memberHasKey key m then .ok (valueNode m.value)
      else
        match members with
        | [] => .error .notFound
        | m :: members => objectLoop key fuel (Value.renderMembers gap (m :: members)) := by
  obtain ⟨before, key', afterKey, beforeValue, value, after⟩ := m
  have hvalue := lexValue_padded beforeValue value after (delimited_membersTail members)
  have hmatch : ((if key'.escaped then JsonNodeFlag.strEscaped else .none) ≠ .strEscaped ∧
      key'.bytes = key) ↔ memberHasKey key ⟨before, key', afterKey, beforeValue, value, after⟩ := by
    rw [memberHasKey]
    cases key'.escaped <;> simp
  rw [Value.renderMembers, objectLoop, skipWs_ws, skipWs_cons (by decide), lexStringSpan_bytes]
  dsimp only
  rw [skipWs_ws, skipWs_cons (by decide)]
  dsimp only
  rw [if_neg (by decide), hvalue]
  dsimp only
  rw [skipWs_ws, skipWs_membersTail]
  by_cases hkey : memberHasKey key ⟨before, key', afterKey, beforeValue, value, after⟩ = true
  · rw [if_pos (hmatch.mpr hkey), if_pos hkey]
  · rw [if_neg (mt hmatch.mp hkey), if_neg hkey]
    cases members <;> rfl

theorem objectLoop_members (key : List UInt8) (gap : Ws) (members : List (Member Value)) :
    ∀ (m : Member Value) (fuel : ℕ), members.length < fuel →
      objectLoop key fuel (Value.renderMembers gap (m :: members)) =
        match (m :: members).find? (memberHasKey key) with
        | none => .error .notFound
        | some m => .ok (valueNode m.value) := by
  induction members with
  | nil =>
    intro m fuel hfuel
    obtain ⟨fuel, rfl⟩ : ∃ k, fuel = k + 1 := ⟨fuel - 1, by rw [length_nil] at hfuel; omega⟩
    rw [objectLoop_step, find?_cons]
    cases memberHasKey key m <;> rfl
  | cons m' members ih =>
    intro m fuel hfuel
    rw [length_cons] at hfuel
    obtain ⟨fuel, rfl⟩ : ∃ k, fuel = k + 1 := ⟨fuel - 1, by omega⟩
    rw [objectLoop_step, find?_cons]
    cases memberHasKey key m with
    | true => rfl
    | false => exact ih m' fuel (by omega)

theorem length_le_renderMembersTail (members : List (Member Value)) :
    members.length ≤ (Value.renderMembersTail members).length := by
  induction members with
  | nil => exact Nat.zero_le _
  | cons m members ih =>
    rw [Value.renderMembersTail]
    simp only [length_cons, length_append]
    omega

theorem objectStep_node (key : List UInt8) (v : Value) :
    objectStep (valueNode v) key =
      match v with
      | .object _ members =>
        match members.find? (memberHasKey key) with
        | none => .error .notFound
        | some m => .ok (valueNode m.value)
      | _ => .error .type := by
  cases v with
  | null | number n | string s | array gap elems => rfl
  | bool b => cases b <;> rfl
  | object gap members =>
    show (if (skipWs (Value.renderMembers gap members)).head? = some 0x7D then _
      else objectLoop key (Value.renderMembers gap members).length _) = _
    cases members with
    | nil =>
      rw [Value.renderMembers, skipWs_ws, skipWs_cons (by decide)]
      rfl
    | cons m members =>
      have hfuel : members.length < (Value.renderMembers gap (m :: members)).length := by
        have := length_le_renderMembersTail members
        rw [Value.renderMembers]
        simp only [length_append, length_cons]
        omega
      have hhead : (skipWs (Value.renderMembers gap (m :: members))).head? = some 0x22 := by
        rw [Value.renderMembers, skipWs_ws, skipWs_cons (by decide)]
        rfl
      rw [hhead, if_neg (by decide), objectLoop_members key gap members m _ hfuel]

/-! ### Elements -/

theorem arrayLoop_elems (gap : Ws) (elems : List (Padded Value)) :
    ∀ (e : Padded Value) (want : ℕ), arrayLoop want (Value.renderElems gap (e :: elems)) =
      match (e :: elems)[want]? with
      | none => .error .notFound
      | some e => .ok (valueNode e.value) := by
  induction elems with
  | nil =>
    rintro ⟨before, value, after⟩ want
    have hvalue := lexValue_padded before value after (delimited_elemsTail [])
    rw [Value.renderElems, arrayLoop.eq_def]
    dsimp only
    rw [hvalue]
    cases want with
    | zero => rfl
    | succ want =>
      dsimp only
      rw [skipWs_ws, skipWs_elemsTail]
      rfl
  | cons e' elems ih =>
    rintro ⟨before, value, after⟩ want
    have hvalue := lexValue_padded before value after (delimited_elemsTail (e' :: elems))
    rw [Value.renderElems, arrayLoop.eq_def]
    dsimp only
    rw [hvalue]
    cases want with
    | zero => rfl
    | succ want =>
      dsimp only
      rw [skipWs_ws, skipWs_elemsTail]
      exact ih e' want

theorem renderElems_head (gap : Ws) (e : Padded Value) (elems : List (Padded Value)) :
    ∃ ch bs, skipWs (Value.renderElems gap (e :: elems)) = ch :: bs ∧ ch ≠ 0x5D := by
  obtain ⟨before, value, after⟩ := e
  obtain ⟨ch, bs, hv, -, hne, -⟩ := render_head value
  rw [Value.renderElems, skipWs_ws, skipWs_render, hv]
  exact ⟨ch, _, rfl, hne⟩

theorem arrayStep_node (want : ℕ) (v : Value) :
    arrayStep (valueNode v) want =
      match v with
      | .array _ elems =>
        match elems[want]? with
        | none => .error .notFound
        | some e => .ok (valueNode e.value)
      | _ => .error .type := by
  cases v with
  | null | number n | string s | object gap members => rfl
  | bool b => cases b <;> rfl
  | array gap elems =>
    show (if (skipWs (Value.renderElems gap elems)).head? = some 0x5D then _
      else arrayLoop want (Value.renderElems gap elems)) = _
    cases elems with
    | nil =>
      rw [Value.renderElems, skipWs_ws, skipWs_cons (by decide)]
      rfl
    | cons e elems =>
      obtain ⟨ch, bs, hch, hne⟩ := renderElems_head gap e elems
      rw [hch, head?_cons, if_neg (by simpa using hne), arrayLoop_elems]

theorem iterOpenArray_node (v : Value) :
    iterOpenArray (valueNode v) =
      match v with
      | .array gap elems => .ok (Value.renderElems gap elems)
      | _ => .error .type := by
  cases v with
  | null | number n | string s | object gap members | array gap elems => rfl
  | bool b => cases b <;> rfl

def takeElem (elems : List (Padded Value)) : Except JsonErr (JsonNode × List UInt8) :=
  match elems with
  | [] => .error .notFound
  | e :: elems => .ok (valueNode e.value, e.after.bytes ++ Value.renderElemsTail elems)

theorem iterTake_first (gap : Ws) (elems : List (Padded Value)) :
    iterTake false (Value.renderElems gap elems) = takeElem elems := by
  cases elems with
  | nil =>
    rw [Value.renderElems, iterTake, skipWs_ws, skipWs_cons (by decide)]
    rfl
  | cons e elems =>
    obtain ⟨ch, bs, hch, hne⟩ := renderElems_head gap e elems
    have hvalue := lexValue_padded e.before e.value e.after (delimited_elemsTail elems)
    rw [iterTake, hch]
    dsimp only
    rw [if_neg hne, ← hch, if_neg (by decide)]
    exact hvalue

theorem iterTake_next (w : Ws) (elems : List (Padded Value)) :
    iterTake true (w.bytes ++ Value.renderElemsTail elems) = takeElem elems := by
  rw [iterTake, skipWs_ws, skipWs_elemsTail]
  cases elems with
  | nil => rfl
  | cons e elems =>
    exact lexValue_padded e.before e.value e.after (delimited_elemsTail elems)

/-! ## The frame stack -/

/-- What is left to try in the open arrays, innermost first: the parts after each array's own, and
its elements that have not been taken. -/
def evalFrames : List (List QueryPart × List (Padded Value)) → Outcome
  | [] => .notFound
  | (parts, elems) :: stack => (firstOutcome (evalParts parts) elems).orElse (evalFrames stack)

/-- The frames of the evaluator, and the arrays that they have open. A frame is opened only while
there is room for all the `QUERY_ITER` parts that are still to come. -/
inductive Frames (parts : List QueryPart) :
    List IterFrame → List (List QueryPart × List (Padded Value)) → Prop
  | nil : Frames parts [] []
  | cons {frames : List IterFrame} {stack : List (List QueryPart × List (Padded Value))}
      (below : Frames parts frames stack) (i : ℕ) (w : Ws) (elems : List (Padded Value))
      (room : frames.length + 1 + iterCount (parts.drop (i + 1)) ≤ jsonIterMaxFrames) :
      Frames parts (⟨i, w.bytes ++ Value.renderElemsTail elems, true⟩ :: frames)
        ((parts.drop (i + 1), elems) :: stack)

def unread (frames : List IterFrame) : ℕ := (frames.map fun f => f.rest.length).sum

/-- What `apply_from` has come to: a result, or the wrong type, or nothing yet, with the arrays that
are still to be searched in the frames. -/
inductive Applied (parts : List QueryPart) (o : Outcome) (bytes : ℕ) :
    Except JsonErr JsonNode × List IterFrame → Prop
  | found {v : Value} {frames : List IterFrame} (h : o = .found v) :
      Applied parts o bytes (.ok (valueNode v), frames)
  | notFound {frames : List IterFrame} {stack : List (List QueryPart × List (Padded Value))}
      (h : o = evalFrames stack) (open_ : Frames parts frames stack) (bound : unread frames ≤ bytes) :
      Applied parts o bytes (.error .notFound, frames)
  | wrongType {frames : List IterFrame} (h : o = .wrongType) :
      Applied parts o bytes (.error .type, frames)

theorem Applied.mono {parts : List QueryPart} {o : Outcome} {bytes bytes' : ℕ}
    {r : Except JsonErr JsonNode × List IterFrame} (h : Applied parts o bytes r)
    (hle : bytes ≤ bytes') : Applied parts o bytes' r := by
  cases h with
  | found h => exact .found h
  | notFound h hopen hbound => exact .notFound h hopen (hbound.trans hle)
  | wrongType h => exact .wrongType h

@[simp] theorem unread_cons (f : IterFrame) (frames : List IterFrame) :
    unread (f :: frames) = f.rest.length + unread frames := by
  rw [unread, map_cons, sum_cons, unread]

theorem evalFrames_cons (parts : List QueryPart) (e : Padded Value) (elems : List (Padded Value))
    (stack : List (List QueryPart × List (Padded Value))) :
    evalFrames ((parts, e :: elems) :: stack) =
      (evalParts parts e.value).orElse (evalFrames ((parts, elems) :: stack)) :=
  Outcome.orElse_assoc _ _ _

theorem render_length_le_members {members : List (Member Value)} {m : Member Value}
    (hm : m ∈ members) : m.value.render.length ≤ (Value.renderMembersTail members).length := by
  induction members with
  | nil => cases hm
  | cons m' members ih =>
    rw [Value.renderMembersTail]
    simp only [length_cons, length_append]
    rcases mem_cons.mp hm with rfl | hm
    · omega
    · have := ih hm
      omega

theorem render_length_le_elems {elems : List (Padded Value)} {e : Padded Value}
    (he : e ∈ elems) : e.value.render.length ≤ (Value.renderElemsTail elems).length := by
  induction elems with
  | nil => cases he
  | cons e' elems ih =>
    rw [Value.renderElemsTail]
    simp only [length_cons, length_append]
    rcases mem_cons.mp he with rfl | he
    · omega
    · have := ih he
      omega

theorem length_member_value (gap : Ws) {members : List (Member Value)} {m : Member Value}
    (hm : m ∈ members) : m.value.render.length ≤ (Value.object gap members).render.length := by
  have hle := render_length_le_members hm
  cases members with
  | nil => cases hm
  | cons m' members =>
    have htail : Value.renderMembersTail (m' :: members) =
      0x2C :: Value.renderMembers gap (m' :: members) := rfl
    rw [htail, length_cons] at hle
    rwa [Value.render, length_cons]

theorem length_elem_value (gap : Ws) {elems : List (Padded Value)} {e : Padded Value}
    (he : e ∈ elems) : e.value.render.length ≤ (Value.array gap elems).render.length := by
  have hle := render_length_le_elems he
  cases elems with
  | nil => cases he
  | cons e' elems =>
    have htail : Value.renderElemsTail (e' :: elems) =
      0x2C :: Value.renderElems gap (e' :: elems) := rfl
    rw [htail, length_cons] at hle
    rwa [Value.render, length_cons]

theorem length_first_elem (gap : Ws) (e : Padded Value) (elems : List (Padded Value)) :
    (e.after.bytes ++ Value.renderElemsTail elems).length + e.value.render.length ≤
      (Value.array gap (e :: elems)).render.length := by
  rw [Value.render, Value.renderElems]
  simp only [length_cons, length_append]
  omega

theorem drop_succ_of_drop {parts tail : List QueryPart} {part : QueryPart} {i : ℕ}
    (h : parts.drop i = part :: tail) : parts.drop (i + 1) = tail := by
  rw [← tail_drop, h, tail_cons]

/-- **`apply_from` evaluates the rest of the query on one value**, up to what it leaves in the
frames. -/
theorem applyFrom_applied (parts : List QueryPart) (tail : List QueryPart) :
    ∀ (i : ℕ) (v : Value) {frames : List IterFrame}
      {stack : List (List QueryPart × List (Padded Value))}, parts.drop i = tail →
      Frames parts frames stack → frames.length + iterCount tail ≤ jsonIterMaxFrames →
      Applied parts ((evalParts tail v).orElse (evalFrames stack)) (unread frames + v.render.length)
        (applyFrom tail i (valueNode v) frames) := by
  induction tail with
  | nil =>
    intro i v frames stack hdrop hframes hroom
    exact .found rfl
  | cons part tail ih =>
    intro i v frames stack hdrop hframes hroom
    have htail := drop_succ_of_drop hdrop
    -- the outcome of a failure to find anything, and of a value of the wrong type
    have hmissing : Applied parts (Outcome.notFound.orElse (evalFrames stack))
        (unread frames + v.render.length) (.error .notFound, frames) :=
      .notFound rfl hframes (Nat.le_add_right _ _)
    have hwrong : Applied parts (Outcome.wrongType.orElse (evalFrames stack))
        (unread frames + v.render.length) (.error .type, frames) := .wrongType rfl
    cases part with
    | key key =>
      have hroom' : frames.length + iterCount tail ≤ jsonIterMaxFrames := hroom
      rw [applyFrom, objectStep_node]
      cases v with
      | null | bool b | number n | string s | array gap elems => exact hwrong
      | object gap members =>
        rw [evalParts]
        dsimp only
        cases hfind : members.find? (memberHasKey key) with
        | none => exact hmissing
        | some m =>
          have hlen := length_member_value gap (mem_of_find?_eq_some hfind)
          exact (ih (i + 1) m.value htail hframes hroom').mono (by omega)
    | index k =>
      have hroom' : frames.length + iterCount tail ≤ jsonIterMaxFrames := hroom
      rw [applyFrom, arrayStep_node]
      cases v with
      | null | bool b | number n | string s | object gap members => exact hwrong
      | array gap elems =>
        rw [evalParts]
        dsimp only
        cases hget : elems[k]? with
        | none => exact hmissing
        | some e =>
          have hlen := length_elem_value gap (mem_of_getElem? hget)
          exact (ih (i + 1) e.value htail hframes hroom').mono (by omega)
    | iter =>
      have hroom' : frames.length + (iterCount tail + 1) ≤ jsonIterMaxFrames := by
        simpa only [iterCount, countP_cons, QueryPart.isIter, if_true] using hroom
      rw [applyFrom, if_neg (by omega), iterOpenArray_node]
      cases v with
      | null | bool b | number n | string s | object gap members => exact hwrong
      | array gap elems =>
        rw [evalParts]
        dsimp only
        rw [iterTake_first]
        cases elems with
        | nil => exact hmissing
        | cons e elems =>
          have hframes' := hframes.cons i e.after elems (by rw [htail]; omega)
          rw [htail] at hframes'
          have hlen := length_first_elem gap e elems
          have happlied := ih (i + 1) e.value htail hframes' (by rw [length_cons]; omega)
          rw [← evalFrames_cons] at happlied
          exact happlied.mono (by rw [unread_cons]; dsimp only; omega)
    | whereHolds holds =>
      have hroom' : frames.length + iterCount tail ≤ jsonIterMaxFrames := hroom
      rw [applyFrom, evalParts.eq_def]
      dsimp only
      by_cases hholds : holds (valueNode v) = true
      · rw [if_pos hholds, if_pos hholds]
        exact ih (i + 1) v htail hframes hroom'
      · rw [if_neg hholds, if_neg hholds]
        exact hmissing

/-- **`backtrack_iter` finds the first result in the open arrays.** Every round takes a byte from
them at least. -/
theorem backtrackIter_frames (parts : List QueryPart) (fuel : ℕ) :
    ∀ {frames : List IterFrame} {stack : List (List QueryPart × List (Padded Value))},
      Frames parts frames stack → unread frames < fuel →
      (backtrackIter parts fuel frames).1 = (evalFrames stack).result := by
  induction fuel with
  | zero =>
    intro frames stack _ hfuel
    omega
  | succ fuel ih =>
    intro frames stack hframes hfuel
    cases hframes with
    | nil => rfl
    | @cons frames stack below i w elems room =>
      rw [unread_cons, length_append] at hfuel
      rw [backtrackIter]
      dsimp only
      rw [iterTake_next]
      cases elems with
      | nil =>
        have hend : (Value.renderElemsTail []).length = 1 := rfl
        have hbelow := ih below (by omega)
        exact hbelow
      | cons e elems =>
        have happlied := applyFrom_applied parts _ (i + 1) e.value rfl
          (below.cons i e.after elems room) (by rw [length_cons]; omega)
        have hlen : (Value.renderElemsTail (e :: elems)).length = e.before.bytes.length +
            (e.value.render.length + (e.after.bytes ++ Value.renderElemsTail elems).length) + 1 := by
          rw [Value.renderElemsTail]
          simp only [length_cons, length_append]
        rw [← evalFrames_cons, unread_cons] at happlied
        dsimp only [takeElem] at happlied ⊢
        generalize applyFrom _ _ _ _ = r at happlied
        cases happlied with
        | found h => rw [h]; rfl
        | notFound h hopen hbound => rw [h]; exact ih hopen (by omega)
        | wrongType h => rw [h]; rfl

/-! ## The result -/

theorem resolveParts_document {src : List UInt8} {parts : List QueryPart} (h : Document v src)
    (hiters : iterCount parts ≤ jsonIterMaxFrames) :
    resolveParts src parts = (evalParts parts v).result := by
  obtain ⟨before, after, rfl⟩ := h
  have hlex : lexValue (skipWs (before.bytes ++ (v.render ++ after.bytes))) =
      .ok (valueNode v, after.bytes) := by
    rw [skipWs_ws, skipWs_render]
    refine lexValue_render v ?_
    have := delimited_ws_append after delimited_nil
    rwa [append_nil] at this
  have happlied := applyFrom_applied parts parts 0 v rfl .nil (by rwa [length_nil, zero_add])
  rw [evalFrames, Outcome.orElse_notFound] at happlied
  have hlen : v.render.length ≤ (before.bytes ++ (v.render ++ after.bytes)).length := by
    simp only [length_append]
    omega
  rw [resolveParts, hlex]
  dsimp only [firstResult]
  generalize applyFrom parts 0 (valueNode v) [] = r at happlied
  cases happlied with
  | found h => rw [h]; rfl
  | wrongType h => rw [h]; rfl
  | @notFound frames stack h hopen hbound =>
    rw [h]
    cases hopen with
    | nil => rfl
    | cons below i w elems room =>
      refine backtrackIter_frames parts _ (below.cons i w elems room) ?_
      have : unread [] = 0 := rfl
      omega

/-- **`json_resolve` returns the first result of the reference evaluation**, on every well-formed
document and for every query whose `QUERY_ITER` parts fit the frame stack. -/
theorem jsonResolve_document {src : List UInt8} {query : List JsonQuery} (h : Document v src)
    (hiters : iterCount (JsonQuery.parts query) ≤ jsonIterMaxFrames) :
    jsonResolve src query = (evalParts (JsonQuery.parts query) v).result :=
  resolveParts_document h hiters

def noWs : Ws := ⟨[], fun _ h => nomatch h⟩

def itemA : StringItem := .plain 0x61 (by decide) (by decide) (by decide)

def nestedArrays : Value :=
  let b := fun elems => Value.object noWs [⟨noWs,
    [.plain 0x62 (by decide) (by decide) (by decide)], noWs, noWs, .array noWs elems, noWs⟩]
  .object noWs [⟨noWs, [itemA], noWs, noWs,
    .array noWs [⟨noWs, b [], noWs⟩, ⟨noWs, b [⟨noWs, .null, noWs⟩], noWs⟩], noWs⟩]

theorem jsonResolve_nestedArrays :
    jsonResolve nestedArrays.render [.key [0x61], .iter, .key [0x62], .iter] =
      .ok ⟨.null, .none, kwNull⟩ :=
  have h : Document nestedArrays nestedArrays.render := ⟨noWs, noWs, (append_nil _).symm⟩
  have hiters : iterCount (JsonQuery.parts [.key [0x61], .iter, .key [0x62], .iter]) ≤
    jsonIterMaxFrames := by decide
  jsonResolve_document h hiters

end Damacy

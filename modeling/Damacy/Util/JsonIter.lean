import Damacy.Util.JsonResolve

/-!
# The result stream of `json_iter_next`

`allResults` is the whole stream of a query on a value, in document order. The iterator keeps the
arrays that are still open in its frames; what `Frames` says of them determines the results that are
left (`allFrames`), and `json_iter_next` takes the first of these.

An iterator tells its first call by an empty frame stack. A query without a `QUERY_ITER` part opens
no frame, so that its only result is produced again by every call.
-/

open List JsonText

namespace Damacy

/-! ## All results of a query -/

/-- All results over the elements of an array, unless a value of the wrong type is met. -/
def allElems (eval : Value → Option (List Value)) : List (Padded Value) → Option (List Value)
  | [] => some []
  | e :: elems => do
    let results ← eval e.value
    let rest ← allElems eval elems
    return results ++ rest

/-- The reference evaluation: all results in document order, or `none` if a value of the wrong type
is met. -/
def allResults : List QueryPart → Value → Option (List Value)
  | [], v => some [v]
  | .key key :: parts, .object _ members =>
    match members.find? (memberHasKey key) with
    | none => some []
    | some m => allResults parts m.value
  | .key _ :: _, _ => none
  | .index i :: parts, .array _ elems =>
    match elems[i]? with
    | none => some []
    | some e => allResults parts e.value
  | .index _ :: _, _ => none
  | .iter :: parts, .array _ elems => allElems (allResults parts) elems
  | .iter :: _, _ => none
  | .whereHolds holds :: parts, v => if holds (valueNode v) then allResults parts v else some []

def allFrames : List (List QueryPart × List (Padded Value)) → Option (List Value)
  | [] => some []
  | (parts, elems) :: stack => do
    let results ← allElems (allResults parts) elems
    let rest ← allFrames stack
    return results ++ rest

theorem allFrames_nil_elems (parts : List QueryPart)
    (stack : List (List QueryPart × List (Padded Value))) :
    allFrames ((parts, []) :: stack) = allFrames stack := by
  cases h : allFrames stack <;> simp [allFrames, allElems, h]

theorem allFrames_cons_eq_some {parts : List QueryPart} {e : Padded Value}
    {elems : List (Padded Value)} {stack : List (List QueryPart × List (Padded Value))}
    {results : List Value} :
    allFrames ((parts, e :: elems) :: stack) = some results ↔
      ∃ rs rest, allResults parts e.value = some rs ∧
        allFrames ((parts, elems) :: stack) = some rest ∧ results = rs ++ rest := by
  simp only [allFrames, allElems, Option.bind_eq_bind, Option.pure_def, Option.bind_eq_some_iff,
    Option.some.injEq]
  constructor
  · rintro ⟨_, ⟨rs, hrs, others, hothers, rfl⟩, rest, hrest, rfl⟩
    exact ⟨rs, _, hrs, ⟨others, hothers, rest, hrest, rfl⟩, append_assoc _ _ _⟩
  · rintro ⟨rs, _, hrs, ⟨others, hothers, rest, hrest, rfl⟩, rfl⟩
    exact ⟨_, ⟨rs, hrs, others, hothers, rfl⟩, rest, hrest, append_assoc _ _ _⟩

/-! ## The evaluator -/

/-- What the evaluator has come to with the results `results` ahead of it: the first of them, with
the others in the open arrays, or nothing yet, with all of them in the open arrays. -/
inductive Streamed (parts : List QueryPart) (results : List Value) (depth bytes : ℕ) :
    Except JsonErr JsonNode × List IterFrame → Prop
  | found {r : Value} {rest : List Value} {frames : List IterFrame}
      {stack : List (List QueryPart × List (Padded Value))} (first : results = r :: rest)
      (open_ : Frames parts frames stack) (left : allFrames stack = some rest)
      (length : frames.length = depth) (bound : unread frames ≤ bytes) :
      Streamed parts results depth bytes (.ok (valueNode r), frames)
  | notFound {frames : List IterFrame} {stack : List (List QueryPart × List (Padded Value))}
      (open_ : Frames parts frames stack) (left : allFrames stack = some results)
      (length : frames.length ≤ depth) (bound : unread frames ≤ bytes) :
      Streamed parts results depth bytes (.error .notFound, frames)

theorem Streamed.mono {parts : List QueryPart} {results : List Value} {depth bytes bytes' : ℕ}
    {r : Except JsonErr JsonNode × List IterFrame} (h : Streamed parts results depth bytes r)
    (hle : bytes ≤ bytes') : Streamed parts results depth bytes' r := by
  cases h with
  | found first hopen hleft hlength hbound =>
    exact .found first hopen hleft hlength (hbound.trans hle)
  | notFound hopen hleft hlength hbound => exact .notFound hopen hleft hlength (hbound.trans hle)

theorem applyFrom_streamed (parts : List QueryPart) (tail : List QueryPart) :
    ∀ (i : ℕ) (v : Value) {frames : List IterFrame}
      {stack : List (List QueryPart × List (Padded Value))} {results rest : List Value},
      parts.drop i = tail → Frames parts frames stack →
      frames.length + iterCount tail ≤ jsonIterMaxFrames → allResults tail v = some results →
      allFrames stack = some rest →
      Streamed parts (results ++ rest) (frames.length + iterCount tail)
        (unread frames + v.render.length) (applyFrom tail i (valueNode v) frames) := by
  induction tail with
  | nil =>
    intro i v frames stack results rest hdrop hframes hroom hresults hrest
    obtain rfl := Option.some.inj hresults
    exact .found rfl hframes hrest rfl (Nat.le_add_right _ _)
  | cons part tail ih =>
    intro i v frames stack results rest hdrop hframes hroom hresults hrest
    have htail := drop_succ_of_drop hdrop
    have hmissing : ∀ n, Streamed parts ([] ++ rest) (frames.length + n)
        (unread frames + v.render.length) (.error .notFound, frames) :=
      fun n => .notFound hframes hrest (Nat.le_add_right _ _) (Nat.le_add_right _ _)
    cases part with
    | key key =>
      rw [applyFrom, objectStep_node]
      cases v with
      | null | bool b | number n | string s | array gap elems => cases hresults
      | object gap members =>
        rw [allResults] at hresults
        dsimp only
        cases hfind : members.find? (memberHasKey key) with
        | none =>
          rw [hfind] at hresults
          obtain rfl := Option.some.inj hresults
          exact hmissing _
        | some m =>
          rw [hfind] at hresults
          have hlen := length_member_value gap (mem_of_find?_eq_some hfind)
          exact (ih (i + 1) m.value htail hframes hroom hresults hrest).mono (by omega)
    | index k =>
      rw [applyFrom, arrayStep_node]
      cases v with
      | null | bool b | number n | string s | object gap members => cases hresults
      | array gap elems =>
        rw [allResults] at hresults
        dsimp only
        cases hget : elems[k]? with
        | none =>
          rw [hget] at hresults
          obtain rfl := Option.some.inj hresults
          exact hmissing _
        | some e =>
          rw [hget] at hresults
          have hlen := length_elem_value gap (mem_of_getElem? hget)
          exact (ih (i + 1) e.value htail hframes hroom hresults hrest).mono (by omega)
    | iter =>
      have hcount : iterCount (.iter :: tail) = iterCount tail + 1 := countP_cons_of_pos rfl
      rw [hcount] at hroom ⊢
      rw [applyFrom, if_neg (by omega), iterOpenArray_node]
      cases v with
      | null | bool b | number n | string s | object gap members => cases hresults
      | array gap elems =>
        rw [allResults] at hresults
        dsimp only
        rw [iterTake_first]
        cases elems with
        | nil =>
          obtain rfl := Option.some.inj hresults
          exact hmissing _
        | cons e elems =>
          have hframes' := hframes.cons i e.after elems (by rw [htail]; omega)
          rw [htail] at hframes'
          have hlen := length_first_elem gap e elems
          -- the results of the array are those of its first element and those left in its frame
          have hall : allFrames ((tail, e :: elems) :: stack) = some (results ++ rest) := by
            simp [allFrames, hresults, hrest]
          obtain ⟨rs, others, hrs, hothers, heq⟩ := allFrames_cons_eq_some.mp hall
          have happlied := ih (i + 1) e.value htail hframes' (by rw [length_cons]; omega) hrs
            hothers
          rw [← heq, length_cons, Nat.add_right_comm, Nat.add_assoc] at happlied
          exact happlied.mono (by rw [unread_cons]; dsimp only; omega)
    | whereHolds holds =>
      rw [applyFrom]
      rw [allResults] at hresults
      by_cases hholds : holds (valueNode v) = true
      · rw [if_pos hholds] at hresults ⊢
        exact ih (i + 1) v htail hframes hroom hresults hrest
      · rw [if_neg hholds] at hresults ⊢
        obtain rfl := Option.some.inj hresults
        exact hmissing _

/-- What `backtrack_iter` does with the results that the open arrays hold: it takes the first one and
leaves the others in a nonempty stack, or it empties the stack. -/
inductive Backtracked (parts : List QueryPart) (bytes : ℕ) :
    List Value → Except JsonErr JsonNode × List IterFrame → Prop
  | found {r : Value} {rest : List Value} {frames : List IterFrame}
      {stack : List (List QueryPart × List (Padded Value))} (open_ : Frames parts frames stack)
      (left : allFrames stack = some rest) (ne_nil : frames ≠ []) (bound : unread frames ≤ bytes) :
      Backtracked parts bytes (r :: rest) (.ok (valueNode r), frames)
  | exhausted : Backtracked parts bytes [] (.error .notFound, [])

theorem Backtracked.mono {parts : List QueryPart} {results : List Value} {bytes bytes' : ℕ}
    {r : Except JsonErr JsonNode × List IterFrame} (h : Backtracked parts bytes results r)
    (hle : bytes ≤ bytes') : Backtracked parts bytes' results r := by
  cases h with
  | found hopen hleft hne hbound => exact .found hopen hleft hne (hbound.trans hle)
  | exhausted => exact .exhausted

theorem backtrackIter_backtracked (parts : List QueryPart) (fuel : ℕ) :
    ∀ {frames : List IterFrame} {stack : List (List QueryPart × List (Padded Value))}
      {results : List Value}, Frames parts frames stack → unread frames < fuel →
      allFrames stack = some results →
      Backtracked parts (unread frames) results (backtrackIter parts fuel frames) := by
  induction fuel with
  | zero =>
    intro frames stack results _ hfuel
    omega
  | succ fuel ih =>
    intro frames stack results hframes hfuel hresults
    cases hframes with
    | nil =>
      obtain rfl := Option.some.inj hresults
      exact .exhausted
    | @cons frames stack below i w elems room =>
      rw [unread_cons, length_append] at hfuel ⊢
      rw [backtrackIter]
      dsimp only
      rw [iterTake_next]
      cases elems with
      | nil =>
        have hend : (Value.renderElemsTail []).length = 1 := rfl
        rw [allFrames_nil_elems] at hresults
        exact (ih below (by omega) hresults).mono (by omega)
      | cons e elems =>
        obtain ⟨rs, others, hrs, hothers, rfl⟩ := allFrames_cons_eq_some.mp hresults
        have happlied := applyFrom_streamed parts _ (i + 1) e.value rfl
          (below.cons i e.after elems room) (by rw [length_cons]; omega) hrs hothers
        have hlen : (Value.renderElemsTail (e :: elems)).length = e.before.bytes.length +
            (e.value.render.length + (e.after.bytes ++ Value.renderElemsTail elems).length) + 1 := by
          rw [Value.renderElemsTail]
          simp only [length_cons, length_append]
        rw [unread_cons, length_cons] at happlied
        dsimp only [takeElem] at happlied ⊢
        generalize applyFrom _ _ _ _ = r at happlied
        generalize rs ++ others = results at happlied
        cases happlied with
        | found first hopen hleft hlength hbound =>
          rw [first]
          refine .found hopen hleft ?_ (by omega)
          rintro rfl
          rw [length_nil] at hlength
          omega
        | notFound hopen hleft hlength hbound =>
          exact (ih hopen (by omega) hleft).mono (by omega)

/-! ## The stream -/

/-- What call `n` of `json_iter_next` returns, counted from `0`. -/
def jsonIterCall : ℕ → JsonIter → Except JsonErr JsonNode
  | 0, it => (jsonIterNext it).1
  | n + 1, it => jsonIterCall n (jsonIterNext it).2

/-- Call `n` returns result `n`, and the calls after the last result return `JSON_ERR_NOT_FOUND`. -/
def IterStreams (it : JsonIter) (results : List Value) : Prop :=
  ∀ n, jsonIterCall n it = match results[n]? with
    | some r => .ok (valueNode r)
    | none => .error .notFound

theorem iterStreams_nil {it : JsonIter} (h : (jsonIterNext it).1 = .error .notFound)
    (hnext : IterStreams (jsonIterNext it).2 []) : IterStreams it [] := by
  rintro (_ | n)
  · exact h
  · exact hnext n

theorem iterStreams_cons {it : JsonIter} {r : Value} {rest : List Value}
    (h : (jsonIterNext it).1 = .ok (valueNode r)) (hnext : IterStreams (jsonIterNext it).2 rest) :
    IterStreams it (r :: rest) := by
  rintro (_ | n)
  · exact h
  · exact hnext n

theorem iterStreams_done {it : JsonIter} (h : it.done = true) : IterStreams it [] := by
  have hnext : jsonIterNext it = (.error .notFound, it) := by rw [jsonIterNext, if_pos h]
  intro n
  induction n with
  | zero => rw [jsonIterCall, hnext]; rfl
  | succ n ih => rw [jsonIterCall, hnext]; exact ih

/-- **An iterator with open arrays streams what they hold.** -/
theorem iterStreams_frames {src : List UInt8} {parts : List QueryPart} (results : List Value) :
    ∀ {frames : List IterFrame} {stack : List (List QueryPart × List (Padded Value))},
      Frames parts frames stack → frames ≠ [] → unread frames ≤ src.length →
      allFrames stack = some results → IterStreams ⟨src, parts, frames, false⟩ results := by
  induction results with
  | nil =>
    intro frames stack hframes hne hbound hall
    have hback := backtrackIter_backtracked parts (src.length + 1) hframes (by omega) hall
    cases frames with
    | nil => exact absurd rfl hne
    | cons f frames =>
      have hnext : jsonIterNext ⟨src, parts, f :: frames, false⟩ =
          (.error .notFound, ⟨src, parts, [], true⟩) := by
        rw [jsonIterNext, if_neg Bool.false_ne_true]
        dsimp only
        generalize backtrackIter _ _ _ = r at hback
        cases hback
        rfl
      refine iterStreams_nil ?_ ?_ <;> rw [hnext]
      exact iterStreams_done rfl
  | cons r rest ih =>
    intro frames stack hframes hne hbound hall
    have hback := backtrackIter_backtracked parts (src.length + 1) hframes (by omega) hall
    cases frames with
    | nil => exact absurd rfl hne
    | cons f frames =>
      generalize hres : backtrackIter parts (src.length + 1) (f :: frames) = res at hback
      cases hback with
      | @found _ _ frames' stack' hopen hleft hne' hbound' =>
        have hnext : jsonIterNext ⟨src, parts, f :: frames, false⟩ =
            (.ok (valueNode r), ⟨src, parts, frames', false⟩) := by
          rw [jsonIterNext, if_neg Bool.false_ne_true]
          dsimp only
          rw [hres]
        refine iterStreams_cons ?_ ?_ <;> rw [hnext]
        exact ih hopen hne' (hbound'.trans hbound) hleft

theorem lexValue_document {v : Value} {src : List UInt8} (h : Document v src) :
    ∃ rest, lexValue (skipWs src) = .ok (valueNode v, rest) ∧ v.render.length ≤ src.length := by
  obtain ⟨before, after, rfl⟩ := h
  refine ⟨after.bytes, ?_, ?_⟩
  · rw [skipWs_ws, skipWs_render]
    refine lexValue_render v ?_
    have := delimited_ws_append after delimited_nil
    rwa [append_nil] at this
  · simp only [length_append]
    omega

section FirstCall

variable {v : Value} {src rest : List UInt8} {parts : List QueryPart}
  (hlex : lexValue (skipWs src) = .ok (valueNode v, rest))
include hlex

theorem jsonIterNext_first_ok {n : JsonNode} {frames : List IterFrame}
    (h : applyFrom parts 0 (valueNode v) [] = (.ok n, frames)) :
    jsonIterNext ⟨src, parts, [], false⟩ = (.ok n, ⟨src, parts, frames, false⟩) := by
  simp [jsonIterNext, hlex, h]

theorem jsonIterNext_first_missing (h : applyFrom parts 0 (valueNode v) [] = (.error .notFound, [])) :
    jsonIterNext ⟨src, parts, [], false⟩ = (.error .notFound, ⟨src, parts, [], true⟩) := by
  simp [jsonIterNext, hlex, h]

theorem jsonIterNext_first_backtrack {f : IterFrame} {frames : List IterFrame}
    (h : applyFrom parts 0 (valueNode v) [] = (.error .notFound, f :: frames))
    {r : Except JsonErr JsonNode × List IterFrame}
    (hback : backtrackIter parts (src.length + 1) (f :: frames) = r) :
    jsonIterNext ⟨src, parts, [], false⟩ = (r.1, ⟨src, parts, r.2, false⟩) := by
  simp [jsonIterNext, hlex, h, hback]

end FirstCall

theorem jsonIterCall_fixed {it : JsonIter} {r : Except JsonErr JsonNode}
    (h : jsonIterNext it = (r, it)) (n : ℕ) : jsonIterCall n it = r := by
  induction n with
  | zero => rw [jsonIterCall, h]
  | succ n ih => rw [jsonIterCall, h]; exact ih

/-- **The stream of `json_iter_next`.** On every well-formed document and for every query of at most
four `QUERY_ITER` parts whose evaluation meets no value of a wrong type, the calls return exactly
the results of the reference evaluation, in order, and then `JSON_ERR_NOT_FOUND`, if and only if the
query has a `QUERY_ITER` part or no result at all. -/
theorem jsonIterNext_streams_iff {v : Value} {src : List UInt8} {query : List JsonQuery}
    {results : List Value} (h : Document v src)
    (hiters : iterCount (JsonQuery.parts query) ≤ jsonIterMaxFrames)
    (hresults : allResults (JsonQuery.parts query) v = some results) :
    IterStreams (jsonIterInit src query) results ↔
      iterCount (JsonQuery.parts query) ≠ 0 ∨ results = [] := by
  rw [jsonIterInit]
  generalize JsonQuery.parts query = parts at hiters hresults
  obtain ⟨rest, hlex, hlen⟩ := lexValue_document h
  have hstreamed := applyFrom_streamed parts parts 0 v rfl .nil (by simpa using hiters) hresults rfl
  rw [append_nil, length_nil, Nat.zero_add, show unread [] = 0 from rfl,
    Nat.zero_add] at hstreamed
  generalize happly : applyFrom parts 0 (valueNode v) [] = r at hstreamed
  cases hstreamed with
  | @found r results' frames stack first hopen hleft hlength hbound =>
    have hfirst := jsonIterNext_first_ok hlex happly
    subst first
    by_cases hzero : iterCount parts = 0
    · -- no frame was opened: the iterator is where it was
      have hnil : frames = [] := length_eq_zero_iff.mp (hlength.trans hzero)
      subst hnil
      refine ⟨fun hstream => ?_, fun hcond => ?_⟩
      · have := hstream (r :: results').length
        rw [jsonIterCall_fixed hfirst, getElem?_eq_none le_rfl] at this
        cases this
      · rcases hcond with hne | hnil
        · exact absurd hzero hne
        · cases hnil
    · refine ⟨fun _ => .inl hzero, fun _ => iterStreams_cons ?_ ?_⟩ <;> rw [hfirst]
      refine iterStreams_frames results' hopen ?_ (hbound.trans hlen) hleft
      rintro rfl
      exact hzero hlength.symm
  | @notFound frames stack hopen hleft hlength hbound =>
    cases hopen with
    | nil =>
      obtain rfl := Option.some.inj hleft
      have hfirst := jsonIterNext_first_missing hlex happly
      refine ⟨fun _ => .inr rfl, fun _ => iterStreams_nil ?_ ?_⟩ <;> rw [hfirst]
      exact iterStreams_done rfl
    | @cons frames stack below i w elems room =>
      have hback := backtrackIter_backtracked parts (src.length + 1) (below.cons i w elems room)
        (by omega) hleft
      have hiter : iterCount parts ≠ 0 := by
        rw [length_cons] at hlength
        omega
      refine ⟨fun _ => .inl hiter, fun _ => ?_⟩
      generalize hr : backtrackIter parts (src.length + 1) _ = r at hback
      have hfirst := jsonIterNext_first_backtrack hlex happly hr
      cases hback with
      | found hopen' hleft' hne hbound' =>
        refine iterStreams_cons ?_ ?_ <;> rw [hfirst]
        exact iterStreams_frames _ hopen' hne (hbound'.trans (hbound.trans hlen)) hleft'
      | exhausted =>
        intro n
        rw [jsonIterCall_fixed hfirst]
        rfl

theorem document_nestedArrays : Document nestedArrays nestedArrays.render :=
  ⟨noWs, noWs, (append_nil _).symm⟩

/-- On `{"a":[{"b":[]},{"b":[null]}]}`, the query `.a.[].b` streams `[]` and `[null]`. -/
theorem jsonIterNext_streams_nested :
    IterStreams (jsonIterInit nestedArrays.render [.key [0x61], .iter, .key [0x62]])
      [.array noWs [], .array noWs [⟨noWs, .null, noWs⟩]] :=
  (jsonIterNext_streams_iff document_nestedArrays (by decide) rfl).mpr (.inl (by decide))

/-- On the same document, the query `.a` has one result, and the second call returns it again. -/
theorem jsonIterNext_repeats :
    Document nestedArrays nestedArrays.render ∧
    iterCount (JsonQuery.parts [.key [0x61]]) ≤ jsonIterMaxFrames ∧
    ∃ result, allResults (JsonQuery.parts [.key [0x61]]) nestedArrays = some [result] ∧
      jsonIterCall 1 (jsonIterInit nestedArrays.render [.key [0x61]]) = .ok (valueNode result) ∧
      ¬ IterStreams (jsonIterInit nestedArrays.render [.key [0x61]]) [result] := by
  refine ⟨document_nestedArrays, by decide, _, rfl, rfl, fun h => ?_⟩
  have hagain : jsonIterCall 1 (jsonIterInit nestedArrays.render [.key [0x61]]) =
      .error .notFound := h 1
  exact absurd hagain (by decide +kernel)

end Damacy

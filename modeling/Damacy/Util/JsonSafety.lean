import Mathlib.Data.List.DropRight
import Mathlib.Data.List.Forall2
import Damacy.Util.JsonBounds

/-!
# The reader on malformed sources

The evaluator and the iterator of `util/json.c` on any bytes whatever: they end, read nothing outside
of the source, and return spans inside of it. What they return is what `Damacy.Util.Json` has for the
bytes. The measure of `backtrack_iter` is what is unread in the open arrays: an element is opened for
less than has been taken for it, because its bracket is not part of what is left of it.
-/

open List JsonText BoundedReads

namespace Damacy.Cursor

variable {src : List UInt8} {limit : ℕ} {c d s : Slice}

/-! ## Objects and arrays -/

/-- What is found in a slice: `found` is the same in the bytes. -/
structure NodeRead (src : List UInt8) (s : Slice) (found : Except JsonErr JsonNode)
    (r : Except JsonErr Node) : Prop where
  inside : ∀ n, r = .ok n → n.s.Inside s
  agrees : found = r.map (Node.view src)

theorem NodeRead.fail (s : Slice) (e : JsonErr) : NodeRead src s (.error e) (.error e) := ⟨nofun, rfl⟩

theorem NodeRead.mono {found : Except JsonErr JsonNode} {r : Except JsonErr Node}
    (h : NodeRead src d found r) (hd : d.Inside c) : NodeRead src c found r :=
  ⟨fun n hn => (h.inside n hn).trans hd, h.agrees⟩

theorem ValueRead.node {found : Except JsonErr (JsonNode × List UInt8)} {n : Node} {e : Slice}
    (h : ValueRead src d found (.ok n, e)) (hd : c.Advances d) :
    NodeRead src c (.ok (n.view src)) (.ok n) := by
  refine ⟨fun m hm => ?_, rfl⟩
  obtain rfl := Except.ok.inj hm
  exact ((h.inside n rfl).1.trans h.advances.passed).trans hd.inside

theorem spanEq_ends (h : s.Valid src) (lit : List UInt8) :
    Ends (spanEq src s lit) (· = decide (s.bytes src = lit)) := by
  have hlength := Slice.length_bytes h
  rw [spanEq]
  by_cases heq : s.fin - s.beg = lit.length
  · rw [if_pos heq, ← heq]
    exact (readBytes_ends h).bind fun bs hbs => Ends.ok (by rw [hbs])
  · rw [if_neg heq]
    refine Ends.ok (Eq.symm (decide_eq_false ?_))
    rintro rfl
    exact heq hlength.symm

section Evaluator

variable (hlimit : src.length < limit)

include hlimit

theorem separator_ends {close : UInt8} {next : Slice → Reads (Except JsonErr Node)}
    {next' : List UInt8 → Except JsonErr JsonNode} (h : c.Valid src)
    (hnext : ∀ d, c.Advances d → c.beg < d.beg →
      Ends (next d) (NodeRead src d (next' (d.bytes src)))) :
    Ends (do
      let c ← skipWs src limit c
      if c.atEnd then .ok (.error .parse)
      else do
        let ch ← read src c.beg
        if ch = 0x2C then next (c.advance 1)
        else if ch = close then .ok (.error .notFound)
        else .ok (.error .parse))
      (NodeRead src c (match Damacy.skipWs (c.bytes src) with
        | [] => .error .parse
        | ch :: c =>
          if ch = 0x2C then next' c else if ch = close then .error .notFound else .error .parse)) := by
  refine (skipWs_ends hlimit h).bind ?_
  rintro d ⟨hd, hbytes⟩
  rw [← hbytes]
  rcases d.view (hd.valid h) with ⟨hend, hnil⟩ | ⟨b, hfirst⟩
  · rw [if_pos hend, hnil]
    exact Ends.ok (.fail c .parse)
  · have hcd := hd.trans hfirst.advances
    rw [hfirst.notEnd, if_neg (by decide), hfirst.read, ok_bind, hfirst.bytes]
    dsimp only
    split_ifs with hcomma hclose
    · exact (hnext _ hcd (Nat.lt_succ_of_le hd.beg)).mono fun r hr => hr.mono hcd.inside
    · exact Ends.ok (.fail c .notFound)
    · exact Ends.ok (.fail c .parse)

theorem arrayLoop_ends {fuel : ℕ} (want : ℕ) (h : c.Valid src) (hfuel : c.fin - c.beg < fuel) :
    Ends (arrayLoop src limit fuel want c)
      (NodeRead src c (Damacy.arrayLoop want (c.bytes src))) := by
  induction fuel generalizing want c with
  | zero => omega
  | succ fuel ih =>
    rw [arrayLoop, Damacy.arrayLoop.eq_def]
    dsimp only
    refine (skipWs_ends hlimit h).bind ?_
    rintro d ⟨hd, hbytes⟩
    rw [← hbytes]
    refine (lexValue_ends hlimit (hd.valid h)).bind ?_
    rintro ⟨_ | n, e⟩ hr
    · rw [hr.agrees]
      exact Ends.ok (.fail c _)
    · have hce := hd.trans hr.advances
      rw [hr.agrees]
      cases want with
      | zero => exact Ends.ok (hr.node hd)
      | succ want =>
        have hnext : ∀ d, e.Advances d → e.beg < d.beg →
            Ends (arrayLoop src limit fuel want d)
              (NodeRead src d (Damacy.arrayLoop want (d.bytes src))) :=
          fun d hed hlt => ih want (hed.valid (hce.valid h))
            ((hce.trans hed).fuel (hce.beg.trans_lt hlt) hfuel)
        exact (separator_ends hlimit (hce.valid h) hnext).mono fun r hr => hr.mono hce.inside

theorem container_ends {opening close : UInt8} {loop : Slice → Reads (Except JsonErr Node)}
    (loop' : ℕ → List UInt8 → Except JsonErr JsonNode) (h : s.Valid src)
    (hws : ∀ fuel bs, loop' fuel (Damacy.skipWs bs) = loop' fuel bs)
    (hloop : ∀ d fuel, d.Valid src → d.fin - d.beg ≤ fuel →
      Ends (loop d) (NodeRead src d (loop' fuel (d.bytes src)))) :
    Ends (do
      if !(← peekIs src s (· == opening)) then .ok (.error .parse)
      else do
        let c ← skipWs src limit (s.advance 1)
        if ← peekIs src c (· == close) then .ok (.error .notFound)
        else loop c)
      (NodeRead src s (match s.bytes src with
        | [] => .error .parse
        | ch :: c =>
          if ch ≠ opening then .error .parse
          else if (Damacy.skipWs c).head? = some close then .error .notFound
          else loop' c.length c)) := by
  rcases s.view h with ⟨hend, hnil⟩ | ⟨b, hfirst⟩
  · rw [peekIs_end hend, ok_bind, hnil]
    exact Ends.ok (.fail s .parse)
  · have hvalid := hfirst.advances.valid h
    rw [peekIs_first hfirst, ok_bind, hfirst.bytes]
    dsimp only
    by_cases hopen : b = opening
    · rw [if_neg (by simpa using hopen), if_neg (not_not.2 hopen)]
      refine (skipWs_ends hlimit hvalid).bind ?_
      rintro d ⟨hd, hbytes⟩
      have hsd := hfirst.advances.trans hd
      have hrest : Ends (loop d)
          (NodeRead src s (loop' ((s.advance 1).bytes src).length ((s.advance 1).bytes src))) := by
        rw [← hws, ← hbytes, Slice.length_bytes hvalid]
        refine (hloop d _ (hsd.valid h) ?_).mono fun r hr => hr.mono hsd.inside
        have h1 := hd.fin
        have h2 := hd.beg
        omega
      rw [← hbytes]
      rcases d.view (hsd.valid h) with ⟨hend, hnil⟩ | ⟨b', hfirst'⟩
      · rw [peekIs_end hend, ok_bind, hnil, if_neg (by decide), if_neg (by simp)]
        exact hrest
      · rw [peekIs_first hfirst', ok_bind, hfirst'.bytes]
        by_cases hclose : b' = close
        · rw [if_pos (by simpa using hclose), if_pos (by simpa using hclose)]
          exact Ends.ok (.fail s .notFound)
        · rw [if_neg (by simpa using hclose), if_neg (by simpa using hclose)]
          exact hrest
    · rw [if_pos (by simpa using hopen), if_pos hopen]
      exact Ends.ok (.fail s .parse)

omit hlimit in
theorem skipWs_skipWs (bs : List UInt8) : Damacy.skipWs (Damacy.skipWs bs) = Damacy.skipWs bs :=
  dropWhile_idempotent _ _

theorem arrayStep_ends {n : Node} (h : n.s.Valid src) (want : ℕ) :
    Ends (arrayStep src limit n want)
      (NodeRead src n.s (Damacy.arrayStep (n.view src) want)) := by
  rw [arrayStep, Damacy.arrayStep]
  by_cases htype : n.type = .array
  · rw [if_neg (not_not.2 htype), if_neg (show ¬ (n.view src).type ≠ .array from not_not.2 htype)]
    refine container_ends hlimit (fun _ => Damacy.arrayLoop want) h (fun _ bs => ?_)
      fun d _ hd _ => arrayLoop_ends hlimit want hd (fuel_of_valid hlimit hd)
    rw [Damacy.arrayLoop.eq_def, Damacy.arrayLoop.eq_def want bs]
    dsimp only
    rw [skipWs_skipWs]
  · rw [if_pos htype, if_pos (show (n.view src).type ≠ .array from htype)]
    exact Ends.ok (.fail n.s .type)

def memberKeyBytes (bs : List UInt8) : Option (List UInt8 × JsonNodeFlag × List UInt8) :=
  match Damacy.lexStringSpan (Damacy.skipWs bs) with
  | none => none
  | some (span, flag, rest) =>
    match Damacy.skipWs rest with
    | [] => none
    | ch :: rest => if ch ≠ 0x3A then none else some (span, flag, Damacy.skipWs rest)

omit hlimit in
theorem objectLoop_succ (key : List UInt8) (fuel : ℕ) (bs : List UInt8) :
    Damacy.objectLoop key (fuel + 1) bs =
      match memberKeyBytes bs with
      | none => .error .parse
      | some (span, flag, rest) =>
        match Damacy.lexValue rest with
        | .error e => .error e
        | .ok (value, rest) =>
          if flag ≠ .strEscaped ∧ span = key then .ok value
          else
            match Damacy.skipWs rest with
            | [] => .error .parse
            | ch :: rest =>
              if ch = 0x2C then Damacy.objectLoop key fuel rest
              else if ch = 0x7D then .error .notFound
              else .error .parse := by
  rw [Damacy.objectLoop, memberKeyBytes]
  rcases Damacy.lexStringSpan (Damacy.skipWs bs) with _ | ⟨span, flag, rest⟩
  · rfl
  · dsimp only
    rcases Damacy.skipWs rest with _ | ⟨ch, rest⟩
    · rfl
    · dsimp only
      by_cases hcolon : ch = 0x3A
      · subst hcolon
        rfl
      · rw [if_pos hcolon, if_pos hcolon]

theorem memberKey_ends (h : c.Valid src) :
    Ends (memberKey src limit c) (SpanRead src c (memberKeyBytes (c.bytes src))) := by
  rw [memberKey, memberKeyBytes]
  refine (skipWs_ends hlimit h).bind ?_
  rintro d ⟨hd, hbytes⟩
  rw [← hbytes]
  refine (lexStringSpan_ends hlimit (hd.valid h)).bind ?_
  rintro ⟨_ | ⟨span, flag⟩, e⟩ ⟨hkey, -⟩
  · rw [hkey.agrees]
    exact Ends.ok (.fail (hd.trans hkey.advances))
  · have hce := hd.trans hkey.advances
    rw [hkey.agrees]
    dsimp only [Option.map_some]
    refine (skipWs_ends hlimit (hce.valid h)).bind ?_
    rintro f ⟨hf, hbytes⟩
    have hcf := hce.trans hf
    rw [← hbytes]
    rcases f.view (hcf.valid h) with ⟨hend, hnil⟩ | ⟨b, hfirst⟩
    · rw [peekIs_end hend, ok_bind, hnil]
      exact Ends.ok (.fail hcf)
    · rw [peekIs_first hfirst, ok_bind, hfirst.bytes]
      dsimp only
      by_cases hcolon : b = 0x3A
      · have hcg := hcf.trans hfirst.advances
        rw [if_neg (by simpa using hcolon), if_neg (not_not.2 hcolon)]
        refine (skipWs_ends hlimit (hcg.valid h)).bind ?_
        rintro g ⟨hg, hbytes⟩
        refine Ends.ok ⟨hcg.trans hg, fun s hs => ?_, by rw [hbytes]; rfl⟩
        obtain rfl := Option.some.inj hs
        obtain ⟨hinside, hlt⟩ := hkey.inside _ rfl
        have heg := (hf.trans (hfirst.advances.trans hg)).beg
        exact ⟨⟨hd.beg.trans hinside.beg, hinside.le, hinside.fin.trans heg⟩,
          (hd.beg.trans_lt hlt).trans_le heg⟩
      · rw [if_pos (by simpa using hcolon), if_pos hcolon]
        exact Ends.ok (.fail hcf)

omit hlimit in
theorem keyMatches_ends (h : s.Valid src) (flag : JsonNodeFlag) (key : List UInt8) :
    Ends (keyMatches src s flag key) (· = decide (flag ≠ .strEscaped ∧ s.bytes src = key)) := by
  rw [keyMatches]
  by_cases hflag : flag = .strEscaped
  · rw [if_neg (not_not.2 hflag)]
    exact Ends.ok (by simp [hflag])
  · rw [if_pos hflag]
    exact (spanEq_ends h key).mono fun m hm => by simp [hm, hflag]

theorem objectLoop_ends (key : List UInt8) {fuel fuel' : ℕ} (h : c.Valid src)
    (hfuel : c.fin - c.beg < fuel) (hfuel' : c.fin - c.beg ≤ fuel') :
    Ends (objectLoop src limit key fuel c)
      (NodeRead src c (Damacy.objectLoop key fuel' (c.bytes src))) := by
  induction fuel generalizing c fuel' with
  | zero => omega
  | succ fuel ih =>
    rw [objectLoop]
    refine (memberKey_ends hlimit h).bind ?_
    rintro ⟨_ | ⟨span, flag⟩, d⟩ hkey
    · have hlist : Damacy.objectLoop key fuel' (c.bytes src) = .error .parse := by
        cases fuel' with
        | zero => rfl
        | succ fuel' => rw [objectLoop_succ, hkey.agrees]; rfl
      rw [hlist]
      exact Ends.ok (.fail c .parse)
    · obtain ⟨hspan, hlt⟩ := hkey.inside _ rfl
      obtain ⟨fuel', rfl⟩ : ∃ k, fuel' = k + 1 := by
        have := hkey.advances.le
        exact ⟨fuel' - 1, by dsimp only at this hlt; omega⟩
      rw [objectLoop_succ, hkey.agrees]
      dsimp only [Option.map_some]
      refine (keyMatches_ends ((hspan.trans hkey.advances.passed).valid h) flag key).bind ?_
      rintro _ rfl
      refine (lexValue_ends hlimit (hkey.advances.valid h)).bind ?_
      rintro ⟨_ | n, e⟩ hvalue
      · rw [hvalue.agrees]
        exact Ends.ok (.fail c _)
      · rw [hvalue.agrees]
        dsimp only [Except.map]
        by_cases hfound : flag ≠ .strEscaped ∧ span.bytes src = key
        · rw [if_pos (by simpa using hfound), if_pos hfound]
          exact Ends.ok (hvalue.node hkey.advances)
        · have hce := hkey.advances.trans hvalue.advances
          have hnext : ∀ f, e.Advances f → e.beg < f.beg → Ends (objectLoop src limit key fuel f)
              (NodeRead src f (Damacy.objectLoop key fuel' (f.bytes src))) := by
            intro f hef hlt
            have hcf := hce.trans hef
            have hrest := hcf.fuel (hce.beg.trans_lt hlt) (Nat.lt_succ_of_le hfuel')
            exact ih (hcf.valid h) (hcf.fuel (hce.beg.trans_lt hlt) hfuel)
              (Nat.le_of_lt_succ (by omega))
          rw [if_neg (by simpa using hfound), if_neg hfound]
          exact (separator_ends hlimit (hce.valid h) hnext).mono fun r hr => hr.mono hce.inside

theorem objectStep_ends {n : Node} (h : n.s.Valid src) (key : List UInt8) :
    Ends (objectStep src limit n key)
      (NodeRead src n.s (Damacy.objectStep (n.view src) key)) := by
  rw [objectStep, Damacy.objectStep]
  by_cases htype : n.type = .object
  · rw [if_neg (not_not.2 htype), if_neg (show ¬ (n.view src).type ≠ .object from not_not.2 htype)]
    refine container_ends hlimit (Damacy.objectLoop key) h (fun fuel bs => ?_)
      fun d _ hd hfuel => objectLoop_ends hlimit key hd (fuel_of_valid hlimit hd) hfuel
    cases fuel with
    | zero => rfl
    | succ fuel => rw [Damacy.objectLoop, Damacy.objectLoop, skipWs_skipWs]
  · rw [if_pos htype, if_pos (show (n.view src).type ≠ .object from htype)]
    exact Ends.ok (.fail n.s .type)

/-! ## Open arrays -/

def Frame.view (src : List UInt8) (f : Frame) : IterFrame :=
  ⟨f.partIndex, f.rest.bytes src, f.sawFirst⟩

def unread (frames : List Frame) : ℕ := (frames.map fun f => f.rest.fin - f.rest.beg).sum

omit hlimit in
@[simp] theorem unread_cons (f : Frame) (frames : List Frame) :
    unread (f :: frames) = f.rest.fin - f.rest.beg + unread frames := by
  rw [unread, map_cons, sum_cons, unread]

/-- What is taken from an open array: `found` is the same in the bytes. -/
structure TakeRead (src : List UInt8) (f : Frame) (found : Except JsonErr (JsonNode × List UInt8))
    (r : Except JsonErr Node × Frame) : Prop where
  advances : f.rest.Advances r.2.rest
  partIndex : r.2.partIndex = f.partIndex
  ok : ∀ n, r.1 = .ok n → r.2.sawFirst = true ∧ n.s.Inside f.rest ∧
    (n.s.fin - n.s.beg - 1) + (r.2.rest.fin - r.2.rest.beg) < f.rest.fin - f.rest.beg
  notFound : r.1 = .error .notFound → f.rest.beg < f.rest.fin
  agrees : found = r.1.map fun n => (n.view src, r.2.rest.bytes src)

omit hlimit in
theorem TakeRead.fail {f : Frame} {saw : Bool} (h : f.rest.Advances d) :
    TakeRead src f (.error .parse) (.error .parse, ⟨f.partIndex, d, saw⟩) :=
  ⟨h, rfl, nofun, nofun, rfl⟩

omit hlimit in
theorem ValueRead.take {f : Frame} {found : Except JsonErr (JsonNode × List UInt8)}
    {r : Except JsonErr Node × Slice} (hnot : found ≠ .error .notFound) (h : ValueRead src d found r)
    (hd : f.rest.Advances d) {saw : Bool} (hsaw : saw = true) :
    TakeRead src f found (r.1, ⟨f.partIndex, r.2, saw⟩) := by
  have hnot' : r.1 ≠ .error .notFound := fun he => hnot (h.agrees.trans (by rw [he]; rfl))
  refine ⟨hd.trans h.advances, rfl, fun n hn => ⟨hsaw, ?_, ?_⟩, fun he => absurd he hnot', h.agrees⟩
  · exact ((h.inside n hn).1.trans h.advances.passed).trans hd.inside
  · obtain ⟨hinside, hlt⟩ := h.inside n hn
    have h1 := hinside.beg
    have h2 := hinside.fin
    have h3 := h.advances.fin
    have h4 := h.advances.le
    have h5 := hd.fin
    have h6 := hd.beg
    dsimp only at h1 h2 h3 h4 ⊢
    omega

omit hlimit in
theorem lexValue_ne_notFound (bs : List UInt8) : Damacy.lexValue bs ≠ .error .notFound := by
  have hspan : ∀ type r, lexSpan type r ≠ .error .notFound := by
    rintro type (_ | r) h <;> cases h
  have hliteral : ∀ type kw c, lexLiteral type kw c ≠ .error .notFound := by
    intro type kw c h
    rw [lexLiteral] at h
    split at h <;> cases h
  have hcontainer : ∀ type cl c, lexContainer type cl c ≠ .error .notFound := by
    intro type cl c h
    rw [lexContainer] at h
    split at h <;> cases h
  cases bs with
  | nil =>
    intro h
    cases h
  | cons ch bs =>
    rw [Damacy.lexValue]
    split_ifs
    exacts [hcontainer _ _ _, hcontainer _ _ _, hspan _ _, hliteral _ _ _, hliteral _ _ _,
      hliteral _ _ _, hspan _ _, fun h => by cases h]

theorem iterTake_ends {f : Frame} (h : f.rest.Valid src) : Ends (iterTake src limit f)
    (TakeRead src f (Damacy.iterTake f.sawFirst (f.rest.bytes src))) := by
  rw [iterTake, Damacy.iterTake]
  refine (skipWs_ends hlimit h).bind ?_
  rintro d ⟨hd, hbytes⟩
  rw [← hbytes]
  rcases d.view (hd.valid h) with ⟨hend, hnil⟩ | ⟨b, hfirst⟩
  · rw [if_pos hend, hnil]
    exact Ends.ok (.fail hd)
  · have hnext := hd.trans hfirst.advances
    rw [hfirst.notEnd, if_neg (by decide), hfirst.read, ok_bind, hfirst.bytes]
    dsimp only
    by_cases hclose : b = 0x5D
    · rw [if_pos hclose, if_pos hclose]
      refine Ends.ok ⟨hnext, rfl, nofun, fun _ => ?_, rfl⟩
      have h1 := hfirst.le
      have h2 := hd.fin
      have h3 := hd.beg
      omega
    · rw [if_neg hclose, if_neg hclose]
      cases hsaw : f.sawFirst with
      | true =>
        rw [if_pos rfl, if_pos rfl]
        by_cases hcomma : b = 0x2C
        · rw [if_neg (not_not.2 hcomma), if_neg (not_not.2 hcomma)]
          refine (skipWs_ends hlimit (hnext.valid h)).bind ?_
          rintro e ⟨he, hbytes'⟩
          rw [← hbytes']
          have hvalue := lexValue_ends hlimit ((hnext.trans he).valid h)
          refine hvalue.bind fun r hr => Ends.ok ?_
          exact hr.take (lexValue_ne_notFound _) (hnext.trans he) rfl
        · rw [if_pos hcomma, if_pos hcomma]
          exact Ends.ok (.fail hd)
      | false =>
        rw [if_neg (by decide), if_neg (by decide), ← hfirst.bytes]
        have hvalue := lexValue_ends hlimit (hd.valid h)
        refine hvalue.bind fun r hr => Ends.ok ?_
        exact hr.take (lexValue_ne_notFound _) hd rfl

/-! ## The evaluator -/

omit hlimit in
theorem iterOpenArray_ends {n : Node} (h : n.s.Valid src) : Ends (iterOpenArray src n) fun r =>
    (∀ rest, r = .ok rest → n.s.Advances rest ∧ n.s.beg < rest.beg) ∧
      Damacy.iterOpenArray (n.view src) = r.map (Slice.bytes src) := by
  rw [iterOpenArray, Damacy.iterOpenArray]
  by_cases htype : n.type = .array
  · rw [if_neg (not_not.2 htype), if_neg (show ¬ (n.view src).type ≠ .array from not_not.2 htype)]
    rcases n.s.view h with ⟨hend, hnil⟩ | ⟨b, hfirst⟩
    · rw [peekIs_end hend, ok_bind, Node.view, hnil]
      exact Ends.ok ⟨nofun, rfl⟩
    · rw [peekIs_first hfirst, ok_bind, Node.view, hfirst.bytes]
      dsimp only
      by_cases hopen : b = 0x5B
      · rw [if_neg (by simpa using hopen), if_neg (not_not.2 hopen)]
        refine Ends.ok ⟨fun rest hrest => ?_, rfl⟩
        obtain rfl := Except.ok.inj hrest
        exact ⟨hfirst.advances, Nat.lt_succ_self _⟩
      · rw [if_pos (by simpa using hopen), if_pos hopen]
        exact Ends.ok ⟨nofun, rfl⟩
  · rw [if_pos htype, if_pos (show (n.view src).type ≠ .array from htype)]
    exact Ends.ok ⟨nofun, rfl⟩

/-- A part of a query on positions, and the same part on bytes. -/
inductive PartAgrees (src : List UInt8) : Part → QueryPart → Prop
  | key (key : List UInt8) : PartAgrees src (.key key) (.key key)
  | index (index : ℕ) : PartAgrees src (.index index) (.index index)
  | iter : PartAgrees src .iter .iter
  | whereHolds {holds : Node → Reads Bool} {holds' : JsonNode → Bool}
      (agrees : ∀ n : Node, n.s.Valid src → Ends (holds n) (· = holds' (n.view src))) :
      PartAgrees src (.whereHolds holds) (.whereHolds holds')

/-- The result of the evaluator and the arrays that it leaves open, with at most `bound` bytes unread:
`found` is the same in the bytes. After an error that ends the evaluation the open arrays are not
looked at again. -/
structure EvalRead (src : List UInt8) (bound : ℕ)
    (found : Except JsonErr JsonNode × List IterFrame) (r : Except JsonErr Node × List Frame) :
    Prop where
  node : ∀ n, r.1 = .ok n → n.s.Valid src
  frames : ∀ f ∈ r.2, f.rest.Valid src
  unread : unread r.2 ≤ bound
  result : found.1 = r.1.map (Node.view src)
  agrees : (∀ e, r.1 = .error e → e = .notFound) → found.2 = r.2.map (Frame.view src)

omit hlimit in
theorem EvalRead.mono {bound bound' : ℕ} {found : Except JsonErr JsonNode × List IterFrame}
    {r : Except JsonErr Node × List Frame} (h : EvalRead src bound found r) (hle : bound ≤ bound') :
    EvalRead src bound' found r :=
  ⟨h.node, h.frames, h.unread.trans hle, h.result, h.agrees⟩

omit hlimit in
theorem EvalRead.fail {bound : ℕ} {frames : List Frame} (hframes : ∀ f ∈ frames, f.rest.Valid src)
    (hbound : Cursor.unread frames ≤ bound) (e : JsonErr) :
    EvalRead src bound (.error e, frames.map (Frame.view src)) (.error e, frames) :=
  ⟨nofun, hframes, hbound, rfl, fun _ => rfl⟩

omit hlimit in
theorem EvalRead.stop {bound : ℕ} {frames : List Frame} {frames' : List IterFrame} {e : JsonErr}
    (he : e ≠ .notFound) (hframes : ∀ f ∈ frames, f.rest.Valid src)
    (hbound : Cursor.unread frames ≤ bound) :
    EvalRead src bound (.error e, frames') (.error e, frames) :=
  ⟨nofun, hframes, hbound, rfl, fun hproper => absurd (hproper e rfl) he⟩

omit hlimit in
theorem TakeRead.view_eq {f : Frame} {found : Except JsonErr (JsonNode × List UInt8)} {n : Node}
    {g : Frame} (h : TakeRead src f found (.ok n, g)) :
    g.view src = ⟨f.partIndex, g.rest.bytes src, true⟩ := by
  rw [Frame.view, h.partIndex, (h.ok n rfl).1]

theorem applyFrom_iter_ends {parts : List Part} {parts' : List QueryPart} (i : ℕ) {n : Node}
    {frames : List Frame} (hn : n.s.Valid src) (hframes : ∀ f ∈ frames, f.rest.Valid src)
    (hrest : ∀ {m : Node} {fs : List Frame}, m.s.Valid src → (∀ f ∈ fs, f.rest.Valid src) →
      Ends (applyFrom src limit parts (i + 1) m fs)
        (EvalRead src (unread fs + (m.s.fin - m.s.beg - 1))
          (Damacy.applyFrom parts' (i + 1) (m.view src) (fs.map (Frame.view src))))) :
    Ends (applyFrom src limit (.iter :: parts) i n frames)
      (EvalRead src (unread frames + (n.s.fin - n.s.beg - 1))
        (Damacy.applyFrom (.iter :: parts') i (n.view src) (frames.map (Frame.view src)))) := by
  have hfail := fun e => EvalRead.fail hframes (Nat.le_add_right _ (n.s.fin - n.s.beg - 1)) e
  rw [applyFrom, Damacy.applyFrom, length_map]
  by_cases hfull : jsonIterMaxFrames ≤ frames.length
  · rw [if_pos hfull, if_pos hfull]
    exact Ends.ok (hfail .oom)
  · rw [if_neg hfull, if_neg hfull]
    refine (iterOpenArray_ends hn).bind ?_
    rintro (e | rest) ⟨hopen, hopened⟩
    · rw [hopened]
      exact Ends.ok (hfail e)
    · obtain ⟨hadvances, hlt⟩ := hopen rest rfl
      have hvalid := hadvances.valid hn
      rw [hopened]
      dsimp only [Except.map]
      refine (iterTake_ends hlimit (f := ⟨i, rest, false⟩) hvalid).bind ?_
      rintro ⟨r, f⟩ htake
      have hall : ∀ g ∈ f :: frames, g.rest.Valid src :=
        forall_mem_cons.2 ⟨htake.advances.valid hvalid, hframes⟩
      have hend := hadvances.fin
      rw [htake.agrees]
      rcases r with e | first
      · have hbound : unread (f :: frames) ≤ unread frames + (n.s.fin - n.s.beg - 1) := by
          have h1 := htake.advances.fin
          have h2 := htake.advances.beg
          rw [unread_cons]
          dsimp only at h1 h2
          omega
        cases e with
        | notFound => exact Ends.ok (hfail .notFound)
        | _ => exact Ends.ok (.stop (by decide) hall hbound)
      · obtain ⟨-, hfirst, hroom⟩ := htake.ok first rfl
        have happly := hrest (hfirst.valid hvalid) hall
        rw [map_cons, htake.view_eq] at happly
        refine happly.mono fun r hr => hr.mono ?_
        rw [unread_cons]
        dsimp only at hroom
        omega

omit hlimit in
theorem nodeStep_ends {n : Node} {frames : List Frame} (hframes : ∀ f ∈ frames, f.rest.Valid src)
    {next : Node → Reads (Except JsonErr Node × List Frame)}
    {next' : JsonNode → Except JsonErr JsonNode × List IterFrame}
    (hnext : ∀ m, m.s.Inside n.s → Ends (next m)
      (EvalRead src (unread frames + (m.s.fin - m.s.beg - 1)) (next' (m.view src))))
    {r : Except JsonErr Node} {found : Except JsonErr JsonNode} :
    NodeRead src n.s found r → Ends (match r with
      | .error e => .ok (.error e, frames)
      | .ok cur => next cur : Reads _)
    (EvalRead src (unread frames + (n.s.fin - n.s.beg - 1)) (match found with
      | .error e => (.error e, frames.map (Frame.view src))
      | .ok cur => next' cur)) := by
  intro hr
  rw [hr.agrees]
  cases r with
  | error e => exact Ends.ok (.fail hframes (Nat.le_add_right _ _) e)
  | ok m =>
    have hm := hr.inside m rfl
    refine (hnext m hm).mono fun r hr => hr.mono ?_
    have h1 := hm.beg
    have h2 := hm.fin
    omega

theorem applyFrom_ends {parts : List Part} {parts' : List QueryPart}
    (hparts : List.Forall₂ (PartAgrees src) parts parts') (i : ℕ) {n : Node} {frames : List Frame}
    (hn : n.s.Valid src) (hframes : ∀ f ∈ frames, f.rest.Valid src) :
    Ends (applyFrom src limit parts i n frames)
      (EvalRead src (unread frames + (n.s.fin - n.s.beg - 1))
        (Damacy.applyFrom parts' i (n.view src) (frames.map (Frame.view src)))) := by
  induction hparts generalizing i n frames with
  | nil =>
    refine Ends.ok ⟨fun m hm => ?_, hframes, Nat.le_add_right _ _, rfl, fun _ => rfl⟩
    obtain rfl := Except.ok.inj hm
    exact hn
  | @cons part part' parts parts' hpart hparts ih =>
    have hnext := fun (m : Node) (hm : m.s.Inside n.s) => ih (i + 1) (hm.valid hn) hframes
    cases hpart with
    | key key =>
      exact (objectStep_ends hlimit hn key).bind fun r hr => nodeStep_ends hframes hnext hr
    | index index =>
      exact (arrayStep_ends hlimit hn index).bind fun r hr => nodeStep_ends hframes hnext hr
    | iter => exact applyFrom_iter_ends hlimit i hn hframes fun {m fs} => ih (i + 1)
    | @whereHolds holds holds' agrees =>
      refine (agrees n hn).bind ?_
      rintro _ rfl
      rw [Damacy.applyFrom]
      split_ifs
      · exact ih (i + 1) hn hframes
      · exact Ends.ok (.fail hframes (Nat.le_add_right _ _) .notFound)

theorem backtrackIter_ends {parts : List Part} {parts' : List QueryPart}
    (hparts : List.Forall₂ (PartAgrees src) parts parts') {fuel fuel' : ℕ} {frames : List Frame}
    (hframes : ∀ f ∈ frames, f.rest.Valid src) (hfuel : unread frames < fuel)
    (hfuel' : unread frames < fuel') :
    Ends (backtrackIter src limit parts fuel frames)
      (EvalRead src (unread frames)
        (Damacy.backtrackIter parts' fuel' (frames.map (Frame.view src)))) := by
  induction fuel generalizing fuel' frames with
  | zero => omega
  | succ fuel ih =>
    obtain ⟨fuel', rfl⟩ : ∃ k, fuel' = k + 1 := ⟨fuel' - 1, by omega⟩
    -- going on with fewer bytes
    have hnext : ∀ fs : List Frame, (∀ f ∈ fs, f.rest.Valid src) → unread fs < unread frames →
        Ends (backtrackIter src limit parts fuel fs) (EvalRead src (unread frames)
          (Damacy.backtrackIter parts' fuel' (fs.map (Frame.view src)))) :=
      fun fs hfs hlt => (ih hfs (by omega) (by omega)).mono fun r hr => hr.mono hlt.le
    cases frames with
    | nil => exact Ends.ok (.fail hframes le_rfl .notFound)
    | cons f frames =>
      rw [forall_mem_cons] at hframes
      rw [backtrackIter, map_cons, Damacy.backtrackIter]
      refine (iterTake_ends hlimit hframes.1).bind ?_
      rintro ⟨r, g⟩ htake
      have hall : ∀ g' ∈ g :: frames, g'.rest.Valid src :=
        forall_mem_cons.2 ⟨htake.advances.valid hframes.1, hframes.2⟩
      have hend := htake.advances.fin
      have hbeg := htake.advances.beg
      rw [show Damacy.iterTake (f.view src).sawFirst (f.view src).rest = _ from htake.agrees]
      dsimp only at hend hbeg
      rcases r with e | next
      · cases e with
        | notFound =>
          refine hnext frames hframes.2 ?_
          have hlt := htake.notFound rfl
          rw [unread_cons]
          omega
        | _ =>
          refine Ends.ok (.stop (by decide) hall ?_)
          rw [unread_cons, unread_cons]
          omega
      · obtain ⟨-, hinside, hroom⟩ := htake.ok next rfl
        have happly := applyFrom_ends hlimit (List.forall₂_drop (f.partIndex + 1) hparts)
          (f.partIndex + 1) (hinside.valid hframes.1) hall
        rw [map_cons, htake.view_eq] at happly
        dsimp only [Except.map, Frame.view]
        rw [htake.partIndex]
        refine happly.bind ?_
        rintro ⟨r, fs⟩ heval
        have hlt : unread fs < unread (f :: frames) := by
          have hle := heval.unread
          rw [unread_cons] at hle ⊢
          dsimp only at hle hroom
          omega
        generalize Damacy.applyFrom _ _ _ _ = found at heval
        obtain ⟨found, open'⟩ := found
        obtain rfl : found = r.map (Node.view src) := heval.result
        rcases r with e | n
        · cases e with
          | notFound =>
            obtain rfl : open' = fs.map (Frame.view src) :=
              heval.agrees fun e he => (Except.error.inj he).symm
            exact hnext fs heval.frames hlt
          | _ => exact Ends.ok (.stop (by decide) heval.frames hlt.le)
        · exact Ends.ok ⟨heval.node, heval.frames, hlt.le, rfl, heval.agrees⟩

/-! ## Queries -/

theorem root_ends {parts : List Part} {parts' : List QueryPart}
    (hparts : List.Forall₂ (PartAgrees src) parts parts') {r : Except JsonErr Node × Slice}
    (h : s.Valid src) (hd : s.Advances d)
    (hr : ValueRead src d (Damacy.lexValue (d.bytes src)) r) {root : Node} (hroot : r.1 = .ok root) :
    Ends (applyFrom src limit parts 0 root []) (EvalRead src (s.fin - s.beg)
      (Damacy.applyFrom parts' 0 (root.view src) [])) := by
  have hinside := ((hr.inside root hroot).1.trans hr.advances.passed).trans hd.inside
  have hnil : ∀ f ∈ ([] : List Frame), f.rest.Valid src := nofun
  refine (applyFrom_ends hlimit hparts 0 (hinside.valid h) hnil).mono fun r hr => hr.mono ?_
  have h1 := hinside.beg
  have h2 := hinside.fin
  rw [unread, map_nil, sum_nil]
  omega

theorem resolveParts_ends {parts : List Part} {parts' : List QueryPart}
    (hparts : List.Forall₂ (PartAgrees src) parts parts') (h : s.Valid src) :
    Ends (resolveParts src limit parts s) fun r => (∀ n, r = .ok n → n.s.Valid src) ∧
      Damacy.resolveParts (s.bytes src) parts' = r.map (Node.view src) := by
  rw [resolveParts, Damacy.resolveParts]
  refine (skipWs_ends hlimit h).bind ?_
  rintro d ⟨hd, hbytes⟩
  rw [← hbytes]
  refine (lexValue_ends hlimit (hd.valid h)).bind ?_
  rintro ⟨e | root, d'⟩ hroot
  · rw [hroot.agrees]
    exact Ends.ok ⟨nofun, rfl⟩
  · rw [hroot.agrees]
    dsimp only [Except.map]
    refine (root_ends hlimit hparts h hd hroot rfl).bind ?_
    rintro ⟨r, fs⟩ heval
    rw [firstResult]
    generalize Damacy.applyFrom _ _ _ _ = found at heval
    obtain ⟨found, open'⟩ := found
    obtain rfl : found = r.map (Node.view src) := heval.result
    rcases r with e | n
    · cases e with
      | notFound =>
        obtain rfl : open' = fs.map (Frame.view src) :=
          heval.agrees fun e he => (Except.error.inj he).symm
        cases fs with
        | nil => exact Ends.ok ⟨nofun, rfl⟩
        | cons f fs =>
          have hunread : unread (f :: fs) ≤ s.fin - s.beg := heval.unread
          have hfuel : unread (f :: fs) < (s.bytes src).length + 1 := by
            rw [Slice.length_bytes h]
            omega
          exact (backtrackIter_ends hlimit hparts heval.frames
            (hunread.trans_lt (fuel_of_valid hlimit h)) hfuel).bind fun r hr =>
              Ends.ok ⟨hr.node, hr.result⟩
      | _ => exact Ends.ok ⟨nofun, rfl⟩
    · exact Ends.ok ⟨heval.node, rfl⟩

omit hlimit in
theorem eqLiteral_ends {n : Node} (h : n.s.Valid src) (rhs : List UInt8) (rhsType : JsonType) :
    Ends (eqLiteral src n rhs rhsType) (· = (n.view src).eqLiteral rhs rhsType) := by
  have hspan := spanEq_ends h rhs
  cases rhsType with
  | string =>
    rw [eqLiteral, JsonNode.eqLiteral, Node.view]
    split_ifs with hfail
    · exact Ends.ok (by rcases hfail with hfail | hfail <;> simp [hfail])
    · rw [not_or, not_not] at hfail
      exact hspan.mono fun m hm => by simp [hm, hfail]
  | number =>
    rw [eqLiteral, JsonNode.eqLiteral, Node.view]
    split_ifs with hfail
    · exact Ends.ok (by simp [hfail])
    · exact hspan.mono fun m hm => by simp [hm, not_not.1 hfail]
  | bool =>
    rw [eqLiteral, JsonNode.eqLiteral, Node.view]
    split_ifs with hfail
    · exact Ends.ok (by simp [hfail])
    · exact hspan.mono fun m hm => by simp [hm, not_not.1 hfail]
  | _ => exact Ends.ok rfl

end Evaluator

mutual

/-- The parts of a query on positions are those on bytes, also inside of its `QUERY_WHERE` parts. -/
theorem part_agrees (hlimit : src.length < limit) :
    ∀ q : JsonQuery, PartAgrees src (part src limit q) q.part
  | .key k => .key k
  | .index i => .index i
  | .iter => .iter
  | .whereEq q rhs rhsType => .whereHolds fun n hn => by
    refine (resolveParts_ends hlimit (parts_agree hlimit q) hn).bind ?_
    rintro r ⟨hleaf, hresolved⟩
    rw [Damacy.whereHolds, show (n.view src).s = n.s.bytes src from rfl, hresolved]
    rcases r with e | leaf
    · exact Ends.ok rfl
    · exact eqLiteral_ends (hleaf leaf rfl) rhs rhsType

@[inherit_doc part_agrees]
theorem parts_agree (hlimit : src.length < limit) : ∀ query : List JsonQuery,
    List.Forall₂ (PartAgrees src) (parts src limit query) (JsonQuery.parts query)
  | [] => .nil
  | q :: rest => .cons (part_agrees hlimit q) (parts_agree hlimit rest)

end

theorem jsonResolve_ends (hlimit : src.length < limit) (query : List JsonQuery) :
    Ends (jsonResolve src limit query) fun r => (∀ n, r = .ok n → n.s.Valid src) ∧
      Damacy.jsonResolve src query = r.map (Node.view src) := by
  have hresolve := resolveParts_ends hlimit (parts_agree hlimit query) (Slice.valid_all src)
  rwa [Slice.bytes_all] at hresolve

/-! ## The iterator -/

def Iter.view (src : List UInt8) (parts' : List QueryPart) (it : Iter) : JsonIter :=
  ⟨src, parts', it.frames.map (Frame.view src), it.done⟩

structure IterValid (src : List UInt8) (parts' : List QueryPart) (it : Iter) : Prop where
  parts : List.Forall₂ (PartAgrees src) it.parts parts'
  frames : ∀ f ∈ it.frames, f.rest.Valid src
  unread : unread it.frames ≤ src.length

/-- What a call returns: `found` is the same in the bytes. After an error that ends the iteration the
open arrays are not looked at again. -/
structure NextRead (src : List UInt8) (parts' : List QueryPart)
    (found : Except JsonErr JsonNode × JsonIter) (r : Except JsonErr Node × Iter) : Prop where
  valid : IterValid src parts' r.2
  node : ∀ n, r.1 = .ok n → n.s.Valid src
  result : found.1 = r.1.map (Node.view src)
  agrees : (∀ e, r.1 = .error e → e = .notFound) → found.2 = r.2.view src parts'

theorem EvalRead.next {bound : ℕ} {parts : List Part} {parts' : List QueryPart}
    {found : Except JsonErr JsonNode × List IterFrame} {r : Except JsonErr Node × List Frame}
    (h : EvalRead src bound found r) (hbound : bound ≤ src.length)
    (hparts : List.Forall₂ (PartAgrees src) parts parts') (done : Bool) :
    NextRead src parts' (found.1, ⟨src, parts', found.2, done⟩) (r.1, ⟨parts, r.2, done⟩) := by
  refine ⟨⟨hparts, h.frames, h.unread.trans hbound⟩, h.node, h.result, fun hproper => ?_⟩
  rw [Iter.view, h.agrees hproper]

theorem jsonIterNext_ends (hlimit : src.length < limit) {parts' : List QueryPart} {it : Iter}
    (h : IterValid src parts' it) : Ends (jsonIterNext src limit it)
      (NextRead src parts' (Damacy.jsonIterNext (it.view src parts'))) := by
  obtain ⟨parts, frames, done⟩ := it
  rw [jsonIterNext, Damacy.jsonIterNext, Iter.view]
  dsimp only
  cases done with
  | true => exact Ends.ok ⟨h, nofun, rfl, fun _ => rfl⟩
  | false =>
    rw [if_neg (by decide), if_neg (by decide)]
    cases frames with
    | nil =>
      refine (skipWs_ends hlimit (Slice.valid_all src)).bind ?_
      rintro d ⟨hd, hbytes⟩
      rw [Slice.bytes_all] at hbytes
      rw [map_nil, ← hbytes]
      dsimp only
      refine (lexValue_ends hlimit (hd.valid (Slice.valid_all src))).bind ?_
      rintro ⟨e | root, d'⟩ hroot
      · rw [hroot.agrees]
        exact Ends.ok ⟨⟨h.parts, h.frames, h.unread⟩, nofun, rfl, fun _ => rfl⟩
      · rw [hroot.agrees]
        dsimp only [Except.map]
        refine (root_ends hlimit h.parts (Slice.valid_all src) hd hroot rfl).bind ?_
        rintro ⟨r, fs⟩ heval
        have hend := heval.next (Nat.sub_le _ _) h.parts
        generalize Damacy.applyFrom _ _ _ _ = found at heval hend
        obtain ⟨found, open'⟩ := found
        obtain rfl : found = r.map (Node.view src) := heval.result
        rcases r with e | n
        · cases e with
          | notFound =>
            obtain rfl : open' = fs.map (Frame.view src) :=
              heval.agrees fun e he => (Except.error.inj he).symm
            cases fs with
            | nil => exact Ends.ok (hend true)
            | cons f fs =>
              have hunread : unread (f :: fs) ≤ src.length := heval.unread
              exact (backtrackIter_ends hlimit h.parts heval.frames (hunread.trans_lt hlimit)
                (Nat.lt_succ_of_le hunread)).bind fun r hr => Ends.ok (hr.next hunread h.parts false)
          | _ => exact Ends.ok (hend true)
        · exact Ends.ok (hend false)
    | cons f frames =>
      have hunread := h.unread
      refine (backtrackIter_ends hlimit h.parts h.frames (hunread.trans_lt hlimit)
        (Nat.lt_succ_of_le hunread)).bind ?_
      rintro ⟨r, fs⟩ heval
      have hend := heval.next hunread h.parts
      rw [map_cons] at heval hend ⊢
      dsimp only
      generalize Damacy.backtrackIter _ _ _ = found at heval hend
      obtain ⟨found, open'⟩ := found
      obtain rfl : found = r.map (Node.view src) := heval.result
      rcases r with e | n
      · exact Ends.ok (hend true)
      · exact Ends.ok (hend false)

theorem jsonIterCalls_ends (hlimit : src.length < limit) {parts' : List QueryPart} (calls : ℕ)
    {it : Iter} (h : IterValid src parts' it) : Ends (jsonIterCalls src limit calls it) fun r =>
      IterValid src parts' r.2 ∧ ∀ n, .ok n ∈ r.1 → n.s.Valid src := by
  induction calls generalizing it with
  | zero => exact Ends.ok ⟨h, nofun⟩
  | succ calls ih =>
    refine (jsonIterNext_ends hlimit h).bind fun r hr => ?_
    refine (ih hr.valid).bind ?_
    rintro rest ⟨hvalid, hnodes⟩
    refine Ends.ok ⟨hvalid, fun n hn => ?_⟩
    rcases mem_cons.1 hn with hn | hn
    · exact hr.node n hn.symm
    · exact hnodes n hn

/-- **The reader on any bytes.** With as many rounds of every loop as there are bytes, and one more,
`json_resolve` and every sequence of calls of `json_iter_next` end; no byte outside of the source is
read, and every node that is returned has its span inside of the source. -/
theorem json_reader_safe (src : List UInt8) (query : List JsonQuery) :
    (∃ r, jsonResolve src (src.length + 1) query = .ok r ∧
      ∀ n, r = .ok n → n.s.beg ≤ n.s.fin ∧ n.s.fin ≤ src.length) ∧
    ∀ calls, ∃ rs it,
      jsonIterCalls src (src.length + 1) calls (jsonIterInit src (src.length + 1) query) =
        .ok (rs, it) ∧
      ∀ n, .ok n ∈ rs → n.s.beg ≤ n.s.fin ∧ n.s.fin ≤ src.length := by
  have hlimit := Nat.lt_succ_self src.length
  have hspan : ∀ {n : Node}, n.s.Valid src → n.s.beg ≤ n.s.fin ∧ n.s.fin ≤ src.length :=
    fun h => ⟨h.le, h.inside⟩
  constructor
  · obtain ⟨r, hr, hnode, -⟩ := jsonResolve_ends hlimit query
    exact ⟨r, hr, fun n hn => hspan (hnode n hn)⟩
  · intro calls
    have hinit : IterValid src (JsonQuery.parts query) (jsonIterInit src (src.length + 1) query) :=
      ⟨parts_agree hlimit query, nofun, Nat.zero_le _⟩
    obtain ⟨⟨rs, it⟩, hrun, -, hnodes⟩ := jsonIterCalls_ends hlimit calls hinit
    exact ⟨rs, it, hrun, fun n hn => hspan (hnodes n hn)⟩

end Damacy.Cursor

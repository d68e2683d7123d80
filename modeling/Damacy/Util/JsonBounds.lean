import Mathlib.Algebra.Order.Ring.Nat
import Damacy.Util.JsonCursor
import Damacy.Util.JsonLex

/-!
# The lexer stays inside its slice

Every function of the lexer ends on every slice of the buffer, without a read outside of it, and finds
what the function of the same name in `Damacy.Util.Json` finds in the bytes of the slice. The cursor
only advances, also when the function fails.
-/

open List JsonText BoundedReads

namespace Damacy.Cursor

variable {src : List UInt8} {limit : ℕ} {c d : Slice}

/-! ## Bytes -/

theorem peekIs_end (h : c.atEnd = true) (p : UInt8 → Bool) : peekIs src c p = .ok false := if_pos h

theorem peekIs_first {b : UInt8} (h : c.First src b) (p : UInt8 → Bool) :
    peekIs src c p = .ok (p b) := by
  rw [peekIs, h.notEnd, h.read]
  rfl

theorem advanceWhile_ends (p : UInt8 → Bool) {fuel : ℕ} (h : c.Valid src)
    (hfuel : c.fin - c.beg < fuel) :
    Ends (advanceWhile src p fuel c) fun d => c.Advances d ∧
      Slice.bytes src ⟨c.beg, d.beg⟩ = (c.bytes src).takeWhile p ∧
      d.bytes src = (c.bytes src).dropWhile p := by
  induction fuel generalizing c with
  | zero => omega
  | succ fuel ih =>
    have hstop : ∀ bs, c.bytes src = bs → bs.takeWhile p = [] → bs.dropWhile p = bs →
        Ends (.ok c : Reads Slice) fun d => c.Advances d ∧
          Slice.bytes src ⟨c.beg, d.beg⟩ = (c.bytes src).takeWhile p ∧
          d.bytes src = (c.bytes src).dropWhile p := by
      rintro bs rfl htake hdrop
      exact Ends.ok ⟨h.refl, by rw [htake, Slice.bytes_self], hdrop.symm⟩
    rw [advanceWhile]
    rcases c.view h with ⟨hend, hnil⟩ | ⟨b, hfirst⟩
    · rw [peekIs_end hend, ok_bind]
      exact hstop [] hnil rfl rfl
    · rw [peekIs_first hfirst, ok_bind]
      by_cases hp : p b = true
      · rw [if_pos hp]
        refine (ih (hfirst.advances.valid h) (hfirst.fuel hfuel)).mono ?_
        rintro d ⟨hd, htake, hdrop⟩
        refine ⟨hfirst.advances.trans hd, ?_, ?_⟩
        · rw [hfirst.bytes, takeWhile_cons_of_pos hp, ← htake, hfirst.span _ hd.beg]
        · rw [hfirst.bytes, dropWhile_cons_of_pos hp, hdrop]
      · rw [if_neg hp]
        exact hstop _ hfirst.bytes (takeWhile_cons_of_neg hp) (dropWhile_cons_of_neg hp)

section Lexer

variable (hlimit : src.length < limit)

include hlimit

theorem fuel_of_valid (h : c.Valid src) : c.fin - c.beg < limit := by
  have := h.inside
  omega

theorem skipWs_ends (h : c.Valid src) : Ends (skipWs src limit c) fun d =>
    c.Advances d ∧ d.bytes src = Damacy.skipWs (c.bytes src) :=
  (advanceWhile_ends isWs h (fuel_of_valid hlimit h)).mono fun _ hd => ⟨hd.1, hd.2.2⟩

theorem digitRun_ends (h : c.Valid src) : Ends (digitRun src limit c) fun d =>
    c.Advances d ∧ Damacy.digitRun (c.bytes src) = (Slice.bytes src ⟨c.beg, d.beg⟩, d.bytes src) := by
  refine (advanceWhile_ends isDigit h (fuel_of_valid hlimit h)).mono ?_
  rintro d ⟨hd, htake, hdrop⟩
  rw [Damacy.digitRun, span_eq_takeWhile_dropWhile, htake, hdrop]
  exact ⟨hd, rfl⟩

/-! ## Numbers -/

omit hlimit in
theorem optionalByte_ends {p : UInt8 → Bool} {g : List UInt8 → List UInt8 × List UInt8}
    (hnil : g [] = ([], []))
    (hcons : ∀ b bs, g (b :: bs) = if p b then ([b], bs) else ([], b :: bs)) (h : c.Valid src) :
    Ends (optionalByte src c p) fun d => c.Advances d ∧
      g (c.bytes src) = (Slice.bytes src ⟨c.beg, d.beg⟩, d.bytes src) := by
  rw [optionalByte]
  rcases c.view h with ⟨hend, hempty⟩ | ⟨b, hfirst⟩
  · rw [peekIs_end hend, ok_bind]
    exact Ends.ok ⟨h.refl, by rw [hempty, hnil, Slice.bytes_self]⟩
  · rw [peekIs_first hfirst, ok_bind, hfirst.bytes, hcons]
    by_cases hp : p b = true
    · rw [if_pos hp, if_pos hp]
      exact Ends.ok ⟨hfirst.advances, by rw [hfirst.one]⟩
    · rw [if_neg hp, if_neg hp]
      exact Ends.ok ⟨h.refl, by rw [Slice.bytes_self, hfirst.bytes]⟩

omit hlimit in
theorem lexSign_ends (h : c.Valid src) : Ends (optionalByte src c (· == 0x2D)) fun d =>
    c.Advances d ∧ lexSign (c.bytes src) = (Slice.bytes src ⟨c.beg, d.beg⟩, d.bytes src) :=
  optionalByte_ends rfl (fun b bs => by simp [lexSign]) h

omit hlimit in
theorem lexExpSign_ends (h : c.Valid src) :
    Ends (optionalByte src c fun ch => ch == 0x2B || ch == 0x2D) fun d => c.Advances d ∧
      lexExpSign (c.bytes src) = (Slice.bytes src ⟨c.beg, d.beg⟩, d.bytes src) :=
  optionalByte_ends rfl (fun b bs => by simp [lexExpSign]) h

/-- The bytes of a piece that has been passed over, and what is left, if the function has
succeeded. -/
def piece (src : List UInt8) (c : Slice) (ok : Bool) (d : Slice) :
    Option (List UInt8 × List UInt8) :=
  if ok then some (Slice.bytes src ⟨c.beg, d.beg⟩, d.bytes src) else none

theorem lexDigits_ends (h : c.Valid src) : Ends (lexDigits src limit c) fun r =>
    c.Advances r.2 ∧ Damacy.lexDigits (c.bytes src) = piece src c r.1 r.2 := by
  rw [lexDigits]
  rcases c.view h with ⟨hend, hnil⟩ | ⟨b, hfirst⟩
  · rw [peekIs_end hend, ok_bind]
    exact Ends.ok ⟨h.refl, by rw [hnil]; rfl⟩
  · rw [peekIs_first hfirst, ok_bind]
    by_cases hp : isDigit b = true
    · rw [if_pos hp]
      refine (digitRun_ends hlimit h).bind ?_
      rintro d ⟨hd, hrun⟩
      refine Ends.ok ⟨hd, ?_⟩
      rw [Damacy.lexDigits]
      simp only
      rw [if_neg, hrun]
      · rfl
      · rw [Damacy.digitRun, span_eq_takeWhile_dropWhile, hfirst.bytes,
          takeWhile_cons_of_pos hp]
        exact cons_ne_nil _ _
    · rw [if_neg hp]
      refine Ends.ok ⟨h.refl, ?_⟩
      rw [Damacy.lexDigits]
      simp only
      rw [if_pos]
      · rfl
      · rw [Damacy.digitRun, span_eq_takeWhile_dropWhile, hfirst.bytes,
          takeWhile_cons_of_neg hp]

theorem lexInt_ends (h : c.Valid src) : Ends (lexInt src limit c) fun r =>
    c.Advances r.2 ∧ Damacy.lexInt (c.bytes src) = piece src c r.1 r.2 := by
  rw [lexInt]
  rcases c.view h with ⟨hend, hnil⟩ | ⟨b, hfirst⟩
  · rw [if_pos hend]
    exact Ends.ok ⟨h.refl, by rw [hnil]; rfl⟩
  · rw [hfirst.notEnd, if_neg (by decide), hfirst.read, ok_bind]
    have hdigit : (0x31 ≤ b ∧ b ≤ 0x39) ↔ b ≠ 0x30 ∧ isDigit b = true := by
      simp only [isDigit, Bool.and_eq_true, decide_eq_true_eq, UInt8.le_iff_toNat_le, ne_eq,
        ← UInt8.toNat_inj]
      simp only [UInt8.toNat_ofNat]
      omega
    by_cases hzero : b = 0x30
    · rw [if_pos hzero]
      refine Ends.ok ⟨hfirst.advances, ?_⟩
      rw [hfirst.bytes, Damacy.lexInt, if_pos hzero, piece, if_pos rfl, hfirst.one]
    · rw [if_neg hzero]
      by_cases hp : isDigit b = true
      · rw [if_pos (hdigit.2 ⟨hzero, hp⟩)]
        refine (digitRun_ends hlimit h).bind ?_
        rintro d ⟨hd, hrun⟩
        refine Ends.ok ⟨hd, ?_⟩
        rw [hfirst.bytes] at hrun ⊢
        rw [Damacy.lexInt, if_neg hzero, if_pos hp, hrun]
        rfl
      · rw [if_neg (fun hc => hp (hdigit.1 hc).2)]
        refine Ends.ok ⟨h.refl, ?_⟩
        rw [hfirst.bytes, Damacy.lexInt, if_neg hzero, if_neg hp]
        rfl

def floatFlag (f : JsonNodeFlag) (c d : Slice) : JsonNodeFlag :=
  if d.beg = c.beg then f else .numFloat

/-- What is found of a part of a number: `found` is the same part of the bytes. -/
def PartRead (src : List UInt8) (f : JsonNodeFlag) (c : Slice)
    (found : Option (List UInt8 × List UInt8)) (r : Option JsonNodeFlag × Slice) : Prop :=
  c.Advances r.2 ∧ found = piece src c r.1.isSome r.2 ∧ ∀ g ∈ r.1, g = floatFlag f c r.2

omit hlimit in
theorem partRead_missing (h : c.Valid src) (f : JsonNodeFlag) :
    PartRead src f c (some ([], c.bytes src)) (some f, c) := by
  refine ⟨h.refl, by rw [piece, Slice.bytes_self]; rfl, fun g hg => ?_⟩
  obtain rfl := Option.some.inj hg
  rw [floatFlag, if_pos rfl]

omit hlimit in
theorem partRead_digits {r : Bool × Slice} {found : Option (List UInt8 × List UInt8)}
    (f : JsonNodeFlag) (h : c.Advances r.2) (hlt : c.beg < r.2.beg)
    (hfound : found = piece src c r.1 r.2) :
    PartRead src f c found (if r.1 then some .numFloat else none, r.2) := by
  refine ⟨h, ?_, fun g hg => ?_⟩
  · rw [hfound]
    cases r.1 <;> rfl
  · rw [floatFlag, if_neg hlt.ne']
    cases hr : r.1 <;> simp_all

theorem lexFrac_ends (h : c.Valid src) (f : JsonNodeFlag) :
    Ends (lexFrac src limit f c) (PartRead src f c (Damacy.lexFrac (c.bytes src))) := by
  have hmissing := partRead_missing h f
  rw [lexFrac]
  rcases c.view h with ⟨hend, hnil⟩ | ⟨b, hfirst⟩
  · rw [peekIs_end hend, ok_bind]
    rw [hnil] at hmissing ⊢
    exact Ends.ok hmissing
  · rw [peekIs_first hfirst, ok_bind, hfirst.bytes, Damacy.lexFrac]
    by_cases hp : b = 0x2E
    · rw [if_pos (by simpa using hp), if_pos hp]
      refine (lexDigits_ends hlimit (hfirst.advances.valid h)).bind ?_
      rintro r ⟨hr, hdigits⟩
      refine Ends.ok (partRead_digits f (hfirst.advances.trans hr) (Nat.lt_of_succ_le hr.beg) ?_)
      rw [hdigits, piece, piece, hfirst.span _ hr.beg]
      cases r.1 <;> rfl
    · rw [if_neg (by simpa using hp), if_neg hp, ← hfirst.bytes]
      exact Ends.ok hmissing

theorem lexExp_ends (h : c.Valid src) (f : JsonNodeFlag) :
    Ends (lexExp src limit f c) (PartRead src f c (Damacy.lexExp (c.bytes src))) := by
  have hmissing := partRead_missing h f
  rw [lexExp]
  rcases c.view h with ⟨hend, hnil⟩ | ⟨b, hfirst⟩
  · rw [peekIs_end hend, ok_bind]
    rw [hnil] at hmissing ⊢
    exact Ends.ok hmissing
  · rw [peekIs_first hfirst, ok_bind, hfirst.bytes, Damacy.lexExp]
    by_cases hp : b = 0x65 ∨ b = 0x45
    · rw [if_pos (by simpa using hp), if_pos hp]
      have hvalid := hfirst.advances.valid h
      refine (lexExpSign_ends hvalid).bind ?_
      rintro d ⟨hd, hsign⟩
      refine (lexDigits_ends hlimit (hd.valid hvalid)).bind ?_
      rintro r ⟨hr, hdigits⟩
      have hadvances := hd.trans hr
      refine Ends.ok (partRead_digits f (hfirst.advances.trans hadvances)
        (Nat.lt_of_succ_le hadvances.beg) ?_)
      rw [hsign]
      dsimp only
      rw [hdigits, piece, piece, hfirst.span _ hadvances.beg]
      cases r.1 with
      | false => rfl
      | true =>
        rw [← Slice.bytes_append hd.beg hr.beg]
        rfl
    · rw [if_neg (by simpa using hp), if_neg hp, ← hfirst.bytes]
      exact Ends.ok hmissing

omit hlimit in
theorem floatFlag_eq (h : c.Valid src) (hd : c.Advances d) (f : JsonNodeFlag) :
    floatFlag f c d = if Slice.bytes src ⟨c.beg, d.beg⟩ = [] then f else .numFloat := by
  have hiff := Slice.bytes_eq_nil_iff (hd.passed_valid h)
  rw [floatFlag]
  exact if_congr hiff.symm rfl rfl

omit hlimit in
theorem lexInt_ne_nil {bs : List UInt8} {r : List UInt8 × List UInt8}
    (h : Damacy.lexInt bs = some r) : r.1 ≠ [] := by
  cases bs with
  | nil => cases h
  | cons b bs =>
    rw [Damacy.lexInt] at h
    split_ifs at h with hzero hdigit
    · obtain rfl := Option.some.inj h
      exact cons_ne_nil _ _
    · obtain rfl := Option.some.inj h
      rw [Damacy.digitRun, span_eq_takeWhile_dropWhile, takeWhile_cons_of_pos hdigit]
      exact cons_ne_nil _ _

/-- What is found of a string or a number: `found` is the same in the bytes. -/
structure SpanRead (src : List UInt8) (c : Slice)
    (found : Option (List UInt8 × JsonNodeFlag × List UInt8))
    (r : Option (Slice × JsonNodeFlag) × Slice) : Prop where
  advances : c.Advances r.2
  inside : ∀ s ∈ r.1, s.1.Inside ⟨c.beg, r.2.beg⟩ ∧ c.beg < r.2.beg
  agrees : found = r.1.map fun s => (s.1.bytes src, s.2, r.2.bytes src)

omit hlimit in
theorem SpanRead.fail (h : c.Advances d) : SpanRead src c none (none, d) := ⟨h, nofun, rfl⟩

theorem lexNumberSpan_ends (h : c.Valid src) : Ends (lexNumberSpan src limit c) fun r =>
    SpanRead src c (Damacy.lexNumberSpan (c.bytes src)) r ∧ ∀ s ∈ r.1, s.1 = ⟨c.beg, r.2.beg⟩ := by
  rw [lexNumberSpan, Damacy.lexNumberSpan]
  refine (lexSign_ends h).bind ?_
  rintro d ⟨hd, hsign⟩
  rw [hsign]
  refine (lexInt_ends hlimit (hd.valid h)).bind ?_
  rintro ⟨ok, i⟩ ⟨(hi : d.Advances i), hint⟩
  have hci := hd.trans hi
  dsimp only at hint ⊢
  rw [hint]
  cases ok with
  | false => exact Ends.ok ⟨.fail hci, fun s hs => by cases hs⟩
  | true =>
    have hlt : d.beg ≠ i.beg := fun heq =>
      lexInt_ne_nil hint ((Slice.bytes_eq_nil_iff (hi.passed_valid (hd.valid h))).2 heq.symm)
    rw [if_neg (by decide)]
    refine (lexFrac_ends hlimit (hci.valid h) .none).bind ?_
    rintro ⟨frac, j⟩ ⟨(hj : i.Advances j), hfrac, hflag⟩
    have hcj := hci.trans hj
    simp only [piece, if_true, Option.bind_eq_bind, Option.bind_some] at hfrac hflag ⊢
    rw [hfrac]
    cases frac with
    | none => exact Ends.ok ⟨.fail hcj, fun s hs => by cases hs⟩
    | some f =>
      refine (lexExp_ends hlimit (hcj.valid h) f).bind ?_
      rintro ⟨exp, k⟩ ⟨(hk : j.Advances k), hexp, hflag'⟩
      have hck := hcj.trans hk
      simp only [piece, Option.isSome_some, if_true, Option.bind_some] at hexp hflag' ⊢
      rw [hexp]
      cases exp with
      | none => exact Ends.ok ⟨.fail hck, fun s hs => by cases hs⟩
      | some g =>
        have hspan : Slice.bytes src ⟨c.beg, d.beg⟩ ++ Slice.bytes src ⟨d.beg, i.beg⟩ ++
            Slice.bytes src ⟨i.beg, j.beg⟩ ++ Slice.bytes src ⟨j.beg, k.beg⟩ =
              Slice.bytes src ⟨c.beg, k.beg⟩ := by
          rw [Slice.bytes_append hd.beg hi.beg, Slice.bytes_append hci.beg hj.beg,
            Slice.bytes_append hcj.beg hk.beg]
        have hf := hflag f rfl
        have hg := hflag' g rfl
        rw [floatFlag_eq (hci.valid h) hj] at hf
        rw [floatFlag_eq (hcj.valid h) hk] at hg
        refine Ends.ok ⟨⟨hck, ?_, ?_⟩, fun s hs => by rw [← Option.some.inj hs]⟩
        · rintro s hs
          obtain rfl := Option.some.inj hs
          exact ⟨⟨le_rfl, hck.beg, le_rfl⟩, (hd.beg.trans_lt (hi.beg.lt_of_ne hlt)).trans_le
            (hj.beg.trans hk.beg)⟩
        · have hboth : (if Slice.bytes src ⟨i.beg, j.beg⟩ = [] ∧ Slice.bytes src ⟨j.beg, k.beg⟩ = []
              then JsonNodeFlag.none else .numFloat) = g := by
            rw [hg, hf, ite_and]
            split_ifs <;> rfl
          simp only [Option.isSome_some, if_true, Option.bind_some, Option.map_some]
          rw [hspan, hboth]

/-! ## Strings -/

/-- The flag of a string of which a part with the flag `f` has been read before. -/
def overFlag (f flag : JsonNodeFlag) : JsonNodeFlag := if flag = .strEscaped then .strEscaped else f

/-- What is found of the rest of a string that starts at `start`: `found` is the same in the bytes. -/
inductive StringRead (src : List UInt8) (start : ℕ) (f : JsonNodeFlag) (c : Slice) :
    Option (List UInt8 × JsonNodeFlag × List UInt8) → Option (Slice × JsonNodeFlag) × Slice → Prop
  | fail {d : Slice} (advances : c.Advances d) : StringRead src start f c none (none, d)
  | found {d : Slice} {quote : ℕ} (flag : JsonNodeFlag) (le : c.beg ≤ quote) (next : d.beg = quote + 1)
      (advances : c.Advances d) :
      StringRead src start f c (some (Slice.bytes src ⟨c.beg, quote⟩, flag, d.bytes src))
        (some (⟨start, quote⟩, overFlag f flag), d)

omit hlimit in
theorem StringRead.prepend {start : ℕ} {f f' : JsonNodeFlag} {g : JsonNodeFlag → JsonNodeFlag}
    {found : Option (List UInt8 × JsonNodeFlag × List UInt8)}
    {r : Option (Slice × JsonNodeFlag) × Slice} (h : c.Advances d)
    (hg : ∀ flag, overFlag f' flag = overFlag f (g flag)) (hr : StringRead src start f' d found r) :
    StringRead src start f c
      (found.map fun r => (Slice.bytes src ⟨c.beg, d.beg⟩ ++ r.1, g r.2.1, r.2.2)) r := by
  cases hr with
  | fail advances => exact .fail (h.trans advances)
  | found flag le next advances =>
    rw [hg, Option.map_some]
    dsimp only
    rw [Slice.bytes_append h.beg le]
    exact .found (g flag) (h.beg.trans le) next (h.trans advances)

omit hlimit in
theorem hexDigits_ends (n : ℕ) (h : c.Valid src) (hn : c.beg + n ≤ c.fin) :
    Ends (hexDigits src c.beg n) (· = ((c.bytes src).take n).all isHexDigit) := by
  induction n generalizing c with
  | zero => exact Ends.ok rfl
  | succ n ih =>
    rcases c.view h with ⟨hend, -⟩ | ⟨b, hfirst⟩
    · rw [Slice.atEnd, decide_eq_true_eq] at hend
      omega
    · rw [hexDigits, hfirst.read, ok_bind, hfirst.bytes, take_succ_cons, all_cons]
      by_cases hp : isHexDigit b = true
      · rw [if_pos hp, hp, Bool.true_and]
        exact ih (hfirst.advances.valid h) (by simp only [Slice.advance]; omega)
      · rw [if_neg hp, Bool.eq_false_iff.2 hp]
        exact Ends.ok rfl

omit hlimit in
theorem stringLoop_unicode (bs : List UInt8) : Damacy.stringLoop (0x5C :: 0x75 :: bs) =
    if 4 ≤ bs.length ∧ (bs.take 4).all isHexDigit = true then
      (Damacy.stringLoop (bs.drop 4)).map fun r =>
        (0x5C :: 0x75 :: bs.take 4 ++ r.1, .strEscaped, r.2.2)
    else none := by
  rw [Damacy.stringLoop.eq_def]
  rcases bs with _ | ⟨a, _ | ⟨b, _ | ⟨c, _ | ⟨d, bs⟩⟩⟩⟩
  · rfl
  · rfl
  · rfl
  · rfl
  · simp [and_assoc]

omit hlimit in
theorem stringLoop_escape {b : UInt8} (hb : b ≠ 0x75) (bs : List UInt8) :
    Damacy.stringLoop (0x5C :: b :: bs) = if isSimpleEscape b = true then
      (Damacy.stringLoop bs).map fun r => (0x5C :: b :: r.1, .strEscaped, r.2.2) else none := by
  rw [Damacy.stringLoop.eq_def]
  simp only
  rw [if_neg (by decide), if_pos trivial, if_neg hb]

omit hlimit in
theorem escape_ends {start fuel : ℕ} (f : JsonNodeFlag) (h : c.Valid src)
    (hfirst : c.First src 0x5C)
    (hloop : ∀ d, c.Advances d → c.beg < d.beg → Ends (stringLoop src start fuel .strEscaped d)
      (StringRead src start .strEscaped d (Damacy.stringLoop (d.bytes src)))) :
    Ends (stringLoop src start (fuel + 1) f c)
      (StringRead src start f c (Damacy.stringLoop (c.bytes src))) := by
  have hcd := hfirst.advances
  rw [stringLoop, hfirst.notEnd, if_neg (by decide), hfirst.read, ok_bind, if_neg (by decide),
    if_pos rfl, hfirst.bytes]
  dsimp only
  rcases (c.advance 1).view (hcd.valid h) with ⟨hend, hnil⟩ | ⟨esc, hesc⟩
  · rw [if_pos hend, hnil]
    exact Ends.ok (.fail hcd)
  · have hce := hcd.trans hesc.advances
    have hstep : ∀ {d}, c.Advances d → (c.advance 1).beg < d.beg →
        Slice.bytes src ⟨c.beg, d.beg⟩ =
          0x5C :: esc :: Slice.bytes src ⟨((c.advance 1).advance 1).beg, d.beg⟩ := by
      intro d hd hlt
      rw [hfirst.span _ (Nat.lt_of_succ_lt hlt), hesc.span _ hlt]
    rw [hesc.notEnd, if_neg (by decide), hesc.read, ok_bind, hesc.bytes]
    by_cases hu : esc = 0x75
    · subst hu
      have hev := hce.valid h
      rw [if_pos rfl, stringLoop_unicode, Slice.length_bytes hev]
      by_cases hshort : (c.advance 1).fin - (c.advance 1).beg < 5
      · rw [if_pos hshort, if_neg (by simp only [Slice.advance] at hshort ⊢; omega)]
        exact Ends.ok (.fail hcd)
      · have hfour : ((c.advance 1).advance 1).beg + 4 ≤ ((c.advance 1).advance 1).fin := by
          simp only [Slice.advance] at hshort ⊢
          omega
        rw [if_neg hshort]
        refine (hexDigits_ends 4 hev hfour).bind ?_
        rintro hex rfl
        by_cases hhex : ((((c.advance 1).advance 1).bytes src).take 4).all isHexDigit = true
        · have hcf := hce.trans (Slice.advances_advance hfour)
          rw [if_pos hhex, if_pos ⟨Nat.le_sub_of_add_le' hfour, hhex⟩, Slice.take_bytes hfour,
            Slice.drop_bytes]
          refine (hloop _ hcf (by simp only [Slice.advance]; omega)).mono fun r hr => ?_
          have hread := hr.prepend hcf (f := f) (g := fun _ => .strEscaped)
            (fun flag => by simp [overFlag])
          rw [hstep hcf (by simp only [Slice.advance]; omega)] at hread
          exact hread
        · rw [if_neg hhex, if_neg (fun hc => hhex hc.2)]
          exact Ends.ok (.fail hcd)
    · rw [if_neg hu, stringLoop_escape hu]
      by_cases hsimple : isSimpleEscape esc = true
      · rw [if_pos hsimple, if_pos hsimple]
        refine (hloop _ hce (by simp only [Slice.advance]; omega)).mono fun r hr => ?_
        have hread := hr.prepend hce (f := f) (g := fun _ => .strEscaped)
          (fun flag => by simp [overFlag])
        rw [hstep hce (Nat.lt_succ_self _), Slice.bytes_self] at hread
        exact hread
      · rw [if_neg hsimple, if_neg hsimple]
        exact Ends.ok (.fail hcd)

omit hlimit in
theorem stringLoop_ends (start : ℕ) {fuel : ℕ} (f : JsonNodeFlag) (h : c.Valid src)
    (hfuel : c.fin - c.beg < fuel) : Ends (stringLoop src start fuel f c)
      (StringRead src start f c (Damacy.stringLoop (c.bytes src))) := by
  induction fuel generalizing f c with
  | zero => omega
  | succ fuel ih =>
    have hloop : ∀ f d, c.Advances d → c.beg < d.beg → Ends (stringLoop src start fuel f d)
        (StringRead src start f d (Damacy.stringLoop (d.bytes src))) :=
      fun f d hd hlt => ih f (hd.valid h) (hd.fuel hlt hfuel)
    rcases c.view h with ⟨hend, hnil⟩ | ⟨b, hfirst⟩
    · rw [stringLoop, if_pos hend, hnil]
      exact Ends.ok (.fail h.refl)
    · by_cases hslash : b = 0x5C
      · subst hslash
        exact escape_ends f h hfirst fun d => hloop .strEscaped d
      · rw [stringLoop, hfirst.notEnd, if_neg (by decide), hfirst.read, ok_bind, hfirst.bytes,
          Damacy.stringLoop.eq_def]
        simp only [if_neg hslash]
        by_cases hquote : b = 0x22
        · rw [if_pos hquote, if_pos hquote, ← Slice.bytes_self src c.beg]
          exact Ends.ok (.found .none le_rfl rfl hfirst.advances)
        · rw [if_neg hquote, if_neg hquote]
          by_cases hctl : b < 0x20
          · rw [if_pos hctl, if_pos hctl]
            exact Ends.ok (.fail h.refl)
          · rw [if_neg hctl, if_neg hctl]
            refine (hloop f _ hfirst.advances (Nat.lt_succ_self _)).mono fun r hr => ?_
            have hread := hr.prepend hfirst.advances (f := f) (g := id) fun _ => rfl
            rw [hfirst.one] at hread
            exact hread

omit hlimit in
theorem overFlag_stringLoop {bs : List UInt8} {r : List UInt8 × JsonNodeFlag × List UInt8}
    (h : Damacy.stringLoop bs = some r) : overFlag .none r.2.1 = r.2.1 := by
  fun_induction Damacy.stringLoop bs generalizing r with
  | case2 =>
    obtain rfl := Option.some.inj h
    rfl
  | case4 =>
    obtain ⟨r', -, rfl⟩ := Option.map_eq_some_iff.mp h
    rfl
  | case7 =>
    obtain ⟨r', -, rfl⟩ := Option.map_eq_some_iff.mp h
    rfl
  | case10 _ _ _ _ _ ih =>
    obtain ⟨r', hr', rfl⟩ := Option.map_eq_some_iff.mp h
    have hflag := ih hr'
    exact hflag
  | _ => cases h

theorem lexStringSpan_ends (h : c.Valid src) : Ends (lexStringSpan src limit c) fun r =>
    SpanRead src c (Damacy.lexStringSpan (c.bytes src)) r ∧
      ∀ s ∈ r.1, s.1 = ⟨c.beg + 1, r.2.beg - 1⟩ := by
  rw [lexStringSpan]
  rcases c.view h with ⟨hend, hnil⟩ | ⟨b, hfirst⟩
  · rw [peekIs_end hend, ok_bind, hnil]
    exact Ends.ok ⟨.fail h.refl, nofun⟩
  · rw [peekIs_first hfirst, ok_bind, hfirst.bytes, Damacy.lexStringSpan]
    by_cases hquote : b = 0x22
    · have hvalid := hfirst.advances.valid h
      rw [if_pos (by simpa using hquote), if_pos hquote]
      refine (stringLoop_ends _ .none hvalid (fuel_of_valid hlimit hvalid)).mono fun r hr => ?_
      generalize hfound : Damacy.stringLoop ((c.advance 1).bytes src) = found at hr
      cases hr with
      | fail advances => exact ⟨.fail (hfirst.advances.trans advances), nofun⟩
      | found flag le next advances =>
        rw [overFlag_stringLoop hfound]
        refine ⟨⟨hfirst.advances.trans advances, fun s hs => ?_, rfl⟩, fun s hs => ?_⟩
        · obtain rfl := Option.some.inj hs
          have hlt := Nat.lt_of_succ_le le
          exact ⟨⟨Nat.le_succ _, le, next.symm.le.trans' (Nat.le_succ _)⟩, by dsimp only; omega⟩
        · rw [← Option.some.inj hs]
          dsimp only
          rw [next, Nat.add_sub_cancel]
    · rw [if_neg (by simpa using hquote), if_neg hquote]
      exact Ends.ok ⟨.fail h.refl, nofun⟩

/-! ## Keywords and containers -/

/-- What is passed over as a whole: `found` is what is left of the bytes. -/
structure Passed (src : List UInt8) (c : Slice) (found : Option (List UInt8)) (r : Bool × Slice) :
    Prop where
  advances : c.Advances r.2
  lt : r.1 = true → c.beg < r.2.beg
  agrees : found = if r.1 then some (r.2.bytes src) else none

omit hlimit in
theorem Passed.fail (h : c.Advances d) : Passed src c none (false, d) := ⟨h, nofun, rfl⟩

omit hlimit in
theorem lexKeyword_ends {kw : List UInt8} (hkw : kw ≠ []) (h : c.Valid src) :
    Ends (lexKeyword src kw c) (Passed src c (Damacy.lexKeyword kw (c.bytes src))) := by
  have hlength := Slice.length_bytes h
  have hpos := length_pos_of_ne_nil hkw
  rw [lexKeyword, Damacy.lexKeyword]
  by_cases hshort : c.fin - c.beg < kw.length
  · rw [if_pos hshort, if_neg]
    · exact Ends.ok (.fail h.refl)
    · rw [ isPrefixOf_iff_prefix]
      intro hprefix
      have := hprefix.length_le
      omega
  · have hroom : c.beg + kw.length ≤ c.fin := by omega
    rw [if_neg hshort]
    refine (readBytes_take_ends h hroom).bind ?_
    rintro bs rfl
    have hiff : (c.bytes src).take kw.length = kw ↔ kw.isPrefixOf (c.bytes src) = true := by
      rw [ isPrefixOf_iff_prefix, prefix_iff_eq_take, eq_comm]
    by_cases heq : (c.bytes src).take kw.length = kw
    · rw [if_pos heq, if_pos (hiff.1 heq), Slice.drop_bytes]
      exact Ends.ok ⟨Slice.advances_advance hroom, fun _ => by simp only [Slice.advance]; omega, rfl⟩
    · rw [if_neg heq, if_neg (fun hc => heq (hiff.2 hc))]
      exact Ends.ok (.fail h.refl)

omit hlimit in
theorem skip_quote (o cl : UInt8) (depth : ℕ) (bs : List UInt8) : skip o cl depth (0x22 :: bs) =
    match Damacy.lexStringSpan (0x22 :: bs) with
    | none => none
    | some r => skip o cl depth r.2.2 := by
  rw [skip, length_cons, Damacy.skipLoop, if_pos rfl]
  cases hlex : Damacy.lexStringSpan (0x22 :: bs) with
  | none => rfl
  | some r =>
    rw [Damacy.lexStringSpan, if_pos rfl] at hlex
    exact skipLoop_fuel _ _ _ (stringLoop_length hlex).le

theorem skipLoop_ends (o cl : UInt8) {fuel : ℕ} (depth : ℕ) (h : c.Valid src)
    (hfuel : c.fin - c.beg < fuel) : Ends (skipLoop src limit o cl fuel depth c)
      (Passed src c (skip o cl depth (c.bytes src))) := by
  induction fuel generalizing depth c with
  | zero => omega
  | succ fuel ih =>
    have hloop : ∀ {found} depth d, c.Advances d → c.beg < d.beg →
        found = skip o cl depth (d.bytes src) →
        Ends (skipLoop src limit o cl fuel depth d) (Passed src c found) := by
      rintro found depth d hd hlt rfl
      refine (ih depth (hd.valid h) (hd.fuel hlt hfuel)).mono fun r hr => ?_
      exact ⟨hd.trans hr.advances, fun _ => hlt.trans_le hr.advances.beg, hr.agrees⟩
    rw [skipLoop]
    rcases c.view h with ⟨hend, hnil⟩ | ⟨b, hfirst⟩
    · rw [if_pos hend, hnil]
      exact Ends.ok (.fail h.refl)
    · have hnext : c.beg < (c.advance 1).beg := Nat.lt_succ_self _
      rw [hfirst.notEnd, if_neg (by decide), hfirst.read, ok_bind]
      by_cases hquote : b = 0x22
      · subst hquote
        rw [if_pos rfl]
        refine (lexStringSpan_ends hlimit h).bind fun r ⟨hr, _⟩ => ?_
        have hskip := skip_quote o cl depth ((c.advance 1).bytes src)
        rw [← hfirst.bytes, hr.agrees] at hskip
        rw [hskip]
        rcases r with ⟨_ | s, d⟩
        · exact Ends.ok (.fail h.refl)
        · exact hloop _ _ hr.advances (hr.inside s rfl).2 rfl
      · rw [if_neg hquote, hfirst.bytes, skip_cons hquote]
        by_cases ho : b = o
        · rw [if_pos ho, if_pos ho]
          exact hloop _ _ hfirst.advances hnext rfl
        · rw [if_neg ho, if_neg ho]
          by_cases hcl : b = cl
          · rw [if_pos hcl, if_pos hcl]
            by_cases hzero : depth - 1 = 0
            · rw [if_pos hzero, if_pos hzero]
              exact Ends.ok ⟨hfirst.advances, fun _ => hnext, rfl⟩
            · rw [if_neg hzero, if_neg hzero]
              exact hloop _ _ hfirst.advances hnext rfl
          · rw [if_neg hcl, if_neg hcl]
            exact hloop _ _ hfirst.advances hnext rfl

/-! ## Values -/

def Node.view (src : List UInt8) (n : Node) : JsonNode := ⟨n.type, n.flag, n.s.bytes src⟩

/-- The span of a node of a type, when `d` is left of `c` behind it: a string is without its quotes. -/
def nodeSpan (type : JsonType) (c d : Slice) : Slice :=
  if type = .string then ⟨c.beg + 1, d.beg - 1⟩ else ⟨c.beg, d.beg⟩

/-- What is found of a value: `found` is the same in the bytes. -/
structure ValueRead (src : List UInt8) (c : Slice) (found : Except JsonErr (JsonNode × List UInt8))
    (r : Except JsonErr Node × Slice) : Prop where
  advances : c.Advances r.2
  inside : ∀ n, r.1 = .ok n → n.s.Inside ⟨c.beg, r.2.beg⟩ ∧ c.beg < r.2.beg
  span : ∀ n, r.1 = .ok n → n.s = nodeSpan n.type c r.2
  agrees : found = r.1.map fun n => (n.view src, r.2.bytes src)

omit hlimit in
theorem ValueRead.fail (h : c.Advances d) : ValueRead src c (.error .parse) (.error .parse, d) :=
  ⟨h, nofun, nofun, rfl⟩

omit hlimit in
theorem SpanRead.value {found : Option (List UInt8 × JsonNodeFlag × List UInt8)}
    {r : Option (Slice × JsonNodeFlag) × Slice} (type : JsonType) (h : SpanRead src c found r)
    (hspan : ∀ s ∈ r.1, s.1 = nodeSpan type c r.2) :
    ValueRead src c (lexSpan type found) (spanned type r) := by
  rcases r with ⟨_ | ⟨s, flag⟩, d⟩
  · rw [h.agrees]
    exact .fail h.advances
  · rw [h.agrees]
    refine ⟨h.advances, fun n hn => ?_, fun n hn => ?_, rfl⟩
    all_goals obtain rfl := Except.ok.inj hn
    · exact h.inside _ rfl
    · exact hspan _ rfl

omit hlimit in
theorem Passed.value {found : Option (List UInt8)} {r : Bool × Slice}
    {v : Except JsonErr (JsonNode × List UInt8)} {type : JsonType} (htype : type ≠ .string)
    (h : Passed src c found r) (hnone : found = none → v = .error .parse)
    (hsome : ∀ whole rest, found = some rest → c.bytes src = whole ++ rest →
      v = .ok (⟨type, .none, whole⟩, rest)) : ValueRead src c v (passed type c r) := by
  rcases r with ⟨_ | _, d⟩
  · rw [hnone h.agrees]
    exact .fail h.advances
  · refine ⟨h.advances, fun n hn => ?_, fun n hn => ?_,
      hsome _ _ h.agrees h.advances.bytes_passed_append.symm⟩
    all_goals obtain rfl := Except.ok.inj hn
    · exact ⟨⟨le_rfl, h.advances.beg, le_rfl⟩, h.lt rfl⟩
    · exact (if_neg htype).symm

omit hlimit in
theorem lexLiteral_ends {type : JsonType} (htype : type ≠ .string) {kw : List UInt8} (hkw : kw ≠ [])
    (h : c.Valid src) :
    Ends (passed type c <$> lexKeyword src kw c)
      (ValueRead src c (lexLiteral type kw (c.bytes src))) := by
  refine (lexKeyword_ends hkw h).map fun r hr => hr.value htype (fun hnone => ?_) ?_
  · rw [lexLiteral, hnone]
  · intro whole rest hsome hbytes
    have hkeyword := hsome
    rw [Damacy.lexKeyword] at hkeyword
    split_ifs at hkeyword with hprefix
    obtain ⟨tail, htail⟩ := isPrefixOf_iff_prefix.1 hprefix
    obtain rfl : tail = rest := by
      rw [← htail, drop_left] at hkeyword
      exact Option.some.inj hkeyword
    rw [lexLiteral, hsome, append_cancel_right (htail.trans hbytes)]

theorem lexContainer_ends {type : JsonType} (htype : type ≠ .string) {o cl : UInt8}
    (hb : Brackets o cl) (h : c.Valid src) (hfirst : c.First src o) :
    Ends (passed type c <$> skipContainer src limit c)
      (ValueRead src c (lexContainer type cl (c.bytes src))) := by
  have hlist : Damacy.skipContainer cl (c.bytes src) = skip o cl 0 (c.bytes src) := by
    rw [hfirst.bytes]
    rfl
  have hskip : skipContainer src limit c = skipLoop src limit o cl limit 0 c := by
    rw [skipContainer, hfirst.notEnd, if_neg (by decide), hfirst.read, ok_bind]
    rcases hb with ⟨rfl, rfl⟩ | ⟨rfl, rfl⟩ <;> rfl
  rw [hskip]
  refine (skipLoop_ends hlimit o cl 0 h (fuel_of_valid hlimit h)).map fun r hr =>
    hr.value htype (fun hnone => ?_) fun whole rest hsome hbytes => ?_
  · rw [lexContainer, hlist, hnone]
  · rw [lexContainer, hlist, hsome]
    dsimp only
    rw [hbytes, take_append_sub]

/-- **`lex_value` ends on every slice**, without a read outside of it, and finds what it finds in the
bytes; the node lies in what has been passed over. -/
theorem lexValue_ends (h : c.Valid src) :
    Ends (lexValue src limit c) (ValueRead src c (Damacy.lexValue (c.bytes src))) := by
  rw [lexValue]
  rcases c.view h with ⟨hend, hnil⟩ | ⟨b, hfirst⟩
  · rw [if_pos hend, hnil]
    exact Ends.ok (.fail h.refl)
  · have hlist : Damacy.lexValue (c.bytes src) =
        if b = 0x7B then lexContainer .object 0x7D (c.bytes src)
        else if b = 0x5B then lexContainer .array 0x5D (c.bytes src)
        else if b = 0x22 then lexSpan .string (Damacy.lexStringSpan (c.bytes src))
        else if b = 0x74 then lexLiteral .bool kwTrue (c.bytes src)
        else if b = 0x66 then lexLiteral .bool kwFalse (c.bytes src)
        else if b = 0x6E then lexLiteral .null kwNull (c.bytes src)
        else if b = 0x2D ∨ isDigit b then lexSpan .number (Damacy.lexNumberSpan (c.bytes src))
        else .error .parse := by
      rw [hfirst.bytes]
      rfl
    rw [hfirst.notEnd, if_neg (by decide), hfirst.read, ok_bind, hlist]
    split_ifs with hobject harray hstring htrue hfalse hnull hnumber
    · subst hobject
      exact lexContainer_ends hlimit (by decide) (.inl ⟨rfl, rfl⟩) h hfirst
    · subst harray
      exact lexContainer_ends hlimit (by decide) (.inr ⟨rfl, rfl⟩) h hfirst
    · exact (lexStringSpan_ends hlimit h).map fun r hr => hr.1.value .string hr.2
    · exact lexLiteral_ends (by decide) (by decide) h
    · exact lexLiteral_ends (by decide) (by decide) h
    · exact lexLiteral_ends (by decide) (by decide) h
    · exact (lexNumberSpan_ends hlimit h).map fun r hr => hr.1.value .number hr.2
    · exact Ends.ok (.fail h.refl)

/-! ## Well-formed values -/

omit hlimit in
theorem backslash_mem_iff (s : StringBody) : 0x5C ∈ s.bytes ↔ s.escaped = true := by
  induction s with
  | nil => simp [StringBody.bytes, StringBody.escaped]
  | cons item s ih =>
    have hbytes : StringBody.bytes (item :: s) = item.bytes ++ StringBody.bytes s := rfl
    have hescaped : StringBody.escaped (item :: s) = (item.escaped || StringBody.escaped s) := rfl
    rw [hbytes, hescaped, mem_append, Bool.or_eq_true, ih]
    refine or_congr_left ?_
    cases item with
    | plain b _ _ ne_backslash => simp [StringItem.bytes, StringItem.escaped, ne_backslash.symm]
    | escape b => simp [StringItem.bytes, StringItem.escaped]
    | unicode a b c d => simp [StringItem.bytes, StringItem.escaped]

omit hlimit in
theorem valueNode_flag_strEscaped (v : Value) :
    (valueNode v).flag = .strEscaped ↔ ∃ s, v = .string s ∧ 0x5C ∈ s.bytes := by
  cases v with
  | string s => simp [valueNode, backslash_mem_iff]
  | number n => simp only [valueNode]; split_ifs <;> simp
  | bool b => cases b <;> simp [valueNode]
  | _ => simp [valueNode]

omit hlimit in
theorem valueNode_flag_numFloat (v : Value) :
    (valueNode v).flag = .numFloat ↔ ∃ n, v = .number n ∧ (n.frac ≠ none ∨ n.exp ≠ none) := by
  cases v with
  | number n => simp [valueNode, Number.isFloat, Option.isSome_iff_ne_none, imp_iff_not_or]
  | string s => simp only [valueNode]; split_ifs <;> simp
  | bool b => cases b <;> simp [valueNode]
  | _ => simp [valueNode]

end Lexer

/-- **`lex_value` on a well-formed value**: it returns the node of the value, with its type, its span
and its flag, and stops right behind it. -/
theorem lexValue_wellFormed {v : Value} {rest : List UInt8} (h : c.Valid src)
    (hbytes : c.bytes src = v.render ++ rest) (hrest : Delimited rest) :
    ∃ n, lexValue src (src.length + 1) c = .ok (.ok n, c.advance v.render.length) ∧
      n.type = (valueNode v).type ∧
      n.s = (if n.type = .string then ⟨c.beg + 1, c.beg + v.render.length - 1⟩
        else ⟨c.beg, c.beg + v.render.length⟩) ∧
      (n.flag = .strEscaped ↔ ∃ s, v = .string s ∧ 0x5C ∈ s.bytes) ∧
      (n.flag = .numFloat ↔ ∃ k, v = .number k ∧ (k.frac ≠ none ∨ k.exp ≠ none)) := by
  obtain ⟨⟨r, d⟩, hrun, hread⟩ := lexValue_ends (Nat.lt_succ_self src.length) h
  have hagrees := hread.agrees
  rw [hbytes, lexValue_render v hrest] at hagrees
  rcases r with e | n
  · cases hagrees
  · obtain ⟨hnode, hleft⟩ := Prod.ext_iff.1 (Except.ok.inj hagrees)
    dsimp only at hnode hleft
    -- what is left is as long as the rest
    have hd : d = c.advance v.render.length := by
      have hlength := congrArg List.length hbytes
      have hlength' := congrArg List.length hleft
      have hdv := hread.advances.valid h
      rw [Slice.length_bytes h, length_append] at hlength
      rw [Slice.length_bytes hdv] at hlength'
      have h1 := hread.advances.fin
      have h2 := hdv.le
      have h3 := h.le
      obtain ⟨beg, fin⟩ := d
      dsimp only at h1 h2 hlength'
      rw [Slice.advance, h1, Slice.mk.injEq]
      omega
    subst hd
    rw [hnode]
    exact ⟨n, hrun, rfl, hread.span n rfl, by rw [← valueNode_flag_strEscaped, hnode]; rfl,
      by rw [← valueNode_flag_numFloat, hnode]; rfl⟩

/-- The key of a member, with an escape in it and a colon behind it. -/
theorem lexValue_wellFormed_key : ∃ n,
    lexValue [0x22, 0x5C, 0x6E, 0x22, 0x3A] 6 ⟨0, 5⟩ = .ok (.ok n, ⟨4, 5⟩) ∧
      n.s = ⟨1, 3⟩ ∧ n.flag = .strEscaped := by
  have hvalue : (Value.string [.escape 0x6E rfl]).render = [0x22, 0x5C, 0x6E, 0x22] := rfl
  obtain ⟨n, hrun, htype, hspan, hflag, -⟩ :=
    @lexValue_wellFormed [0x22, 0x5C, 0x6E, 0x22, 0x3A] ⟨0, 5⟩ (.string [.escape 0x6E rfl]) [0x3A]
      ⟨by decide, by decide⟩ rfl fun b hb => by
        obtain rfl := Option.some.inj hb
        decide
  rw [hvalue] at hrun hspan
  rw [show n.type = .string from htype] at hspan
  exact ⟨n, hrun, hspan, hflag.2 ⟨_, rfl, by decide⟩⟩

end Damacy.Cursor

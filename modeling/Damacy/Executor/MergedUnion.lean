import Mathlib.Data.List.GetD
import Damacy.Executor.MergedReads

/-!
# A merged read is the union of its members

`coalesceReads_held` bounds what is assigned to a merged read from above. This module says that a
merged read has nothing else: each of its bytes is a byte of one of the reads assigned to it, and it
is larger than one read only within the limits. Placeholders come last and are not changed
(`coalesceReads_exactly`).
-/

open List

namespace Damacy

section Union

variable {reads : List ReadOp} {s s₀ : FuseState} {done done₀ : List ℕ}
  {e m bound maxBytes maxChunks : ℕ} {r curr : ReadOp}

def ReadOp.Has (r : ReadOp) (x : ℕ) : Prop := r.fileOffset ≤ x ∧ x < r.fileOffset + r.nbytes

/-- Every merged read has reads of `done` that are assigned to it and cover it, and if there are
several it is at most `maxBytes` long. -/
structure Covered (reads : List ReadOp) (maxBytes : ℕ) (done : List ℕ) (s : FuseState) : Prop where
  started : ∀ m < s.tmp.length, ∃ i ∈ done, s.readIndex[i]? = some (some m)
  union : ∀ (m : ℕ) r, s.tmp[m]? = some r → ∀ x, r.Has x →
    ∃ i ∈ done, s.readIndex[i]? = some (some m) ∧ (reads.getD i ReadOp.blank).Has x
  capped : ∀ (m : ℕ) r, s.tmp[m]? = some r → 1 < s.members done m → r.nbytes ≤ maxBytes

theorem Covered.kept (h : Covered reads maxBytes done s) (hnew : e ∉ done) (v : Option ℕ)
    (hr : s.tmp[m]? = some r) {x : ℕ} (hx : r.Has x) : ∃ i ∈ e :: done,
      (s.readIndex.set e v)[i]? = some (some m) ∧ (reads.getD i ReadOp.blank).Has x := by
  obtain ⟨i, hi, hindex, hin⟩ := h.union m r hr x hx
  have hne : e ≠ i := fun heq => hnew (heq ▸ hi)
  exact ⟨i, mem_cons_of_mem e hi, by rw [getElem?_set_ne hne, hindex], hin⟩

theorem Covered.started_kept (h : Covered reads maxBytes done s) (hnew : e ∉ done) (v : Option ℕ)
    (hm : m < s.tmp.length) :
    ∃ i ∈ e :: done, (s.readIndex.set e v)[i]? = some (some m) := by
  obtain ⟨i, hi, hindex⟩ := h.started m hm
  have hne : e ≠ i := fun heq => hnew (heq ▸ hi)
  exact ⟨i, mem_cons_of_mem e hi, by rw [getElem?_set_ne hne, hindex]⟩

theorem Covered.append (h : Covered reads maxBytes done s) (hf : Fused reads done s)
    (he : e < reads.length) (hnew : e ∉ done) :
    Covered reads maxBytes (e :: done) (s.append e (reads.getD e ReadOp.blank)) := by
  have hself : (s.readIndex.set e (some s.tmp.length))[e]? = some (some s.tmp.length) :=
    getElem?_set_self (hf.index_length.symm ▸ he)
  -- a merged read is an old one or the new one
  have hcases : ∀ (m : ℕ) r, (s.append e (reads.getD e ReadOp.blank)).tmp[m]? = some r →
      s.tmp[m]? = some r ∨ m = s.tmp.length ∧ r = reads.getD e ReadOp.blank := by
    intro m r hr
    change (s.tmp ++ [reads.getD e ReadOp.blank])[m]? = some r at hr
    rcases Nat.lt_or_ge m s.tmp.length with hm | hm
    · exact .inl (by rwa [getElem?_append_left hm] at hr)
    · have hlt := (List.getElem?_eq_some_iff.mp hr).1
      rw [length_append, length_singleton] at hlt
      obtain rfl : m = s.tmp.length := by omega
      rw [getElem?_concat_length] at hr
      exact .inr ⟨rfl, (Option.some.inj hr).symm⟩
  refine ⟨fun m hm => ?_, fun m r hr x hx => ?_, fun m r hr hmany => ?_⟩
  · rcases hcases m _ (getElem?_eq_getElem hm) with hr | ⟨rfl, -⟩
    · exact h.started_kept hnew _ (List.getElem?_eq_some_iff.mp hr).1
    · exact ⟨e, mem_cons_self, hself⟩
  · rcases hcases m r hr with hr | ⟨rfl, rfl⟩
    · exact h.kept hnew _ hr hx
    · exact ⟨e, mem_cons_self, hself, hx⟩
  · rw [FuseState.members_record hf he hnew rfl] at hmany
    rcases hcases m r hr with hr | ⟨rfl, rfl⟩
    · have hne : s.tmp.length ≠ m := (List.getElem?_eq_some_iff.mp hr).1.ne'
      rw [if_neg hne, Nat.add_zero] at hmany
      exact h.capped m r hr hmany
    · rw [hf.members_fresh, if_pos rfl] at hmany
      omega

theorem ReadOp.has_of_grow {x : ℕ} (hmeet : curr.fileOffset ≤ r.fileOffset + r.nbytes)
    (hx : (r.grow curr).Has x) : r.Has x ∨ curr.Has x := by
  have hend := r.grow_end curr
  have hle : r.fileOffset ≤ x := hx.1
  have hlt : x < r.fileOffset + (r.grow curr).nbytes := hx.2
  rw [ReadOp.Has, ReadOp.Has]
  omega

theorem Covered.merge (h : Covered reads maxBytes done s) (hm : Merging reads bound done s)
    (hreads : ∀ r ∈ reads, r.Fits) (he : e < reads.length) (hnew : e ∉ done) {l : ℕ}
    (hcurrent : CurrentRead reads done s l m r)
    (hjoins : r.Joins maxBytes maxChunks s.leaderChunks (reads.getD e ReadOp.blank)) :
    Covered reads maxBytes (e :: done) (mergeRead s e m (reads.getD e ReadOp.blank)) := by
  have hr := hcurrent.read
  have hcfits : (reads.getD e ReadOp.blank).Fits := fits_getD hreads e
  have hrfits : r.Fits := hm.held.fits r (mem_of_getElem? hr)
  have hmlt : m < s.tmp.length := (List.getElem?_eq_some_iff.mp hr).1
  have hself : (s.readIndex.set e (some m))[e]? = some (some m) :=
    getElem?_set_self (hm.fused.index_length.symm ▸ he)
  rw [mergeRead_eq hcfits hrfits hr hcurrent.stop hjoins.start_le (hjoins.fits hcfits hrfits)]
  refine ⟨fun k hk => ?_, fun k r' hr' x hx => ?_, fun k r' hr' hmany => ?_⟩
  · exact h.started_kept hnew _ (by simpa using hk)
  · by_cases hk : m = k
    · subst hk
      rw [getElem?_set_self hmlt] at hr'
      obtain rfl := Option.some.inj hr'
      rcases ReadOp.has_of_grow hjoins.meets hx with hx | hx
      · exact h.kept hnew _ hr hx
      · exact ⟨e, mem_cons_self, hself, hx⟩
    · rw [getElem?_set_ne hk] at hr'
      exact h.kept hnew _ hr' hx
  · rw [FuseState.members_record hm.fused he hnew rfl] at hmany
    by_cases hk : m = k
    · subst hk
      rw [getElem?_set_self hmlt] at hr'
      obtain rfl := Option.some.inj hr'
      exact hjoins.bytes_le
    · rw [getElem?_set_ne hk] at hr'
      rw [if_neg hk, Nat.add_zero] at hmany
      exact h.capped k r' hr' hmany

theorem Covered.step (h : Covered reads maxBytes done s) (hm : Merging reads bound done s)
    (hreads : ∀ r ∈ reads, r.Fits) (he : e < reads.length) (hnew : e ∉ done) :
    Covered reads maxBytes (e :: done) (fuseRead reads maxBytes maxChunks s e) := by
  rcases fuseRead_cases hm.held hm.heldLeader hreads e with ⟨-, heq⟩ | ⟨l, m, r, hc, hjoins, heq⟩
  · rw [heq]
    have happ := h.append hm.fused he hnew
    exact ⟨happ.started, happ.union, happ.capped⟩
  · rw [heq]
    exact h.merge hm hreads he hnew hc hjoins

/-- The placeholders done after the merging loop, which ended in `s₀` with the reads `done₀`: they
have merged reads of their own after all others, and the merged reads before keep theirs. -/
structure Appended (reads : List ReadOp) (s₀ : FuseState) (done₀ done : List ℕ) (s : FuseState) :
    Prop where
  length_le : s₀.tmp.length ≤ s.tmp.length
  subset : done₀ ⊆ done
  kept : ∀ i ∈ done₀, s.readIndex[i]? = s₀.readIndex[i]?
  fill : ∀ i ∈ done, i ∉ done₀ → ∃ k, s₀.tmp.length ≤ k ∧ s.readIndex[i]? = some (some k) ∧
    s.tmp[k]? = some (reads.getD i ReadOp.blank)

theorem Appended.append (h : Appended reads s₀ done₀ done s) (hf : Fused reads done s)
    (he : e < reads.length) (hnew : e ∉ done) :
    Appended reads s₀ done₀ (e :: done) (s.append e (reads.getD e ReadOp.blank)) where
  length_le := by
    have := h.length_le
    rw [FuseState.append, length_append]
    omega
  subset := fun i hi => mem_cons_of_mem e (h.subset hi)
  kept := by
    intro i hi
    have hne : e ≠ i := fun heq => hnew (heq ▸ h.subset hi)
    exact (getElem?_set_ne hne).trans (h.kept i hi)
  fill := by
    intro i hi hi₀
    by_cases hie : e = i
    · subst hie
      exact ⟨s.tmp.length, h.length_le, getElem?_set_self (hf.index_length.symm ▸ he),
        getElem?_concat_length⟩
    · obtain ⟨k, hk, hindex, hr⟩ := h.fill i ((mem_cons.mp hi).resolve_left (Ne.symm hie)) hi₀
      exact ⟨k, hk, (getElem?_set_ne hie).trans hindex, s.append_keep e _ k _ hr⟩

/-- What both loops of `coalesce_reads` leave behind. -/
structure FusedAll (reads : List ReadOp) (bound maxBytes : ℕ) (s₀ s : FuseState) (done : List ℕ) :
    Prop where
  fused : Fused reads done s
  all : ∀ i < reads.length, i ∈ done
  held : Held reads bound done s
  shared : Shared reads done s
  covered : Covered reads maxBytes done s
  appended : Appended reads s₀ ((sortedReads reads).reverse ++ []) done s

theorem fuseAll_spec (hreads : ∀ r ∈ reads, r.Fits) (hpos : 0 < bound) (hle : maxChunks ≤ bound) :
    ∃ done, FusedAll reads bound maxBytes (fuseReads reads maxBytes maxChunks)
      (fuseAll reads maxBytes maxChunks) done := by
  obtain ⟨hm, hcovered⟩ : Merging reads bound ((sortedReads reads).reverse ++ [])
        (fuseReads reads maxBytes maxChunks) ∧
      Covered reads maxBytes ((sortedReads reads).reverse ++ [])
        (fuseReads reads maxBytes maxChunks) :=
    fuseReads_induction hreads hpos hle ⟨by simp, by simp, by simp⟩
      fun _ _ _ hm hP he hnew => hP.step hm hreads he hnew
  set s₀ := fuseReads reads maxBytes maxChunks with hs₀
  set done₀ := (sortedReads reads).reverse ++ [] with hdone₀
  have hshared : Shared reads done₀ s₀ := by
    intro i hi j hj _ _
    rw [hdone₀, append_nil, mem_reverse] at hi hj
    exact ⟨(mem_sortedReads.mp hi).2, (mem_sortedReads.mp hj).2⟩
  have happended : Appended reads s₀ done₀ done₀ s₀ :=
    ⟨le_rfl, fun _ hi => hi, fun _ _ => rfl, fun i hi hi₀ => absurd hi hi₀⟩
  obtain ⟨done, hfused, ⟨hheld, hshared, hcovered, happended⟩, hall⟩ := hm.fused.fill_induction
    (P := fun done s => Held reads bound done s ∧ Shared reads done s ∧
      Covered reads maxBytes done s ∧ Appended reads s₀ done₀ done s)
    ⟨hm.held, hshared, hcovered, happended⟩ le_rfl
    fun _ _ _ hf hP he hnew => ⟨hP.1.append hf hreads hpos he hnew, hP.2.1.append hf he hnew,
      hP.2.2.1.append hf he hnew, hP.2.2.2.append hf he hnew⟩
  exact ⟨done, hfused, hall, hheld, hshared, hcovered, happended⟩

end Union

/-! ## The reads that `coalesce_reads` returns -/

section Returned

variable {reads : List ReadOp} {s₀ s : FuseState} {done : List ℕ} {c : Coalesced} {pos : ℕ → ℕ}
  {bound maxBytes maxChunks i k : ℕ}

def Coalesced.members (c : Coalesced) (m : ℕ) : ℕ :=
  (List.range c.readIndex.length).countP fun i => c.readIndex[i]? == some m

theorem FusedAll.index_iff (h : FusedAll reads bound maxBytes s₀ s done)
    (hp : PlacedReads pos s c) (hi : i < reads.length) (hk : k < s.tmp.length) :
    c.readIndex[i]? = some (pos k) ↔ s.readIndex[i]? = some (some k) := by
  refine ⟨fun hindex => ?_, hp.index_of⟩
  obtain ⟨k', o, hk', -⟩ := h.fused.located i (h.all i hi)
  rw [hp.index_of hk', Option.some.injEq] at hindex
  rw [hk', hp.inj (h.fused.index_lt hk') hk hindex]

theorem FusedAll.length_index (h : FusedAll reads bound maxBytes s₀ s done)
    (hp : PlacedReads pos s c) : c.readIndex.length = reads.length := by
  rw [hp.index, length_map, h.fused.index_length]

theorem FusedAll.members_eq (h : FusedAll reads bound maxBytes s₀ s done)
    (hp : PlacedReads pos s c) (hk : k < s.tmp.length) :
    c.members (pos k) = s.members done k := by
  have hperm : (List.range reads.length).Perm done := by
    rw [perm_ext_iff_of_nodup nodup_range h.fused.nodup]
    exact fun i => ⟨fun hi => h.all i (mem_range.mp hi), fun hi =>
      mem_range.mpr (h.fused.lt i hi)⟩
  rw [Coalesced.members, h.length_index hp, FuseState.members, ← hperm.countP_eq]
  apply countP_congr
  intro i hi
  rw [beq_iff_eq, beq_iff_eq, h.index_iff hp (mem_range.mp hi) hk]

theorem FusedAll.located (h : FusedAll reads bound maxBytes s₀ s done) {read r : ReadOp}
    (hread : reads[i]? = some read) (hindex : s.readIndex[i]? = some (some k))
    (hr : s.tmp[k]? = some r) : ∃ o, s.offsetInRead[i]? = some o ∧
      r.shardPath = read.shardPath ∧ r.fileOffset + o = read.fileOffset ∧
      o + read.nbytes ≤ r.nbytes := by
  have hi := h.all i (List.getElem?_eq_some_iff.mp hread).1
  have hgetD : reads.getD i ReadOp.blank = read := by rw [List.getD, hread, Option.getD_some]
  obtain ⟨k', o, hk', ho, r', hr', hpath, hoff⟩ := h.fused.located i hi
  obtain ⟨r'', hr'', hle⟩ := h.held.inside i hi k' o hk' ho
  rw [hindex, Option.some.injEq, Option.some.injEq] at hk'
  subst hk'
  rw [hr, Option.some.injEq] at hr' hr''
  subst hr' hr''
  rw [hgetD] at hpath hoff hle
  exact ⟨o, ho, hpath, hoff, hle⟩

theorem FusedAll.place {m : ℕ} {r : ReadOp} (hp : PlacedReads pos s c) (hr : c.reads[m]? = some r) :
    ∃ k < s.tmp.length, pos k = m ∧ s.tmp[k]? = some r := by
  obtain ⟨k, hk, rfl⟩ := hp.surj (List.getElem?_eq_some_iff.mp hr).1
  exact ⟨k, hk, rfl, (hp.read k hk).symm.trans hr⟩

theorem FusedAll.inside (h : FusedAll reads bound maxBytes s₀ s done) (hp : PlacedReads pos s c)
    {read : ReadOp} (hread : reads[i]? = some read) : ∃ m o r,
      c.readIndex[i]? = some m ∧ c.offsetInRead[i]? = some o ∧ c.reads[m]? = some r ∧
      r.shardPath = read.shardPath ∧ r.fileOffset + o = read.fileOffset ∧
      o + read.nbytes ≤ r.nbytes := by
  obtain ⟨k, o, hk, -⟩ := h.fused.located i (h.all i (List.getElem?_eq_some_iff.mp hread).1)
  have hklt := h.fused.index_lt hk
  obtain ⟨o, ho, hpath, hoff, hle⟩ := h.located hread hk (getElem?_eq_getElem hklt)
  exact ⟨pos k, o, s.tmp[k], hp.index_of hk, hp.offset ▸ ho,
    (hp.read k hklt).trans (getElem?_eq_getElem hklt), hpath, hoff, hle⟩

theorem FusedAll.union (h : FusedAll reads bound maxBytes s₀ s done) (hp : PlacedReads pos s c)
    {m : ℕ} {r : ReadOp} (hr : c.reads[m]? = some r) (x : ℕ) : r.Has x ↔
      ∃ (i : ℕ) (read : ReadOp), reads[i]? = some read ∧ c.readIndex[i]? = some m ∧ read.Has x := by
  obtain ⟨k, hk, rfl, htmp⟩ := FusedAll.place hp hr
  constructor
  · intro hx
    obtain ⟨i, hi, hindex, hin⟩ := h.covered.union k r htmp x hx
    have hi' := h.fused.lt i hi
    rw [getD_eq_getElem _ _ hi'] at hin
    exact ⟨i, _, getElem?_eq_getElem hi', hp.index_of hindex, hin⟩
  · rintro ⟨i, read, hread, hindex, hin⟩
    have hi := (List.getElem?_eq_some_iff.mp hread).1
    obtain ⟨o, -, -, hoff, hle⟩ := h.located hread ((h.index_iff hp hi hk).mp hindex) htmp
    have h1 : read.fileOffset ≤ x := hin.1
    have h2 : x < read.fileOffset + read.nbytes := hin.2
    exact ⟨by omega, by omega⟩

theorem FusedAll.capped (h : FusedAll reads bound maxBytes s₀ s done) (hp : PlacedReads pos s c)
    {m : ℕ} {r : ReadOp} (hr : c.reads[m]? = some r) (hmany : 1 < c.members m) :
    r.nbytes ≤ maxBytes ∧ r.nbytes ≤ uint32Max := by
  obtain ⟨k, hk, rfl, htmp⟩ := FusedAll.place hp hr
  rw [h.members_eq hp hk] at hmany
  have hfits := (h.held.fits r (mem_of_getElem? htmp)).nbytes_lt
  exact ⟨h.covered.capped k r htmp hmany, by rw [uint32Max]; omega⟩

theorem FusedAll.members_le (h : FusedAll reads bound maxBytes s₀ s done) (hp : PlacedReads pos s c)
    {m : ℕ} {r : ReadOp} (hr : c.reads[m]? = some r) : c.members m ≤ bound := by
  obtain ⟨k, hk, rfl, -⟩ := FusedAll.place hp hr
  rw [h.members_eq hp hk]
  exact h.held.members_le k

/-- What `coalesce_reads` makes of `reads`. -/
structure CoalescedExactly (reads : List ReadOp) (maxBytes maxChunks : ℕ) (c : Coalesced) :
    Prop where
  /-- A read of a stored chunk lies inside its merged read, at its recorded offset. -/
  inside : ∀ (i : ℕ) read, reads[i]? = some read → read.isReal = true → ∃ m o r,
    c.readIndex[i]? = some m ∧ c.offsetInRead[i]? = some o ∧ c.reads[m]? = some r ∧
    r.shardPath = read.shardPath ∧ r.fileOffset + o = read.fileOffset ∧ o + read.nbytes ≤ r.nbytes
  /-- A merged read is the union of the reads assigned to it. -/
  union : ∀ (m : ℕ) r, c.reads[m]? = some r → ∀ x, r.Has x ↔
    ∃ (i : ℕ) (read : ReadOp), reads[i]? = some read ∧ c.readIndex[i]? = some m ∧ read.Has x
  /-- Several reads are merged within the limits only. -/
  capped : ∀ (m : ℕ) r, c.reads[m]? = some r → 1 < c.members m →
    r.nbytes ≤ maxBytes ∧ r.nbytes ≤ uint32Max ∧ c.members m ≤ maxChunks
  /-- A placeholder keeps a read of its own, unchanged, after those of the stored chunks. -/
  fill : ∀ (i : ℕ) read, reads[i]? = some read → read.isReal = false → ∃ m : ℕ,
    c.readIndex[i]? = some m ∧ c.reads[m]? = some read ∧
    (∀ j : ℕ, c.readIndex[j]? = some m → j = i) ∧
    ∀ (j : ℕ) other m', reads[j]? = some other → other.isReal = true →
      c.readIndex[j]? = some m' → m' < m

-- a read alone in its merged read is not bounded by `maxChunks`
theorem exists_fusedAll (hreads : ∀ r ∈ reads, r.Fits) (maxBytes maxChunks : ℕ) :
    ∃ done, FusedAll reads (max 1 maxChunks) maxBytes (fuseReads reads maxBytes maxChunks)
      (fuseAll reads maxBytes maxChunks) done :=
  fuseAll_spec hreads (Nat.lt_of_lt_of_le Nat.one_pos (le_max_left 1 maxChunks))
    (le_max_right 1 maxChunks)

/-- **`coalesce_reads` merges exactly.** The caps are arbitrary. -/
theorem coalesceReads_exactly (hreads : ∀ r ∈ reads, r.Fits) (maxBytes maxChunks : ℕ) :
    CoalescedExactly reads maxBytes maxChunks (coalesceReads reads maxBytes maxChunks) := by
  have hp := coalesceReads_placed reads maxBytes maxChunks
  obtain ⟨done, h⟩ := exists_fusedAll hreads maxBytes maxChunks
  set c := coalesceReads reads maxBytes maxChunks
  set all := fuseAll reads maxBytes maxChunks
  set pos := coalescedPos reads maxBytes maxChunks
  have hlt : ∀ {i : ℕ} {read}, reads[i]? = some read → i < reads.length := fun hread =>
    (List.getElem?_eq_some_iff.mp hread).1
  refine ⟨fun i read hread _ => h.inside hp hread, fun m r hr => h.union hp hr, ?_, ?_⟩
  · intro m r hr hmany
    obtain ⟨hbytes, hmax⟩ := h.capped hp hr hmany
    have hmembers := h.members_le hp hr
    exact ⟨hbytes, hmax, by omega⟩
  · intro i read hread hfill
    have hgetD : reads.getD i ReadOp.blank = read := by rw [List.getD, hread, Option.getD_some]
    have hsorted : ∀ j, j ∈ (sortedReads reads).reverse ++ [] ↔
        j < reads.length ∧ (reads.getD j ReadOp.blank).isReal = true := fun j => by
      rw [append_nil, mem_reverse, mem_sortedReads]
    obtain ⟨k, hk, hindex, htmp⟩ := h.appended.fill i (h.all i (hlt hread)) fun hmem => by
      rw [hsorted, hgetD, hfill] at hmem
      exact absurd hmem.2 (by simp)
    have hklt := h.fused.index_lt hindex
    refine ⟨pos k, hp.index_of hindex, (hp.read k hklt).trans (htmp.trans (by rw [hgetD])), ?_, ?_⟩
    · intro j hj
      have hjlt : j < reads.length := h.length_index hp ▸ (List.getElem?_eq_some_iff.mp hj).1
      have hj' := (h.index_iff hp hjlt hklt).mp hj
      by_contra hne
      have hreal := (h.shared i (h.all i (hlt hread)) j (h.all j hjlt) (hindex.trans hj'.symm)
        (Ne.symm hne)).1
      rw [hgetD, hfill] at hreal
      exact absurd hreal (by simp)
    · intro j other m' hother hreal hj
      have hmem : j ∈ (sortedReads reads).reverse ++ [] := by
        rw [hsorted, List.getD, hother]
        exact ⟨hlt hother, hreal⟩
      have hfused := fuseReads_spec reads maxBytes maxChunks
      obtain ⟨k', o, hk', -⟩ := hfused.located j hmem
      have hk'lt := hfused.index_lt hk'
      rw [hp.index_of ((h.appended.kept j hmem).trans hk'), Option.some.injEq] at hj
      calc m' = pos k' := hj.symm
        _ < (fuseReads reads maxBytes maxChunks).tmp.length :=
          emitPositions_lt _ hfused.tmp_le_length hk'lt
        _ ≤ k := hk
        _ = pos k := (emitPositions_fill _ _ hk).symm

/-- Reads that overlap, one that is alone, one of another shard, and a placeholder. -/
def overlappingReads : List ReadOp :=
  [⟨some [98], 0, 4⟩, ⟨some [97], 8, 8⟩, ⟨none, 0, 0⟩, ⟨some [97], 0, 10⟩, ⟨some [97], 40, 8⟩]

theorem coalesceReads_exactly_overlapping :
    CoalescedExactly overlappingReads 64 4 (coalesceReads overlappingReads 64 4) ∧
      (coalesceReads overlappingReads 64 4).reads =
        [⟨some [97], 0, 16⟩, ⟨some [98], 0, 4⟩, ⟨some [97], 40, 8⟩, ⟨none, 0, 0⟩] := by
  have hfits : ∀ r ∈ overlappingReads, r.nbytes < 2 ^ 32 ∧ r.fileOffset + r.nbytes < 2 ^ 64 := by
    decide
  exact ⟨coalesceReads_exactly (fun r hr => ⟨(hfits r hr).1, (hfits r hr).2⟩) 64 4,
    by decide +kernel⟩

end Returned

end Damacy

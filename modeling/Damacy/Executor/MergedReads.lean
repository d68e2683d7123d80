import Damacy.Executor.Coalesce

/-!
# What a merged read holds

`coalesceReads_located` says where a read starts inside its merged read. This module says that it
also ends there: a merged read covers every read assigned to it, it is assigned at most as many
reads as a wave takes chunks, and a placeholder is never merged with anything
(`coalesceReads_held`).
-/

open List

namespace Damacy

section Held

variable {reads : List ReadOp} {s s' : FuseState} {done : List ℕ}
  {e m o bound maxBytes maxChunks : ℕ} {r curr : ReadOp}

/-- A read whose size is a `uint32_t` and whose end is a file offset. -/
structure ReadOp.Fits (r : ReadOp) : Prop where
  nbytes_lt : r.nbytes < 2 ^ 32
  stop_lt : r.fileOffset + r.nbytes < 2 ^ 64

theorem ReadOp.Fits.stop_eq (h : r.Fits) : r.stop = r.fileOffset + r.nbytes := u64_of_lt h.stop_lt

theorem ReadOp.blank_fits : ReadOp.blank.Fits := ⟨by decide, by decide⟩

theorem fits_getD (h : ∀ r ∈ reads, r.Fits) (i : ℕ) : (reads.getD i ReadOp.blank).Fits := by
  rw [List.getD]
  cases hr : reads[i]? with
  | none => exact ReadOp.blank_fits
  | some r => exact h r (mem_of_getElem? hr)

def FuseState.members (s : FuseState) (done : List ℕ) (m : ℕ) : ℕ :=
  done.countP fun i => s.readIndex[i]? == some (some m)

/-- Every merged read covers the reads of `done` assigned to it, and they are not too many. -/
structure Held (reads : List ReadOp) (maxChunks : ℕ) (done : List ℕ) (s : FuseState) : Prop where
  inside : ∀ i ∈ done, ∀ m o, s.readIndex[i]? = some (some m) → s.offsetInRead[i]? = some o →
    ∃ r, s.tmp[m]? = some r ∧ o + (reads.getD i ReadOp.blank).nbytes ≤ r.nbytes
  members_le : ∀ m, s.members done m ≤ maxChunks
  fits : ∀ r ∈ s.tmp, r.Fits

/-- The current merged read, number `m`: it starts with its first read `l` and ends at
`leaderEnd`. -/
structure CurrentRead (reads : List ReadOp) (done : List ℕ) (s : FuseState) (l m : ℕ) (r : ReadOp) :
    Prop where
  leader : s.leader = some l
  index : s.readIndex[l]? = some (some m)
  read : s.tmp[m]? = some r
  path : r.shardPath = (reads.getD l ReadOp.blank).shardPath
  offset : r.fileOffset = (reads.getD l ReadOp.blank).fileOffset
  stop : s.leaderEnd = r.fileOffset + r.nbytes
  members : s.members done m = s.leaderChunks

/-- The read that is recorded as the leader is the first of a merged read. -/
def HeldLeader (reads : List ReadOp) (done : List ℕ) (s : FuseState) : Prop :=
  ∀ l, s.leader = some l → ∃ m r, CurrentRead reads done s l m r

theorem Fused.mem_of_index {i : ℕ} (h : Fused reads done s)
    (hindex : s.readIndex[i]? = some (some m)) : i ∈ done := by
  by_contra hmem
  have hlt : i < reads.length := h.index_length ▸ (List.getElem?_eq_some_iff.mp hindex).1
  rw [h.untouched i hlt hmem] at hindex
  exact absurd hindex (by simp)

theorem Fused.index_lt {i : ℕ} (h : Fused reads done s)
    (hindex : s.readIndex[i]? = some (some m)) : m < s.tmp.length := by
  obtain ⟨m', o, hm', -, r, hr, -⟩ := h.located i (h.mem_of_index hindex)
  rw [hindex, Option.some.injEq, Option.some.injEq] at hm'
  exact hm' ▸ (List.getElem?_eq_some_iff.mp hr).1

theorem Fused.members_fresh (h : Fused reads done s) : s.members done s.tmp.length = 0 := by
  rw [FuseState.members, countP_eq_zero]
  intro i _ hi
  exact absurd (h.index_lt (eq_of_beq hi)) (lt_irrefl _)

theorem FuseState.members_record (hf : Fused reads done s) (he : e < reads.length)
    (hnew : e ∉ done) (hindex : s'.readIndex = s.readIndex.set e (some m)) (k : ℕ) :
    s'.members (e :: done) k = s.members done k + if m = k then 1 else 0 := by
  have hold : done.countP (fun i => s'.readIndex[i]? == some (some k)) = s.members done k := by
    apply countP_congr
    intro i hi
    have hne : e ≠ i := fun heq => hnew (heq ▸ hi)
    rw [hindex, getElem?_set_ne hne]
  rw [FuseState.members, countP_cons, hold, hindex,
    getElem?_set_self (hf.index_length.symm ▸ he)]
  simp

/-- **The step of both loops**: read `e` is recorded in merged read `m` at offset `o`. -/
theorem Held.record (h : Held reads bound done s) (hf : Fused reads done s)
    (he : e < reads.length) (hnew : e ∉ done)
    (hindex : s'.readIndex = s.readIndex.set e (some m))
    (hoffset : s'.offsetInRead = s.offsetInRead.set e o)
    (hkeep : ∀ (k : ℕ) r, s.tmp[k]? = some r → ∃ r', s'.tmp[k]? = some r' ∧ r.nbytes ≤ r'.nbytes)
    (hat : ∃ r, s'.tmp[m]? = some r ∧ o + (reads.getD e ReadOp.blank).nbytes ≤ r.nbytes)
    (hmembers : s.members done m < bound) (hfits : ∀ r ∈ s'.tmp, r.Fits) :
    Held reads bound (e :: done) s' := by
  refine ⟨?_, fun k => ?_, hfits⟩
  · rw [forall_mem_cons]
    constructor
    · intro m' o' hm' ho'
      rw [hindex, getElem?_set_self (hf.index_length.symm ▸ he), Option.some.injEq,
        Option.some.injEq] at hm'
      rw [hoffset, getElem?_set_self (hf.offset_length.symm ▸ he), Option.some.injEq] at ho'
      exact hm' ▸ ho' ▸ hat
    · intro i hi m' o' hm' ho'
      have hne : e ≠ i := fun heq => hnew (heq ▸ hi)
      rw [hindex, getElem?_set_ne hne] at hm'
      rw [hoffset, getElem?_set_ne hne] at ho'
      obtain ⟨r, hr, hle⟩ := h.inside i hi m' o' hm' ho'
      obtain ⟨r', hr', hgrow⟩ := hkeep m' r hr
      exact ⟨r', hr', hle.trans hgrow⟩
  · rw [FuseState.members_record hf he hnew hindex]
    split
    · rename_i hmk
      exact hmk ▸ hmembers
    · exact h.members_le k

theorem Held.append (h : Held reads bound done s) (hf : Fused reads done s)
    (hreads : ∀ r ∈ reads, r.Fits) (hmax : 0 < bound) (he : e < reads.length)
    (hnew : e ∉ done) :
    Held reads bound (e :: done) (s.append e (reads.getD e ReadOp.blank)) := by
  refine h.record hf he hnew rfl rfl (fun k r hr => ⟨r, s.append_keep e _ k r hr, le_rfl⟩)
    ⟨reads.getD e ReadOp.blank, by simp [FuseState.append], by simp⟩
    (by rwa [hf.members_fresh]) ?_
  intro r hr
  rcases mem_append.mp hr with hr | hr
  · exact h.fits r hr
  · obtain rfl := mem_singleton.mp hr
    exact fits_getD hreads e

theorem startRead_held (h : Held reads bound done s) (hf : Fused reads done s)
    (hreads : ∀ r ∈ reads, r.Fits) (hmax : 0 < bound) (he : e < reads.length)
    (hnew : e ∉ done) :
    Held reads bound (e :: done) (startRead s e (reads.getD e ReadOp.blank)) ∧
      HeldLeader reads (e :: done) (startRead s e (reads.getD e ReadOp.blank)) := by
  have happ := h.append hf hreads hmax he hnew
  refine ⟨⟨happ.inside, happ.members_le, happ.fits⟩, ?_⟩
  intro l hl
  obtain rfl : e = l := Option.some.inj hl
  refine ⟨s.tmp.length, reads.getD e ReadOp.blank, rfl, ?_, ?_, rfl, rfl,
    (fits_getD hreads e).stop_eq, ?_⟩
  · exact getElem?_set_self (hf.index_length.symm ▸ he)
  · simp [startRead, FuseState.append]
  · rw [FuseState.members_record hf he hnew rfl, hf.members_fresh, if_pos rfl]
    rfl

def ReadOp.grow (r curr : ReadOp) : ReadOp :=
  { r with
    nbytes := max (curr.fileOffset + curr.nbytes) (r.fileOffset + r.nbytes) - r.fileOffset }

theorem ReadOp.grow_end (r curr : ReadOp) : r.fileOffset + (r.grow curr).nbytes =
    max (curr.fileOffset + curr.nbytes) (r.fileOffset + r.nbytes) := by
  have := le_max_right (curr.fileOffset + curr.nbytes) (r.fileOffset + r.nbytes)
  exact Nat.add_sub_of_le (by omega)

/-- The read `curr` of a file can be added to `r`, which covers `n` reads: it starts in `r` or where
`r` ends, and the extended read stays within the limits. -/
structure ReadOp.Joins (maxBytes maxChunks n : ℕ) (r curr : ReadOp) : Prop where
  path : curr.shardPath = r.shardPath
  start_le : r.fileOffset ≤ curr.fileOffset
  meets : curr.fileOffset ≤ r.fileOffset + r.nbytes
  count_lt : n < maxChunks
  bytes_le : (r.grow curr).nbytes ≤ maxBytes
  size_le : (r.grow curr).nbytes ≤ uint32Max

theorem fusable_iff {leader : ReadOp} (hcurr : curr.Fits) (hrfits : r.Fits)
    (hpath : r.shardPath = leader.shardPath) (hoff : r.fileOffset = leader.fileOffset)
    (hend : s.leaderEnd = r.fileOffset + r.nbytes) :
    fusable maxBytes maxChunks s leader curr = true ↔
      r.Joins maxBytes maxChunks s.leaderChunks curr := by
  have hstoplt : max (curr.fileOffset + curr.nbytes) (r.fileOffset + r.nbytes) < 2 ^ 64 :=
    max_lt hcurr.stop_lt hrfits.stop_lt
  have hle : r.fileOffset ≤ max (curr.fileOffset + curr.nbytes) (r.fileOffset + r.nbytes) :=
    (Nat.le_add_right _ _).trans (le_max_right _ _)
  simp only [fusable, Bool.and_eq_true, beq_iff_eq, decide_eq_true_eq, and_assoc]
  rw [hcurr.stop_eq, hend, ← hoff, ← hpath,
    u64Sub_of_le hle ((Nat.sub_le _ _).trans_lt hstoplt)]
  constructor
  · rintro ⟨hsame, hstart, hmeets, hcount, hbytes, hsize⟩
    exact ⟨hsame, hstart, hmeets, hcount, hbytes, hsize⟩
  · exact fun h => ⟨h.path, h.start_le, h.meets, h.count_lt, h.bytes_le, h.size_le⟩

theorem ReadOp.Joins.fits {n : ℕ} (h : r.Joins maxBytes maxChunks n curr) (hcurr : curr.Fits)
    (hrfits : r.Fits) : (r.grow curr).Fits := by
  refine ⟨Nat.lt_of_le_of_lt h.size_le (by decide), ?_⟩
  rw [show (r.grow curr).fileOffset = r.fileOffset from rfl, r.grow_end curr]
  exact max_lt hcurr.stop_lt hrfits.stop_lt

theorem mergeRead_eq (hcurr : curr.Fits) (hrfits : r.Fits) (hr : s.tmp[m]? = some r)
    (hend : s.leaderEnd = r.fileOffset + r.nbytes) (hle : r.fileOffset ≤ curr.fileOffset)
    (hgrow : (r.grow curr).Fits) :
    mergeRead s e m curr = { s with
      tmp := s.tmp.set m (r.grow curr)
      readIndex := s.readIndex.set e (some m)
      offsetInRead := s.offsetInRead.set e (curr.fileOffset - r.fileOffset)
      leaderEnd := (r.grow curr).fileOffset + (r.grow curr).nbytes
      leaderChunks := s.leaderChunks + 1 } := by
  set stop := max (curr.fileOffset + curr.nbytes) (r.fileOffset + r.nbytes) with hstop
  have hstoplt : stop < 2 ^ 64 := max_lt hcurr.stop_lt hrfits.stop_lt
  have hc : curr.fileOffset + curr.nbytes ≤ stop := le_max_left _ _
  have hrs : r.fileOffset + r.nbytes ≤ stop := le_max_right _ _
  have hsize : stop - r.fileOffset < 2 ^ 32 := hgrow.nbytes_lt
  have hbegin : (s.tmp.getD m ReadOp.blank).fileOffset = r.fileOffset := by
    rw [List.getD, hr, Option.getD_some]
  have hnbytes : u32 (u64Sub stop r.fileOffset) = stop - r.fileOffset := by
    rw [u64Sub_of_le (by omega) (by omega), u32_of_lt (by omega)]
  have hoffset : u32 (u64Sub curr.fileOffset r.fileOffset) = curr.fileOffset - r.fileOffset := by
    rw [u64Sub_of_le hle (by omega), u32_of_lt (by omega)]
  have hleaderEnd : stop = r.fileOffset + (stop - r.fileOffset) := by omega
  rw [mergeRead, hcurr.stop_eq, hend, ← hstop, hbegin, hnbytes, hoffset,
    modify_eq_set_getElem?, hr]
  congr 1

theorem mergeRead_held {l : ℕ} (h : Held reads bound done s) (hf : Fused reads done s)
    (hreads : ∀ r ∈ reads, r.Fits) (hle : maxChunks ≤ bound) (he : e < reads.length)
    (hnew : e ∉ done) (hcurrent : CurrentRead reads done s l m r)
    (hjoins : r.Joins maxBytes maxChunks s.leaderChunks (reads.getD e ReadOp.blank)) :
    Held reads bound (e :: done) (mergeRead s e m (reads.getD e ReadOp.blank)) ∧
      HeldLeader reads (e :: done) (mergeRead s e m (reads.getD e ReadOp.blank)) := by
  set curr := reads.getD e ReadOp.blank with hcurr
  have hr := hcurrent.read
  have hcfits : curr.Fits := fits_getD hreads e
  have hrfits : r.Fits := h.fits r (mem_of_getElem? hr)
  have hgrow := hjoins.fits hcfits hrfits
  have hstart := hjoins.start_le
  have hm : m < s.tmp.length := (List.getElem?_eq_some_iff.mp hr).1
  have hself : (s.tmp.set m (r.grow curr))[m]? = some (r.grow curr) := getElem?_set_self hm
  have hgrown := r.grow_end curr
  rw [mergeRead_eq hcfits hrfits hr hcurrent.stop hstart hgrow]
  refine ⟨h.record hf he hnew rfl rfl ?_ ⟨_, hself, ?_⟩
    ((hcurrent.members ▸ hjoins.count_lt).trans_le hle) ?_, ?_⟩
  · intro k r' hr'
    by_cases hk : m = k
    · subst hk
      obtain rfl := Option.some.inj (hr.symm.trans hr')
      exact ⟨_, hself, by omega⟩
    · exact ⟨r', by rw [getElem?_set_ne hk, hr'], le_rfl⟩
  · show curr.fileOffset - r.fileOffset + curr.nbytes ≤ _
    omega
  · intro r' hr'
    rcases mem_or_eq_of_mem_set hr' with hr' | rfl
    · exact h.fits r' hr'
    · exact hgrow
  · intro l' hl'
    obtain rfl : l = l' := Option.some.inj (hcurrent.leader.symm.trans hl')
    have hne : e ≠ l := fun heq => hnew (heq ▸ hf.mem_of_index hcurrent.index)
    refine ⟨m, r.grow curr, hl', ?_, hself, hcurrent.path, hcurrent.offset, rfl, ?_⟩
    · rw [getElem?_set_ne hne, hcurrent.index]
    · rw [FuseState.members_record hf he hnew rfl, if_pos rfl, hcurrent.members]

/-- **One round of the merging loop** either merges read `e` into the current merged read, which it
can join, or starts a merged read with it. -/
theorem fuseRead_cases (h : Held reads bound done s) (hl : HeldLeader reads done s)
    (hreads : ∀ r ∈ reads, r.Fits) (e : ℕ) :
    ((∀ l m r, CurrentRead reads done s l m r →
        ¬ r.Joins maxBytes maxChunks s.leaderChunks (reads.getD e ReadOp.blank)) ∧
      fuseRead reads maxBytes maxChunks s e = startRead s e (reads.getD e ReadOp.blank)) ∨
    ∃ l m r, CurrentRead reads done s l m r ∧
      r.Joins maxBytes maxChunks s.leaderChunks (reads.getD e ReadOp.blank) ∧
      fuseRead reads maxBytes maxChunks s e = mergeRead s e m (reads.getD e ReadOp.blank) := by
  have hjoins {l m : ℕ} {r : ReadOp} (hc : CurrentRead reads done s l m r) :
      fusable maxBytes maxChunks s (reads.getD l ReadOp.blank) (reads.getD e ReadOp.blank) = true ↔
        r.Joins maxBytes maxChunks s.leaderChunks (reads.getD e ReadOp.blank) :=
    fusable_iff (fits_getD hreads e) (h.fits r (mem_of_getElem? hc.read)) hc.path hc.offset
      hc.stop
  unfold fuseRead
  cases hleader : s.leader with
  | none => exact .inl ⟨fun l m r hc => absurd (hc.leader.symm.trans hleader) (by simp), rfl⟩
  | some l =>
    dsimp only
    split
    · rename_i hfuse
      obtain ⟨m, r, hc⟩ := hl l hleader
      have hm : (s.readIndex.getD l none).getD 0 = m := by
        rw [List.getD, hc.index, Option.getD_some, Option.getD_some]
      rw [hm]
      exact .inr ⟨l, m, r, hc, (hjoins hc).mp hfuse, rfl⟩
    · rename_i hfuse
      refine .inl ⟨fun l' m r hc hj => hfuse ?_, rfl⟩
      obtain rfl : l' = l := Option.some.inj (hc.leader.symm.trans hleader)
      exact (hjoins hc).mpr hj

structure Merging (reads : List ReadOp) (bound : ℕ) (done : List ℕ) (s : FuseState) : Prop where
  fused : Fused reads done s
  leaderAt : LeaderAt reads s
  held : Held reads bound done s
  heldLeader : HeldLeader reads done s

theorem Merging.step (h : Merging reads bound done s) (hreads : ∀ r ∈ reads, r.Fits)
    (hpos : 0 < bound) (hle : maxChunks ≤ bound) (he : e < reads.length) (hnew : e ∉ done) :
    Merging reads bound (e :: done) (fuseRead reads maxBytes maxChunks s e) := by
  obtain ⟨hfused, hleaderAt⟩ := fuseRead_spec maxBytes maxChunks h.fused h.leaderAt he hnew
  suffices hboth : Held reads bound (e :: done) (fuseRead reads maxBytes maxChunks s e) ∧
      HeldLeader reads (e :: done) (fuseRead reads maxBytes maxChunks s e) from
    ⟨hfused, hleaderAt, hboth.1, hboth.2⟩
  rcases fuseRead_cases h.held h.heldLeader hreads e with ⟨-, heq⟩ | ⟨l, m, r, hc, hjoins, heq⟩
  · rw [heq]
    exact startRead_held h.held h.fused hreads hpos he hnew
  · rw [heq]
    exact mergeRead_held h.held h.fused hreads hle he hnew hc hjoins

/-- **The merging loop**: what one round keeps holds at the end. -/
theorem Merging.run {P : List ℕ → FuseState → Prop} {todo : List ℕ}
    (h : Merging reads bound done s) (hP : P done s) (hreads : ∀ r ∈ reads, r.Fits)
    (hpos : 0 < bound) (hle : maxChunks ≤ bound) (hlt : ∀ i ∈ todo, i < reads.length)
    (hnodup : todo.Nodup) (hdisj : ∀ i ∈ todo, i ∉ done)
    (hstep : ∀ done s e, Merging reads bound done s → P done s → e < reads.length → e ∉ done →
      P (e :: done) (fuseRead reads maxBytes maxChunks s e)) :
    Merging reads bound (todo.reverse ++ done)
        (todo.foldl (fuseRead reads maxBytes maxChunks) s) ∧
      P (todo.reverse ++ done) (todo.foldl (fuseRead reads maxBytes maxChunks) s) := by
  induction todo generalizing s done with
  | nil => exact ⟨h, hP⟩
  | cons e todo ih =>
    rw [forall_mem_cons] at hlt hdisj
    rw [nodup_cons] at hnodup
    have hrest := ih (h.step hreads hpos hle hlt.1 hdisj.1)
      (hstep done s e h hP hlt.1 hdisj.1) hlt.2 hnodup.2 fun i hi hmem => by
        rcases mem_cons.mp hmem with rfl | hmem
        · exact hnodup.1 hi
        · exact hdisj.2 i hi hmem
    rwa [reverse_cons, append_assoc]

theorem merging_nil (reads : List ReadOp) (bound : ℕ) : Merging reads bound []
    ⟨[], List.replicate reads.length none, List.replicate reads.length 0, none, 0, 0⟩ where
  fused := fused_nil reads
  leaderAt := fun l hl => absurd hl (by simp)
  held := ⟨by simp, by simp [FuseState.members], by simp⟩
  heldLeader := fun l hl => absurd hl (by simp)

theorem fuseReads_induction {P : List ℕ → FuseState → Prop} (hreads : ∀ r ∈ reads, r.Fits)
    (hpos : 0 < bound) (hle : maxChunks ≤ bound)
    (hP : P [] ⟨[], List.replicate reads.length none, List.replicate reads.length 0, none, 0, 0⟩)
    (hstep : ∀ done s e, Merging reads bound done s → P done s → e < reads.length → e ∉ done →
      P (e :: done) (fuseRead reads maxBytes maxChunks s e)) :
    Merging reads bound ((sortedReads reads).reverse ++ []) (fuseReads reads maxBytes maxChunks) ∧
      P ((sortedReads reads).reverse ++ []) (fuseReads reads maxBytes maxChunks) :=
  (merging_nil reads bound).run hP hreads hpos hle (fun _ hi => (mem_sortedReads.mp hi).1)
    (nodup_sortedReads reads) (fun _ _ => not_mem_nil) hstep

theorem fuseReads_held (hreads : ∀ r ∈ reads, r.Fits) (maxBytes : ℕ) (hmax : 0 < maxChunks) :
    Held reads maxChunks ((sortedReads reads).reverse ++ [])
      (fuseReads reads maxBytes maxChunks) :=
  (fuseReads_induction (P := fun _ _ => True) hreads hmax le_rfl trivial
    fun _ _ _ _ _ _ _ => trivial).1.held

/-- Two reads that are assigned to one merged read are reads of stored chunks. -/
def Shared (reads : List ReadOp) (done : List ℕ) (s : FuseState) : Prop :=
  ∀ i ∈ done, ∀ j ∈ done, s.readIndex[i]? = s.readIndex[j]? → i ≠ j →
    (reads.getD i ReadOp.blank).isReal = true ∧ (reads.getD j ReadOp.blank).isReal = true

theorem Shared.append (h : Shared reads done s) (hf : Fused reads done s) (he : e < reads.length)
    (hnew : e ∉ done) : Shared reads (e :: done) (s.append e (reads.getD e ReadOp.blank)) := by
  have hself : (s.append e (reads.getD e ReadOp.blank)).readIndex[e]? = some (some s.tmp.length) :=
    getElem?_set_self (hf.index_length.symm ▸ he)
  have hother : ∀ i ∈ done,
      (s.append e (reads.getD e ReadOp.blank)).readIndex[i]? = s.readIndex[i]? := by
    intro i hi
    have hne : e ≠ i := fun heq => hnew (heq ▸ hi)
    exact getElem?_set_ne hne
  -- the new merged read has no read of `done`
  have hfresh : ∀ i ∈ done, s.readIndex[i]? ≠ some (some s.tmp.length) := fun i _ heq =>
    absurd (hf.index_lt heq) (lt_irrefl _)
  intro i hi j hj heq hne
  rcases mem_cons.mp hi with hie | hi <;> rcases mem_cons.mp hj with hje | hj
  · exact absurd (hie.trans hje.symm) hne
  · rw [hie, hself, hother j hj] at heq
    exact absurd heq.symm (hfresh j hj)
  · rw [hje, hself, hother i hi] at heq
    exact absurd heq (hfresh i hi)
  · rw [hother i hi, hother j hj] at heq
    exact h i hi j hj heq hne

theorem foldl_appendFill_held {n : ℕ} (h : Held reads bound done s) (hf : Fused reads done s)
    (hs : Shared reads done s) (hreads : ∀ r ∈ reads, r.Fits) (hmax : 0 < bound)
    (hn : n ≤ reads.length) :
    ∃ done', Fused reads done' ((List.range n).foldl (appendFill reads) s) ∧
      (Held reads bound done' ((List.range n).foldl (appendFill reads) s) ∧
        Shared reads done' ((List.range n).foldl (appendFill reads) s)) ∧ ∀ i < n, i ∈ done' :=
  hf.fill_induction (P := fun done s => Held reads bound done s ∧ Shared reads done s) ⟨h, hs⟩ hn
    fun _ _ _ hf' hP he hnew =>
      ⟨hP.1.append hf' hreads hmax he hnew, hP.2.append hf' he hnew⟩

/-- What `coalesce_reads` guarantees of its merged reads. -/
structure CoalescedHeld (reads : List ReadOp) (maxChunks : ℕ) (c : Coalesced) : Prop where
  /-- A merged read covers the reads assigned to it. -/
  inside : ∀ (i : ℕ) read, reads[i]? = some read → ∃ m o r, c.readIndex[i]? = some m ∧
    c.offsetInRead[i]? = some o ∧ c.reads[m]? = some r ∧ r.Fits ∧ o + read.nbytes ≤ r.nbytes
  /-- It is not assigned more reads than a wave takes chunks. -/
  members_le : ∀ m, (List.range reads.length).countP (fun i => c.readIndex[i]? == some m) ≤ maxChunks
  /-- A placeholder is not merged. -/
  shared : ∀ i < reads.length, ∀ j < reads.length, c.readIndex[i]? = c.readIndex[j]? → i ≠ j →
    (reads.getD i ReadOp.blank).isReal = true ∧ (reads.getD j ReadOp.blank).isReal = true

/-- **Merged reads hold their reads.** -/
theorem coalesceReads_held (hreads : ∀ r ∈ reads, r.Fits) (maxBytes : ℕ) (hmax : 0 < maxChunks) :
    CoalescedHeld reads maxChunks (coalesceReads reads maxBytes maxChunks) := by
  have hshared : Shared reads ((sortedReads reads).reverse ++ [])
      (fuseReads reads maxBytes maxChunks) := by
    intro i hi j hj _ _
    rw [append_nil, mem_reverse] at hi hj
    exact ⟨(mem_sortedReads.mp hi).2, (mem_sortedReads.mp hj).2⟩
  obtain ⟨done, hf, ⟨h, hs⟩, hdone⟩ := foldl_appendFill_held (fuseReads_held hreads maxBytes hmax)
    (fuseReads_spec reads maxBytes maxChunks) hshared hreads hmax le_rfl
  have hplaced := coalesceReads_placed reads maxBytes maxChunks
  set pos := coalescedPos reads maxBytes maxChunks
  change Fused reads done (fuseAll reads maxBytes maxChunks) at hf
  change Held reads maxChunks done (fuseAll reads maxBytes maxChunks) at h
  change Shared reads done (fuseAll reads maxBytes maxChunks) at hs
  set all := fuseAll reads maxBytes maxChunks
  -- every read has an index among the merged reads, which `pos` moves to its place
  have hindex : ∀ i < reads.length, ∃ m o r, all.readIndex[i]? = some (some m) ∧
      all.offsetInRead[i]? = some o ∧ all.tmp[m]? = some r ∧
      (coalesceReads reads maxBytes maxChunks).readIndex[i]? = some (pos m) := by
    intro i hi
    obtain ⟨m, o, hm, ho, r, hr, -⟩ := hf.located i (hdone i hi)
    exact ⟨m, o, r, hm, ho, hr, hplaced.index_of hm⟩
  have hsame : ∀ i < reads.length, ∀ j < reads.length,
      (coalesceReads reads maxBytes maxChunks).readIndex[i]? =
        (coalesceReads reads maxBytes maxChunks).readIndex[j]? →
      all.readIndex[i]? = all.readIndex[j]? := by
    intro i hi j hj heq
    obtain ⟨m, -, -, hm, -, -, hmi⟩ := hindex i hi
    obtain ⟨k, -, -, hk, -, -, hkj⟩ := hindex j hj
    rw [hmi, hkj, Option.some.injEq] at heq
    rw [hm, hk, hplaced.inj (hf.index_lt hm) (hf.index_lt hk) heq]
  refine ⟨fun i read hread => ?_, fun m => ?_, fun i hi j hj heq hne => ?_⟩
  · have hi : i < reads.length := (List.getElem?_eq_some_iff.mp hread).1
    obtain ⟨m, o, r, hm, ho, hr, hmi⟩ := hindex i hi
    obtain ⟨r', hr', hle⟩ := h.inside i (hdone i hi) m o hm ho
    obtain rfl := Option.some.inj (hr.symm.trans hr')
    rw [List.getD, hread, Option.getD_some] at hle
    exact ⟨pos m, o, r, hmi, ho, (hplaced.read m (hf.index_lt hm)).trans hr,
      h.fits r (mem_of_getElem? hr), hle⟩
  · -- the reads at one place are those of one merged read
    by_cases hex : ∃ i < reads.length,
        (coalesceReads reads maxBytes maxChunks).readIndex[i]? = some m
    · obtain ⟨i, hi, hmi⟩ := hex
      obtain ⟨k, -, -, hk, -⟩ := hindex i hi
      have hsub : (List.range reads.length).Subperm done :=
        subperm_of_subset nodup_range fun j hj => hdone j (mem_range.mp hj)
      refine (countP_mono_left fun j hj hmj => ?_).trans
        ((hsub.countP_le _).trans (h.members_le k))
      rw [beq_iff_eq] at hmj ⊢
      rw [← hk]
      exact hsame j (mem_range.mp hj) i hi (hmj.trans hmi.symm)
    · rw [countP_eq_zero.mpr]
      · exact Nat.zero_le _
      · intro i hi hmi
        exact hex ⟨i, mem_range.mp hi, eq_of_beq hmi⟩
  · exact hs i (hdone i hi) j (hdone j hj) (hsame i hi j hj heq) hne

end Held

end Damacy

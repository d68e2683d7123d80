import Mathlib.Algebra.Order.Sub.Basic
import Mathlib.Data.Nat.SuccPred
import Damacy.Executor.ReadOpSort
import Damacy.Lib.Scatter
import Damacy.Lib.RoundRobin

/-!
# Merging reads (`executor/coalesce.c`)

`coalesceReads` sorts the reads of a plan, merges a read into the one before it when both are of
one shard and meet, spreads the merged reads over the shards, and appends the placeholders of
missing chunks. `coalesceReads_located` says that every read can still be found: at its recorded
offset inside its merged read.
-/

open List

namespace Damacy

def ReadOp.blank : ReadOp := ⟨none, 0, 0⟩

def ReadOp.isReal (r : ReadOp) : Bool := r.nbytes != 0 && r.shardPath.isSome

def ReadOp.stop (r : ReadOp) : ℕ := u64 (r.fileOffset + r.nbytes)

/-! ## Merging -/

/-- The state of the merging loop: `tmp` holds the merged reads, and an index that is still
`UINT32_MAX` is `none`. -/
structure FuseState where
  tmp : List ReadOp
  readIndex : List (Option ℕ)
  offsetInRead : List ℕ
  leader : Option ℕ
  leaderEnd : ℕ
  leaderChunks : ℕ
deriving DecidableEq

def fusable (maxBytes maxChunks : ℕ) (s : FuseState) (leader curr : ReadOp) : Bool :=
  let fusedSize := u64Sub (max curr.stop s.leaderEnd) leader.fileOffset
  curr.shardPath == leader.shardPath && decide (leader.fileOffset ≤ curr.fileOffset) &&
    decide (curr.fileOffset ≤ s.leaderEnd) && decide (s.leaderChunks < maxChunks) &&
    decide (fusedSize ≤ maxBytes) && decide (fusedSize ≤ uint32Max)

def FuseState.append (s : FuseState) (e : ℕ) (curr : ReadOp) : FuseState :=
  { s with
    tmp := s.tmp ++ [curr]
    readIndex := s.readIndex.set e (some s.tmp.length)
    offsetInRead := s.offsetInRead.set e 0 }

def startRead (s : FuseState) (e : ℕ) (curr : ReadOp) : FuseState :=
  { s.append e curr with leader := some e, leaderEnd := curr.stop, leaderChunks := 1 }

def mergeRead (s : FuseState) (e m : ℕ) (curr : ReadOp) : FuseState :=
  let begin_ := (s.tmp.getD m ReadOp.blank).fileOffset
  let stop := max curr.stop s.leaderEnd
  { s with
    tmp := s.tmp.modify m fun r => { r with nbytes := u32 (u64Sub stop begin_) }
    readIndex := s.readIndex.set e (some m)
    offsetInRead := s.offsetInRead.set e (u32 (u64Sub curr.fileOffset begin_))
    leaderEnd := stop
    leaderChunks := s.leaderChunks + 1 }

def fuseRead (reads : List ReadOp) (maxBytes maxChunks : ℕ) (s : FuseState) (e : ℕ) : FuseState :=
  let curr := reads.getD e ReadOp.blank
  match s.leader with
  | none => startRead s e curr
  | some l =>
    if fusable maxBytes maxChunks s (reads.getD l ReadOp.blank) curr then
      mergeRead s e ((s.readIndex.getD l none).getD 0) curr
    else startRead s e curr

def appendFill (reads : List ReadOp) (s : FuseState) (i : ℕ) : FuseState :=
  match s.readIndex.getD i none with
  | some _ => s
  | none => s.append i (reads.getD i ReadOp.blank)

/-! ## Spreading over the shards -/

def runStarts (tmp : List ReadOp) : List ℕ :=
  (List.range tmp.length).filter fun k =>
    k == 0 || (tmp.getD k ReadOp.blank).shardPath != (tmp.getD (k - 1) ReadOp.blank).shardPath

/-- One round: the next read of every shard that has one left takes the next place. -/
def emitRound (runs : List (ℕ × ℕ)) (round : ℕ) (s : List ℕ × ℕ) : List ℕ × ℕ :=
  runs.foldl (fun s run =>
    if run.1 + round < run.2 then (s.1.set (run.1 + round) s.2, s.2 + 1) else s) s

def emitLoop (runs : List (ℕ × ℕ)) (nReal : ℕ) : (fuel round : ℕ) → List ℕ × ℕ → List ℕ × ℕ
  | 0, _, s => s
  | fuel + 1, round, s =>
    if s.2 < nReal then emitLoop runs nReal fuel (round + 1) (emitRound runs round s) else s

def emitPositions (tmp : List ReadOp) (n : ℕ) (k : ℕ) : ℕ :=
  let nReal := tmp.length
  let pos := (emitLoop (RoundRobin.runs (runStarts tmp) nReal) nReal nReal 0
    (List.replicate n 0, 0)).1
  if k < nReal then pos.getD k 0 else k

/-! ## `coalesce_reads` -/

def fuseReads (reads : List ReadOp) (maxBytes maxChunks : ℕ) : FuseState :=
  let n := reads.length
  let perm := readOpPermSort reads
    ((List.range n).filter fun i => (reads.getD i ReadOp.blank).isReal)
  perm.foldl (fuseRead reads maxBytes maxChunks)
    ⟨[], List.replicate n none, List.replicate n 0, none, 0, 0⟩

/-- What `coalesce_reads` leaves behind: the merged reads, and for every read the merged read it is
in and its offset there. -/
structure Coalesced where
  reads : List ReadOp
  readIndex : List ℕ
  offsetInRead : List ℕ

/-- `coalesce_reads`, with all its arrays present. -/
def coalesceReads (reads : List ReadOp) (maxBytes maxChunks : ℕ) : Coalesced :=
  let n := reads.length
  let fused := fuseReads reads maxBytes maxChunks
  let pos := emitPositions fused.tmp n
  let all := (List.range n).foldl (appendFill reads) fused
  let write := all.tmp.length
  { reads := (Scatter.scatter pos (fun k => all.tmp.getD k ReadOp.blank) write reads).take write
    readIndex := all.readIndex.map fun k => pos (k.getD 0)
    offsetInRead := all.offsetInRead }

/-! ## Every read keeps its location -/

section Located

variable {reads : List ReadOp} {s : FuseState} {done : List ℕ} {e : ℕ}

/-- Merged read `m` has the shard of read `i`, and `o` bytes into it is where read `i` starts. -/
def LocatedAt (reads tmp : List ReadOp) (i m o : ℕ) : Prop :=
  ∃ r, tmp[m]? = some r ∧ r.shardPath = (reads.getD i ReadOp.blank).shardPath ∧
    r.fileOffset + o = (reads.getD i ReadOp.blank).fileOffset

def Located (reads : List ReadOp) (s : FuseState) (i : ℕ) : Prop :=
  ∃ m o, s.readIndex[i]? = some (some m) ∧ s.offsetInRead[i]? = some o ∧
    LocatedAt reads s.tmp i m o

/-- The reads of `done` are located, and the others are not touched. -/
structure Fused (reads : List ReadOp) (done : List ℕ) (s : FuseState) : Prop where
  index_length : s.readIndex.length = reads.length
  offset_length : s.offsetInRead.length = reads.length
  nodup : done.Nodup
  lt : ∀ i ∈ done, i < reads.length
  located : ∀ i ∈ done, Located reads s i
  untouched : ∀ i < reads.length, i ∉ done → s.readIndex[i]? = some none
  tmp_le : s.tmp.length ≤ done.length

/-- The read that started the current merged read is at its start, and its end is a `uint64_t`. -/
def LeaderAt (reads : List ReadOp) (s : FuseState) : Prop :=
  ∀ l, s.leader = some l → s.leaderEnd < 2 ^ 64 ∧
    ∃ m, s.readIndex[l]? = some (some m) ∧ LocatedAt reads s.tmp l m 0

theorem LocatedAt.of_prefix {tmp tmp' : List ReadOp} {i m o : ℕ} (h : LocatedAt reads tmp i m o)
    (hkeep : ∀ (m : ℕ) r, tmp[m]? = some r →
      ∃ r', tmp'[m]? = some r' ∧ r'.shardPath = r.shardPath ∧ r'.fileOffset = r.fileOffset) :
    LocatedAt reads tmp' i m o := by
  rcases h with ⟨r, hr, hpath, hoff⟩
  rcases hkeep m r hr with ⟨r', hr', hpath', hoff'⟩
  exact ⟨r', hr', hpath'.trans hpath, hoff' ▸ hoff⟩

/-- **The step of both loops**: read `e` is recorded in merged read `m` at offset `o`. -/
theorem Fused.record {s' : FuseState} {m o : ℕ} (h : Fused reads done s) (he : e < reads.length)
    (hnew : e ∉ done) (hindex : s'.readIndex = s.readIndex.set e (some m))
    (hoffset : s'.offsetInRead = s.offsetInRead.set e o)
    (hkeep : ∀ (m : ℕ) r, s.tmp[m]? = some r →
      ∃ r', s'.tmp[m]? = some r' ∧ r'.shardPath = r.shardPath ∧ r'.fileOffset = r.fileOffset)
    (hlen : s'.tmp.length ≤ s.tmp.length + 1) (hat : LocatedAt reads s'.tmp e m o) :
    Fused reads (e :: done) s' where
  index_length := by rw [hindex, length_set, h.index_length]
  offset_length := by rw [hoffset, length_set, h.offset_length]
  nodup := nodup_cons.mpr ⟨hnew, h.nodup⟩
  lt := forall_mem_cons.mpr ⟨he, h.lt⟩
  located := by
    rw [forall_mem_cons]
    constructor
    · refine ⟨m, o, ?_, ?_, hat⟩
      · rw [hindex, getElem?_set_self (h.index_length.symm ▸ he)]
      · rw [hoffset, getElem?_set_self (h.offset_length.symm ▸ he)]
    · intro i hi
      have hne : e ≠ i := fun heq => hnew (heq ▸ hi)
      rcases h.located i hi with ⟨m', o', h1, h2, h3⟩
      refine ⟨m', o', ?_, ?_, h3.of_prefix hkeep⟩
      · rw [hindex, getElem?_set_ne hne, h1]
      · rw [hoffset, getElem?_set_ne hne, h2]
  untouched := by
    intro i hi hmem
    rw [mem_cons, not_or] at hmem
    rw [hindex, getElem?_set_ne (Ne.symm hmem.1), h.untouched i hi hmem.2]
  tmp_le := by
    have := h.tmp_le
    rw [length_cons]
    omega

theorem FuseState.append_keep (s : FuseState) (e : ℕ) (curr : ReadOp) (m : ℕ) (r : ReadOp)
    (hr : s.tmp[m]? = some r) : (s.append e curr).tmp[m]? = some r := by
  have hlt : m < s.tmp.length := (List.getElem?_eq_some_iff.mp hr).1
  rw [← hr]
  exact getElem?_append_left hlt

theorem FuseState.append_locatedAt (s : FuseState) (e : ℕ) :
    LocatedAt reads (s.append e (reads.getD e ReadOp.blank)).tmp e s.tmp.length 0 :=
  ⟨reads.getD e ReadOp.blank, by simp [FuseState.append], rfl, rfl⟩

theorem Fused.append (h : Fused reads done s) (he : e < reads.length) (hnew : e ∉ done) :
    Fused reads (e :: done) (s.append e (reads.getD e ReadOp.blank)) :=
  h.record he hnew rfl rfl (fun m r hr => ⟨r, s.append_keep e _ m r hr, rfl, rfl⟩)
    (by simp [FuseState.append]) (s.append_locatedAt e)

theorem fusable_spec {maxBytes maxChunks : ℕ} {leader curr : ReadOp}
    (h : fusable maxBytes maxChunks s leader curr = true) :
    curr.shardPath = leader.shardPath ∧ leader.fileOffset ≤ curr.fileOffset ∧
      curr.fileOffset ≤ s.leaderEnd ∧
      u64Sub (max curr.stop s.leaderEnd) leader.fileOffset ≤ uint32Max := by
  simp only [fusable, Bool.and_eq_true, beq_iff_eq, decide_eq_true_eq] at h
  exact ⟨h.1.1.1.1.1, h.1.1.1.1.2, h.1.1.1.2, h.2⟩

theorem startRead_spec (h : Fused reads done s) (he : e < reads.length) (hnew : e ∉ done) :
    Fused reads (e :: done) (startRead s e (reads.getD e ReadOp.blank)) ∧
      LeaderAt reads (startRead s e (reads.getD e ReadOp.blank)) := by
  have happ := h.append he hnew
  refine ⟨⟨happ.1, happ.2, happ.3, happ.4, happ.5, happ.6, happ.7⟩, ?_⟩
  intro l hl
  obtain rfl : e = l := Option.some.inj hl
  refine ⟨Nat.mod_lt _ (by decide), s.tmp.length, ?_, s.append_locatedAt e⟩
  exact getElem?_set_self (h.index_length.symm ▸ he)

theorem mergeRead_keep (s : FuseState) (e m : ℕ) (curr : ReadOp) (k : ℕ) (r : ReadOp)
    (hr : s.tmp[k]? = some r) :
    ∃ r', (mergeRead s e m curr).tmp[k]? = some r' ∧ r'.shardPath = r.shardPath ∧
      r'.fileOffset = r.fileOffset := by
  by_cases hk : m = k
  · refine ⟨{ r with nbytes := u32 (u64Sub (max curr.stop s.leaderEnd) r.fileOffset) }, ?_, rfl, rfl⟩
    simp [mergeRead, hr, hk]
  · exact ⟨r, by simp [mergeRead, hr, hk], rfl, rfl⟩

theorem mergeRead_spec {maxBytes maxChunks l m : ℕ} (h : Fused reads done s)
    (he : e < reads.length) (hnew : e ∉ done) (hleader : s.leader = some l)
    (hend : s.leaderEnd < 2 ^ 64) (hindex : s.readIndex[l]? = some (some m))
    (hat : LocatedAt reads s.tmp l m 0)
    (hfuse : fusable maxBytes maxChunks s (reads.getD l ReadOp.blank)
      (reads.getD e ReadOp.blank) = true) :
    Fused reads (e :: done) (mergeRead s e m (reads.getD e ReadOp.blank)) ∧
      LeaderAt reads (mergeRead s e m (reads.getD e ReadOp.blank)) := by
  set curr := reads.getD e ReadOp.blank with hcurr
  obtain ⟨hpath, hle, hlt, hsize⟩ := fusable_spec hfuse
  have hkeep := mergeRead_keep s e m curr
  have hstop : max curr.stop s.leaderEnd < 2 ^ 64 :=
    max_lt (Nat.mod_lt _ (by decide)) hend
  have hmax : s.leaderEnd ≤ max curr.stop s.leaderEnd := le_max_right _ _
  rcases hat with ⟨r, hr, hrpath, hroff⟩
  rw [Nat.add_zero] at hroff
  have hbegin : (s.tmp.getD m ReadOp.blank).fileOffset = (reads.getD l ReadOp.blank).fileOffset := by
    rw [List.getD, hr, Option.getD_some, hroff]
  -- the offset in the merged read fits, since it is inside a read of at most `UINT32_MAX` bytes
  have hoffset : u32 (u64Sub curr.fileOffset (s.tmp.getD m ReadOp.blank).fileOffset) =
      curr.fileOffset - (reads.getD l ReadOp.blank).fileOffset := by
    rw [u64Sub_of_le (hle.trans (hlt.trans hmax)) (by omega), uint32Max] at hsize
    rw [hbegin, u64Sub_of_le hle (by omega), u32, Nat.mod_eq_of_lt (by omega)]
  refine ⟨h.record he hnew rfl rfl hkeep (by simp [mergeRead]) ?_, ?_⟩
  · rcases hkeep m r hr with ⟨r', hr', hpath', hoff'⟩
    refine ⟨r', hr', by rw [hpath', hrpath, hpath], ?_⟩
    rw [hoffset, hoff', hroff]
    exact Nat.add_sub_of_le hle
  · intro l' hl'
    obtain rfl : l = l' := Option.some.inj (hleader.symm.trans hl')
    have hmem : l ∈ done := by
      by_contra hmem
      have hlen : l < reads.length := h.index_length ▸ (List.getElem?_eq_some_iff.mp hindex).1
      rw [h.untouched l hlen hmem] at hindex
      exact absurd hindex (by simp)
    have hne : e ≠ l := fun heq => hnew (heq ▸ hmem)
    refine ⟨hstop, m, ?_, LocatedAt.of_prefix ⟨r, hr, hrpath, by omega⟩ hkeep⟩
    show (s.readIndex.set e (some m))[l]? = _
    rw [getElem?_set_ne hne, hindex]

theorem fuseRead_spec (maxBytes maxChunks : ℕ) (h : Fused reads done s) (hleader : LeaderAt reads s)
    (he : e < reads.length) (hnew : e ∉ done) :
    Fused reads (e :: done) (fuseRead reads maxBytes maxChunks s e) ∧
      LeaderAt reads (fuseRead reads maxBytes maxChunks s e) := by
  unfold fuseRead
  cases hl : s.leader with
  | none => exact startRead_spec h he hnew
  | some l =>
    dsimp only
    split
    · rename_i hfuse
      obtain ⟨hend, m, hindex, hat⟩ := hleader l hl
      have hm : (s.readIndex.getD l none).getD 0 = m := by
        rw [List.getD, hindex, Option.getD_some, Option.getD_some]
      rw [hm]
      exact mergeRead_spec h he hnew hl hend hindex hat hfuse
    · exact startRead_spec h he hnew

theorem foldl_fuseRead_spec (maxBytes maxChunks : ℕ) {todo : List ℕ} (h : Fused reads done s)
    (hleader : LeaderAt reads s) (hlt : ∀ i ∈ todo, i < reads.length) (hnodup : todo.Nodup)
    (hdisj : ∀ i ∈ todo, i ∉ done) :
    Fused reads (todo.reverse ++ done) (todo.foldl (fuseRead reads maxBytes maxChunks) s) := by
  induction todo generalizing s done with
  | nil => exact h
  | cons e todo ih =>
    rw [forall_mem_cons] at hlt hdisj
    rw [nodup_cons] at hnodup
    obtain ⟨h', hleader'⟩ := fuseRead_spec maxBytes maxChunks h hleader hlt.1 hdisj.1
    have hrest := ih h' hleader' hlt.2 hnodup.2 fun i hi hmem => by
      rcases mem_cons.mp hmem with rfl | hmem
      · exact hnodup.1 hi
      · exact hdisj.2 i hi hmem
    rwa [reverse_cons, append_assoc]

def sortedReads (reads : List ReadOp) : List ℕ :=
  readOpPermSort reads
    ((List.range reads.length).filter fun i => (reads.getD i ReadOp.blank).isReal)

theorem mem_sortedReads {i : ℕ} : i ∈ sortedReads reads ↔
    i < reads.length ∧ (reads.getD i ReadOp.blank).isReal = true := by
  rw [sortedReads, (readOpPermSort_perm reads _).mem_iff, mem_filter, mem_range]

theorem nodup_sortedReads (reads : List ReadOp) : (sortedReads reads).Nodup :=
  (readOpPermSort_perm reads _).nodup_iff.mpr (nodup_range.filter _)

theorem fused_nil (reads : List ReadOp) : Fused reads []
    ⟨[], List.replicate reads.length none, List.replicate reads.length 0, none, 0, 0⟩ :=
  ⟨by simp, by simp, nodup_nil, by simp, by simp, by simp +contextual, by simp⟩

theorem fuseReads_spec (reads : List ReadOp) (maxBytes maxChunks : ℕ) :
    Fused reads ((sortedReads reads).reverse ++ []) (fuseReads reads maxBytes maxChunks) :=
  foldl_fuseRead_spec maxBytes maxChunks (fused_nil reads) (fun l hl => absurd hl (by simp))
    (fun _ hi => (mem_sortedReads.mp hi).1) (nodup_sortedReads reads) fun _ _ => not_mem_nil

theorem Fused.appendFill_eq (h : Fused reads done s) (he : e < reads.length) :
    appendFill reads s e = if e ∈ done then s else s.append e (reads.getD e ReadOp.blank) := by
  by_cases hmem : e ∈ done
  · rcases h.located e hmem with ⟨m, o, hm, -⟩
    simp [appendFill, List.getD, hm, hmem]
  · simp [appendFill, List.getD, h.untouched e he hmem, hmem]

/-- **The loop over the placeholders**: what an appended read keeps holds when the first `n` reads
are done. -/
theorem Fused.fill_induction {P : List ℕ → FuseState → Prop} {n : ℕ} (h : Fused reads done s)
    (hP : P done s) (hn : n ≤ reads.length)
    (hstep : ∀ done s e, Fused reads done s → P done s → e < reads.length → e ∉ done →
      P (e :: done) (s.append e (reads.getD e ReadOp.blank))) :
    ∃ done', Fused reads done' ((List.range n).foldl (appendFill reads) s) ∧
      P done' ((List.range n).foldl (appendFill reads) s) ∧ ∀ i < n, i ∈ done' := by
  induction n with
  | zero => exact ⟨done, h, hP, by simp⟩
  | succ n ih =>
    obtain ⟨done', h', hP', hdone⟩ := ih (by omega)
    rw [range_succ, foldl_append, foldl_cons, foldl_nil,
      h'.appendFill_eq (by omega)]
    split
    · rename_i hmem
      exact ⟨done', h', hP', Nat.forall_lt_succ_right.mpr ⟨hdone, hmem⟩⟩
    · rename_i hmem
      refine ⟨n :: done', h'.append (by omega) hmem, hstep done' _ n h' hP' (by omega) hmem, ?_⟩
      exact Nat.forall_lt_succ_right.mpr
        ⟨fun i hi => mem_cons_of_mem n (hdone i hi), mem_cons_self⟩

theorem foldl_appendFill_spec {n : ℕ} (h : Fused reads done s) (hn : n ≤ reads.length) :
    ∃ done', Fused reads done' ((List.range n).foldl (appendFill reads) s) ∧
      (∀ i < n, i ∈ done') ∧
      ∃ fills, ((List.range n).foldl (appendFill reads) s).tmp = s.tmp ++ fills := by
  have hfills := h.fill_induction (P := fun _ t => ∃ fills, t.tmp = s.tmp ++ fills)
    ⟨[], by simp⟩ hn ?_
  · obtain ⟨done', h', hfills, hdone⟩ := hfills
    exact ⟨done', h', hdone, hfills⟩
  · rintro _ t e - ⟨fills, htmp⟩ - -
    exact ⟨fills ++ [reads.getD e ReadOp.blank], by rw [FuseState.append, htmp, append_assoc]⟩

end Located

/-! ## The places of the merged reads -/

theorem emitRound_eq (runs : List (ℕ × ℕ)) (round : ℕ) (s : List ℕ × ℕ) :
    emitRound runs round s = RoundRobin.number (RoundRobin.turn runs round) s := by
  induction runs generalizing s with
  | nil => rfl
  | cons run runs ih =>
    show emitRound runs round (if run.1 + round < run.2 then _ else s) = _
    have hturn : RoundRobin.turn (run :: runs) round =
        (if run.1 + round < run.2 then [run.1 + round] else []) ++ RoundRobin.turn runs round :=
      flatMap_cons
    rw [ih, hturn, RoundRobin.number_append]
    congr 1
    split <;> rfl

def shardRuns (tmp : List ReadOp) : List (ℕ × ℕ) := RoundRobin.runs (runStarts tmp) tmp.length

/-- The loop over the rounds numbers the places in the order of the rounds. When it stops because
all places are numbered, further rounds would visit none. -/
theorem emitLoop_eq {runs : List (ℕ × ℕ)} {nReal : ℕ}
    (hle : ∀ r, (RoundRobin.order runs r).length ≤ nReal) (fuel round : ℕ) (pos : List ℕ) :
    emitLoop runs nReal fuel round (RoundRobin.number (RoundRobin.order runs round) (pos, 0)) =
      RoundRobin.number (RoundRobin.order runs (round + fuel)) (pos, 0) := by
  induction fuel generalizing round with
  | zero => rfl
  | succ fuel ih =>
    rw [emitLoop, RoundRobin.number_snd]
    split
    · rw [emitRound_eq, ← RoundRobin.number_append, ← RoundRobin.order_succ, ih,
        show round + 1 + fuel = round + (fuel + 1) by omega]
    · rename_i hfull
      have hall := hle (round + (fuel + 1))
      rw [RoundRobin.order_add, length_append] at hall
      have hrest : (List.range' round (fuel + 1)).flatMap (RoundRobin.turn runs) = [] :=
        eq_nil_of_length_eq_zero (by omega)
      rw [RoundRobin.order_add, hrest, append_nil]

theorem flatMap_places_shardRuns (tmp : List ReadOp) :
    (shardRuns tmp).flatMap RoundRobin.places = List.range tmp.length := by
  have hsorted : (runStarts tmp).Pairwise (· < ·) := pairwise_lt_range.filter _
  have hlt : ∀ s ∈ runStarts tmp, s < tmp.length := fun s hs =>
    mem_range.mp (mem_filter.mp hs).1
  cases tmp with
  | nil => rfl
  | cons r tmp =>
    obtain ⟨starts, hstarts⟩ : ∃ starts, runStarts (r :: tmp) = 0 :: starts := by
      simp [runStarts, range_succ_eq_map]
    rw [hstarts] at hsorted hlt
    rw [shardRuns, hstarts, RoundRobin.flatMap_places_runs hsorted hlt, Nat.sub_zero,
      range_eq_range']

theorem length_order_shardRuns_le (tmp : List ReadOp) (rounds : ℕ) :
    (RoundRobin.order (shardRuns tmp) rounds).length ≤ tmp.length := by
  have hle := RoundRobin.length_order_le (shardRuns tmp) rounds
  rwa [flatMap_places_shardRuns, length_range] at hle

theorem shardRun_le {tmp : List ReadOp} {run : ℕ × ℕ} (hrun : run ∈ shardRuns tmp) :
    run.2 - run.1 ≤ tmp.length := by
  have hmem : RoundRobin.places run ∈ (shardRuns tmp).map RoundRobin.places :=
    mem_map_of_mem hrun
  have hsub := (sublist_flatten_of_mem hmem).length_le
  rwa [← flatMap_def, flatMap_places_shardRuns, length_range, RoundRobin.places,
    length_range'] at hsub

def emissionOrder (tmp : List ReadOp) : List ℕ := RoundRobin.order (shardRuns tmp) tmp.length

theorem emissionOrder_perm (tmp : List ReadOp) :
    (emissionOrder tmp).Perm (List.range tmp.length) := by
  rw [← flatMap_places_shardRuns]
  exact RoundRobin.order_perm fun run hrun => shardRun_le hrun

/-- **Every merged read gets a place of its own among the merged reads.** -/
theorem emitPositions_eq (tmp : List ReadOp) {n k : ℕ} (hn : tmp.length ≤ n) (hk : k < tmp.length) :
    emitPositions tmp n k = (emissionOrder tmp).idxOf k := by
  have hloop := emitLoop_eq (length_order_shardRuns_le tmp) tmp.length 0 (List.replicate n 0)
  have hmem : k ∈ emissionOrder tmp := (emissionOrder_perm tmp).mem_iff.mpr (mem_range.mpr hk)
  have hget := RoundRobin.number_getElem? ((emissionOrder_perm tmp).nodup_iff.mpr nodup_range)
    hmem (List.replicate n 0, 0) (by rw [length_replicate]; omega)
  rw [Nat.zero_add] at hloop
  change emitLoop (shardRuns tmp) tmp.length tmp.length 0 (List.replicate n 0, 0) =
    RoundRobin.number (emissionOrder tmp) (List.replicate n 0, 0) at hloop
  rw [emitPositions, if_pos hk]
  change (emitLoop (shardRuns tmp) _ _ _ _).1.getD k 0 = _
  rw [hloop, List.getD, hget, Option.getD_some, Nat.zero_add]

theorem emitPositions_lt (tmp : List ReadOp) {n k : ℕ} (hn : tmp.length ≤ n) (hk : k < tmp.length) :
    emitPositions tmp n k < tmp.length := by
  have hidx := idxOf_lt_length_of_mem
    ((emissionOrder_perm tmp).mem_iff.mpr (mem_range.mpr hk))
  rwa [(emissionOrder_perm tmp).length_eq, length_range, ← emitPositions_eq tmp hn hk] at hidx

theorem emitPositions_fill (tmp : List ReadOp) (n : ℕ) {k : ℕ} (hk : tmp.length ≤ k) :
    emitPositions tmp n k = k := if_neg (not_lt.mpr hk)

theorem emitPositions_perm (tmp : List ReadOp) {n write : ℕ} (hn : tmp.length ≤ n)
    (hwrite : tmp.length ≤ write) :
    ((List.range write).map (emitPositions tmp n)).Perm (List.range write) := by
  obtain ⟨fills, rfl⟩ := Nat.exists_eq_add_of_le hwrite
  have hreal : (List.range tmp.length).map (emitPositions tmp n) =
      (List.range tmp.length).map fun k => (emissionOrder tmp).idxOf k :=
    map_congr_left fun k hk => emitPositions_eq tmp hn (mem_range.mp hk)
  have hfill : ((List.range fills).map (tmp.length + ·)).map (emitPositions tmp n) =
      (List.range fills).map (tmp.length + ·) := by
    refine (map_congr_left fun k hk => ?_).trans (map_id _)
    obtain ⟨j, -, rfl⟩ := mem_map.mp hk
    exact emitPositions_fill tmp n (Nat.le_add_right _ _)
  rw [range_add, map_append, hreal, hfill]
  refine List.Perm.append_right _ ?_
  have hperm := emissionOrder_perm tmp
  have hidx : (emissionOrder tmp).map (fun k => (emissionOrder tmp).idxOf k) =
      List.range tmp.length := by
    apply ext_getElem
    · rw [length_map, hperm.length_eq]
    · intro i h1 _
      rw [getElem_map, getElem_range]
      exact (hperm.nodup_iff.mpr nodup_range).idxOf_getElem i _
  exact (hperm.map _).symm.trans (List.Perm.of_eq hidx)

theorem Fused.tmp_le_length {reads : List ReadOp} {done : List ℕ} {s : FuseState}
    (h : Fused reads done s) : s.tmp.length ≤ reads.length := by
  have hsub : done ⊆ List.range reads.length := fun j hj => mem_range.mpr (h.lt j hj)
  have := (subperm_of_subset h.nodup hsub).length_le
  rw [length_range] at this
  exact h.tmp_le.trans this

def fuseAll (reads : List ReadOp) (maxBytes maxChunks : ℕ) : FuseState :=
  (List.range reads.length).foldl (appendFill reads) (fuseReads reads maxBytes maxChunks)

/-- The merged reads of `s` are moved to the places `pos`. -/
structure PlacedReads (pos : ℕ → ℕ) (s : FuseState) (c : Coalesced) : Prop where
  index : c.readIndex = s.readIndex.map fun k => pos (k.getD 0)
  offset : c.offsetInRead = s.offsetInRead
  length : c.reads.length = s.tmp.length
  perm : ((List.range s.tmp.length).map pos).Perm (List.range s.tmp.length)
  read : ∀ k < s.tmp.length, c.reads[pos k]? = s.tmp[k]?

section PlacedReads

variable {pos : ℕ → ℕ} {s : FuseState} {c : Coalesced} {j k m : ℕ}

theorem PlacedReads.inj (h : PlacedReads pos s c) (hj : j < s.tmp.length) (hk : k < s.tmp.length)
    (heq : pos j = pos k) : j = k :=
  inj_on_of_nodup_map (h.perm.nodup_iff.mpr nodup_range) (mem_range.mpr hj)
    (mem_range.mpr hk) heq

theorem PlacedReads.surj (h : PlacedReads pos s c) (hm : m < c.reads.length) :
    ∃ k < s.tmp.length, pos k = m := by
  rw [h.length] at hm
  obtain ⟨k, hk, heq⟩ := mem_map.mp (h.perm.mem_iff.mpr (mem_range.mpr hm))
  exact ⟨k, mem_range.mp hk, heq⟩

theorem PlacedReads.index_of (h : PlacedReads pos s c) (hk : s.readIndex[j]? = some (some k)) :
    c.readIndex[j]? = some (pos k) := by
  rw [h.index, getElem?_map, hk]
  rfl

end PlacedReads

/-- Where `coalesce_reads` puts merged read `k`. -/
def coalescedPos (reads : List ReadOp) (maxBytes maxChunks : ℕ) : ℕ → ℕ :=
  emitPositions (fuseReads reads maxBytes maxChunks).tmp reads.length

theorem coalesceReads_placed (reads : List ReadOp) (maxBytes maxChunks : ℕ) :
    PlacedReads (coalescedPos reads maxBytes maxChunks) (fuseAll reads maxBytes maxChunks)
      (coalesceReads reads maxBytes maxChunks) := by
  have hfused := fuseReads_spec reads maxBytes maxChunks
  rcases foldl_appendFill_spec hfused le_rfl with ⟨done', hall, -, fills, htmp⟩
  set all := fuseAll reads maxBytes maxChunks with halldef
  have hle : (fuseReads reads maxBytes maxChunks).tmp.length ≤ all.tmp.length := by
    rw [halldef, fuseAll, htmp, length_append]
    omega
  have hperm := emitPositions_perm _ hfused.tmp_le_length hle
  have hlt : ∀ k < all.tmp.length, coalescedPos reads maxBytes maxChunks k < all.tmp.length :=
    fun k hk => mem_range.mp
      (hperm.mem_iff.mp (mem_map_of_mem (mem_range.mpr hk)))
  have hinj : ∀ j < all.tmp.length, ∀ k < all.tmp.length,
      coalescedPos reads maxBytes maxChunks j = coalescedPos reads maxBytes maxChunks k → j = k :=
    fun j hj k hk => inj_on_of_nodup_map (hperm.nodup_iff.mpr nodup_range)
      (mem_range.mpr hj) (mem_range.mpr hk)
  refine ⟨rfl, rfl, ?_, hperm, fun k hk => ?_⟩
  · show ((Scatter.scatter _ _ all.tmp.length reads).take all.tmp.length).length = _
    rw [length_take, Scatter.length_scatter]
    exact Nat.min_eq_left hall.tmp_le_length
  · show ((Scatter.scatter (coalescedPos reads maxBytes maxChunks)
      (fun k => all.tmp.getD k ReadOp.blank) all.tmp.length reads).take all.tmp.length)[_]? = _
    rw [getElem?_take_of_lt (hlt k hk),
      Scatter.scatter_getElem? hinj hk ((hlt k hk).trans_le hall.tmp_le_length), List.getD,
      getElem?_eq_getElem hk, Option.getD_some]

/-- **`coalesce_reads` keeps the location of every read**: the merged read it is assigned to is of
the same shard, and the recorded offset in it is where the read started. -/
theorem coalesceReads_located (reads : List ReadOp) (maxBytes maxChunks : ℕ) {i : ℕ} {read : ReadOp}
    (hread : reads[i]? = some read) :
    ∃ (m o : ℕ) (r : ReadOp), (coalesceReads reads maxBytes maxChunks).readIndex[i]? = some m ∧
      (coalesceReads reads maxBytes maxChunks).offsetInRead[i]? = some o ∧
      (coalesceReads reads maxBytes maxChunks).reads[m]? = some r ∧
      r.shardPath = read.shardPath ∧ r.fileOffset + o = read.fileOffset := by
  have hfused := fuseReads_spec reads maxBytes maxChunks
  rcases foldl_appendFill_spec hfused le_rfl with ⟨done', hall, hdone, -⟩
  have hplaced := coalesceReads_placed reads maxBytes maxChunks
  have hi : i < reads.length := (List.getElem?_eq_some_iff.mp hread).1
  rcases hall.located i (hdone i hi) with ⟨m, o, hindex, hoffset, r, hr, hpath, hoff⟩
  have hgetD : reads.getD i ReadOp.blank = read := by rw [List.getD, hread, Option.getD_some]
  rw [hgetD] at hpath hoff
  have hm := (List.getElem?_eq_some_iff.mp hr).1
  exact ⟨_, o, r, hplaced.index_of hindex, hoffset, (hplaced.read m hm).trans hr, hpath, hoff⟩

end Damacy

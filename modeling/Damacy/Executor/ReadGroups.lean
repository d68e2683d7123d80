import Mathlib.Algebra.Group.Action.Defs
import Damacy.Executor.DispatchSpec
import Damacy.Executor.MergedReads
import Damacy.Lib.Packing
import Damacy.Planner.PlanSizes

/-!
# The read groups of a dispatched plan

Waves are packed group by group. This module says what a group is: the groups tile the chunk plans
in order, the chunk plans of a group come from one read that covers them, they are all stored or all
missing, and there are at most as many as a wave takes (`dispatchPlanBuild_groups`).
-/

open List ExceptFold

namespace Damacy

section Uses

variable {mem : DispatchMemory} {plan : PreparedPlan} {caps : DispatchCaps}
  {alignment slot maxBytes maxChunks : ℕ} {samplePlans : List SamplePlan}

/-- The read that dispatch makes for a chunk: its pages, or the placeholder of a missing chunk. -/
def PlanChunk.readOp (alignment : ℕ) (chunk : PlanChunk) : ReadOp :=
  if chunk.missing then ReadOp.blank else chunk.pages alignment

def PreparedPlan.useChunk (plan : PreparedPlan) (i : ℕ) : Option PlanChunk := do
  let use ← plan.uses[i]?
  plan.chunks[use.chunk]?

theorem PreparedPlan.useChunk_mem {i : ℕ} {chunk : PlanChunk} (h : plan.useChunk i = some chunk) :
    chunk ∈ plan.chunks := by
  simp only [PreparedPlan.useChunk, Option.bind_eq_bind, Option.bind_eq_some_iff] at h
  obtain ⟨use, -, hmem⟩ := h
  exact mem_of_getElem? hmem

/-- The chunk plan of use `i` before the reads are merged: read `i` covers its chunk. -/
structure UseRead (plan : PreparedPlan) (alignment : ℕ) (reads : List ReadOp) (i : ℕ)
    (cp : ChunkPlan) : Prop where
  index : cp.readOpIdx = i
  decompressed_lt : cp.decompressedNbytes < 2 ^ 32
  read : ∃ r, reads[i]? = some r ∧ r.Fits ∧ r.isReal = !cp.isFill ∧
    (cp.isFill = false → cp.offsetInRead + cp.compressedNbytes ≤ r.nbytes)
  chunk : ∃ chunk, plan.useChunk i = some chunk ∧ reads[i]? = some (chunk.readOp alignment) ∧
    cp.isFill = chunk.missing ∧ cp.decompressedNbytes = chunk.decodedBytes

theorem UseRead.mono {reads : List ReadOp} {i : ℕ} {cp : ChunkPlan}
    (h : UseRead plan alignment reads i cp) (more : List ReadOp) :
    UseRead plan alignment (reads ++ more) i cp := by
  obtain ⟨r, hr, hrest⟩ := h.read
  obtain ⟨chunk, huse, hread, hchunk⟩ := h.chunk
  have hkeep : (reads ++ more)[i]? = reads[i]? :=
    getElem?_append_left (List.getElem?_eq_some_iff.mp hr).1
  exact ⟨h.index, h.decompressed_lt, ⟨r, hkeep.trans hr, hrest⟩,
    ⟨chunk, huse, hkeep.trans hread, hchunk⟩⟩

theorem dispatchRead_covers {i : ℕ} {chunk : PlanChunk} {read : ReadOp × ℕ}
    (halign : 0 < alignment) (halignlt : alignment < 2 ^ 64)
    (hpos : chunk.missing = false → 0 < chunk.encodedBytes)
    (hbound : chunk.missing = false → chunk.offset + chunk.encodedBytes < 2 ^ 64)
    (h : dispatchRead mem alignment i chunk = .ok read) :
    read.1 = chunk.readOp alignment ∧ read.1.Fits ∧ read.1.isReal = !chunk.missing ∧
      (chunk.missing = false → read.2 + chunk.encodedBytes ≤ read.1.nbytes) := by
  rw [PlanChunk.readOp]
  cases hmissing : chunk.missing with
  | true =>
    simp only [dispatchRead, hmissing, if_true, Except.ok.injEq] at h
    subst h
    exact ⟨rfl, ReadOp.blank_fits, rfl, fun hfalse => absurd hfalse (by simp)⟩
  | false =>
    obtain ⟨start, stop, hpages, hstart, hstop, hlt, hsize, rfl, hpath⟩ :=
      dispatchRead_stored halign halignlt hbound h hmissing
    have hencoded := hpos hmissing
    refine ⟨rfl, ?_⟩
    rw [hpages]
    refine ⟨⟨hsize, show start + (stop - start) < 2 ^ 64 by omega⟩, ?_, fun _ => ?_⟩
    · have hne : stop - start ≠ 0 := by omega
      simp [ReadOp.isReal, Option.isSome_iff_ne_none, hpath, hne]
    · show chunk.offset - start + chunk.encodedBytes ≤ stop - start
      omega

theorem foldlM_dispatchUse_reads (halign : 0 < alignment) (halignlt : alignment < 2 ^ 64)
    (hsizes : PlanSizes plan) {r : DispatchUses}
    (h : plan.uses.zipIdx.foldlM (dispatchUse mem plan slot alignment caps samplePlans)
      ⟨[], [], []⟩ = .ok r) :
    r.reads.length = plan.uses.length ∧ r.chunkPlans.length = plan.uses.length ∧
      ∀ (i : ℕ) cp, r.chunkPlans[i]? = some cp → UseRead plan alignment r.reads i cp := by
  have hinv := foldlM_ok_induction (fun done _ r => r.reads.length = done.length ∧
    r.chunkPlans.length = done.length ∧
    ∀ (i : ℕ) cp, r.chunkPlans[i]? = some cp → UseRead plan alignment r.reads i cp) (by simp) ?_ h
  · simpa using hinv
  intro done item rest r r' hlist ⟨hlen, hcps, hdone⟩ hstep
  have hitem : plan.uses[done.length]? = some item.1 ∧ item.2 = done.length := by
    have hget : plan.uses.zipIdx[done.length]? = some item := by simp [hlist]
    obtain ⟨hlt, heq⟩ := List.getElem?_eq_some_iff.mp hget
    rw [getElem_zipIdx] at heq
    rw [← heq]
    exact ⟨getElem?_eq_getElem _, by simp⟩
  unfold dispatchUse at hstep
  split at hstep
  · cases hstep
  · rename_i chunk region array hrecords
    split at hstep
    · cases hstep
    · simp only [bind_eq_ok, failIf_eq_ok, exists_const, pure_eq_ok, Except.ok.injEq] at hstep
      obtain ⟨-, read, hread, rfl⟩ := hstep
      have hchunk := hsizes.chunk chunk (useRecords_mem hrecords)
      obtain ⟨heq, hfits, hreal, hcovers⟩ := dispatchRead_covers halign halignlt
        hchunk.encoded_pos hchunk.stop_lt hread
      refine ⟨by simp [hlen], by simp [hcps], fun i cp hcp => ?_⟩
      by_cases hi : i < r.chunkPlans.length
      · rw [getElem?_append_left hi] at hcp
        exact (hdone i cp hcp).mono _
      · have hi' : i = done.length := by
          have := (List.getElem?_eq_some_iff.mp hcp).1
          rw [length_append, length_singleton] at this
          omega
        rw [hi', ← hcps, getElem?_concat_length, Option.some.injEq] at hcp
        subst hcp
        have hself : (r.reads ++ [read.1])[i]? = some read.1 := by
          rw [hi', ← hlen, getElem?_concat_length]
        have huse : plan.useChunk i = some chunk := by
          rw [PreparedPlan.useChunk, hi', hitem.1]
          exact useRecords_chunk hrecords
        exact ⟨hitem.2.trans hi'.symm, hchunk.decoded_lt, ⟨read.1, hself, hfits, hreal, hcovers⟩,
          ⟨chunk, huse, heq ▸ hself, rfl, rfl⟩⟩

/-! ## After merging -/

structure HeldChunks (maxChunks : ℕ) (readOps : List ReadOp) (chunkPlans : List ChunkPlan) :
    Prop where
  decompressed_lt : ∀ cp ∈ chunkPlans, cp.decompressedNbytes < 2 ^ 32
  read : ∀ cp ∈ chunkPlans, ∃ r, readOps[cp.readOpIdx]? = some r ∧ r.Fits ∧
    (cp.isFill = false → cp.offsetInRead + cp.compressedNbytes ≤ r.nbytes)
  count_le : ∀ m, chunkPlans.countP (fun cp => cp.readOpIdx == m) ≤ maxChunks
  fill : ∀ cp ∈ chunkPlans, ∀ cp' ∈ chunkPlans, cp.readOpIdx = cp'.readOpIdx →
    cp.isFill = cp'.isFill

/-- The chunk plan of use `i` after merging: it has the merged read that read `i` is assigned to, and
the merged read covers its chunk. -/
def MergedChunk (plan : PreparedPlan) (alignment : ℕ) (reads : List ReadOp) (merged : Coalesced)
    (i : ℕ) (cp' : ChunkPlan) : Prop :=
  ∃ cp m o r, UseRead plan alignment reads i cp ∧ merged.readIndex[i]? = some m ∧
    merged.reads[m]? = some r ∧ r.Fits ∧
    (cp.isFill = false → o + cp.compressedNbytes ≤ r.nbytes) ∧
    cp' = { cp with readOpIdx := m, offsetInRead := if cp.isFill then cp.offsetInRead else o }

theorem useReads_fit {reads : List ReadOp} {cps : List ChunkPlan} (hlen : reads.length = cps.length)
    (h : ∀ (i : ℕ) cp, cps[i]? = some cp → UseRead plan alignment reads i cp) :
    ∀ r ∈ reads, r.Fits := by
  intro r hr
  obtain ⟨i, hi, rfl⟩ := getElem_of_mem hr
  obtain ⟨r', hr', hfit, -⟩ := (h i _ (getElem?_eq_getElem (hlen ▸ hi))).read
  rw [getElem?_eq_getElem hi, Option.some.injEq] at hr'
  exact hr' ▸ hfit

theorem coalesceChunks_merged {out out' : DispatchOutput} (hmax : 0 < maxChunks)
    (hlen : out.readOps.length = out.chunkPlans.length)
    (h : ∀ (i : ℕ) cp, out.chunkPlans[i]? = some cp → UseRead plan alignment out.readOps i cp)
    (hout : coalesceChunks maxBytes maxChunks out = .ok out') :
    out'.readOps = (coalesceReads out.readOps maxBytes maxChunks).reads ∧
      out'.chunkPlans.length = out.chunkPlans.length ∧
      ∀ (i : ℕ) cp', out'.chunkPlans[i]? = some cp' →
        MergedChunk plan alignment out.readOps (coalesceReads out.readOps maxBytes maxChunks) i
          cp' := by
  unfold coalesceChunks at hout
  split at hout
  · rename_i hzero
    obtain rfl := Except.ok.inj hout
    have hreads : out.readOps = [] := length_eq_zero_iff.mp hzero
    have hnil : out.chunkPlans = [] := length_eq_zero_iff.mp (hlen ▸ hzero)
    simp only [hnil, hreads]
    exact ⟨rfl, trivial, by simp⟩
  simp only [bind_eq_ok, pure_eq_ok, Except.ok.injEq, mapM_eq_ok] at hout
  obtain ⟨chunkPlans, hmap, rfl⟩ := hout
  have hheld := coalesceReads_held (useReads_fit hlen h) maxBytes hmax
  obtain ⟨hlen', hmap⟩ := List.forall₂_iff_get.mp hmap
  refine ⟨rfl, hlen'.symm, fun i cp' hcp' => ?_⟩
  obtain ⟨hi, rfl⟩ := List.getElem?_eq_some_iff.mp hcp'
  have hi' : i < out.chunkPlans.length := hlen' ▸ hi
  have huse := h i _ (getElem?_eq_getElem hi')
  obtain ⟨read, hread, -, -, hcovers⟩ := huse.read
  obtain ⟨m, o, r, hm, ho, hr, hfit, hinside⟩ := hheld.inside i read hread
  refine ⟨_, m, out.chunkPlans[i].offsetInRead + o, r, huse, hm, hr, hfit, fun hfill => ?_, ?_⟩
  · have := hcovers hfill
    omega
  · have hcp := coalesceChunk_spec (hmap i hi' hi)
    rw [get_eq_getElem, get_eq_getElem] at hcp
    rw [hcp, huse.index, List.getD, hm, List.getD, ho]
    rfl

theorem coalesceChunks_held {out out' : DispatchOutput} (hmax : 0 < maxChunks)
    (hlen : out.readOps.length = out.chunkPlans.length)
    (h : ∀ (i : ℕ) cp, out.chunkPlans[i]? = some cp → UseRead plan alignment out.readOps i cp)
    (hout : coalesceChunks maxBytes maxChunks out = .ok out') :
    HeldChunks maxChunks out'.readOps out'.chunkPlans := by
  obtain ⟨hreads, hlen', hmerged⟩ := coalesceChunks_merged hmax hlen h hout
  have hheld := coalesceReads_held (useReads_fit hlen h) maxBytes hmax
  set merged := coalesceReads out.readOps maxBytes maxChunks
  have hafter (i : ℕ) (hi : i < out'.chunkPlans.length) :=
    hmerged i _ (getElem?_eq_getElem hi)
  refine ⟨?_, ?_, fun m => ?_, ?_⟩
  · intro cp' hcp'
    obtain ⟨i, hi, rfl⟩ := getElem_of_mem hcp'
    obtain ⟨cp, m, o, r, huse, -, -, -, -, heq⟩ := hafter i hi
    rw [heq]
    exact huse.decompressed_lt
  · intro cp' hcp'
    obtain ⟨i, hi, rfl⟩ := getElem_of_mem hcp'
    obtain ⟨cp, m, o, r, -, -, hr, hfit, hle, heq⟩ := hafter i hi
    rw [heq, hreads]
    refine ⟨r, hr, hfit, fun hfill => ?_⟩
    dsimp only at hfill ⊢
    rw [hfill, if_neg Bool.false_ne_true]
    exact hle hfill
  · -- the indices of the chunk plans are those of the reads of the uses
    have hindex : out'.chunkPlans.map (fun cp => some cp.readOpIdx) =
        (List.range out.readOps.length).map fun i => merged.readIndex[i]? := by
      apply ext_getElem
      · simp [hlen, hlen']
      · intro i h1 h2
        rw [length_map] at h1
        obtain ⟨cp, m, o, r, -, hm, -, -, -, heq⟩ := hafter i h1
        rw [getElem_map, getElem_map, getElem_range, hm, heq]
    have hcount := hheld.members_le m
    have hchunks : out'.chunkPlans.countP (fun cp => cp.readOpIdx == m) =
        (out'.chunkPlans.map fun cp => some cp.readOpIdx).countP (· == some m) := by
      rw [countP_map]
      apply countP_congr
      intro cp _
      simp
    rw [hchunks, hindex, countP_map]
    exact hcount
  · intro cp₁ h₁ cp₂ h₂ hsame
    obtain ⟨i, hi, rfl⟩ := getElem_of_mem h₁
    obtain ⟨j, hj, rfl⟩ := getElem_of_mem h₂
    by_cases hij : i = j
    · subst hij
      rfl
    obtain ⟨cp, m, _, _, huse, hm, -, -, -, heq⟩ := hafter i hi
    obtain ⟨cp', m', _, _, huse', hm', -, -, -, heq'⟩ := hafter j hj
    rw [heq, heq'] at hsame ⊢
    dsimp only at hsame ⊢
    obtain ⟨r, hr, -, hreal, -⟩ := huse.read
    obtain ⟨r', hr', -, hreal', -⟩ := huse'.read
    obtain ⟨h₁, h₂⟩ := hheld.shared i (List.getElem?_eq_some_iff.mp hr).1 j
      (List.getElem?_eq_some_iff.mp hr').1 (by rw [hm, hm', hsame]) hij
    rw [List.getD, hr, Option.getD_some, hreal] at h₁
    rw [List.getD, hr', Option.getD_some, hreal'] at h₂
    rw [Bool.not_eq_true'] at h₁ h₂
    rw [h₁, h₂]

/-! ## Groups -/

def ReadOpGroup.chunks {α : Type} (g : ReadOpGroup) (chunkPlans : List α) : List α :=
  (chunkPlans.drop g.firstChunk).take g.nChunks

structure GroupSpec (maxChunks : ℕ) (chunkPlans : List ChunkPlan) (g : ReadOpGroup) : Prop where
  pos : 0 < g.nChunks
  le : g.nChunks ≤ maxChunks
  total : g.totalDecompressed = ((g.chunks chunkPlans).map ChunkPlan.decompressedNbytes).sum
  index : ∀ cp ∈ g.chunks chunkPlans, cp.readOpIdx = g.readOpIdx

/-- The groups follow each other, from the first to the last of `n` chunk plans. -/
structure Tiles (groups : List ReadOpGroup) (n : ℕ) : Prop where
  sum : (groups.map ReadOpGroup.nChunks).sum = n
  first : ∀ j (hj : j < groups.length),
    groups[j].firstChunk = Packing.start (groups.map ReadOpGroup.nChunks) j

/-- The groups of a dispatched plan tile its chunk plans. -/
structure ReadGroups (maxChunks : ℕ) (out : DispatchOutput) : Prop where
  chunks_lt : out.chunkPlans.length < 2 ^ 32
  held : HeldChunks maxChunks out.readOps out.chunkPlans
  tiles : Tiles out.readOpGroups out.chunkPlans.length
  group : ∀ g ∈ out.readOpGroups, GroupSpec maxChunks out.chunkPlans g

theorem sum_u32_lt {α : Type} {l : List α} {f : α → ℕ} (hlen : l.length < 2 ^ 32)
    (hlt : ∀ x ∈ l, f x < 2 ^ 32) : (l.map f).sum < 2 ^ 64 := by
  have hle : (l.map f).sum ≤ (l.map f).length • (2 ^ 32 - 1) := by
    apply sum_le_card_nsmul
    intro n hn
    obtain ⟨x, hx, rfl⟩ := mem_map.mp hn
    have := hlt x hx
    omega
  rw [length_map, smul_eq_mul] at hle
  omega

theorem foldl_u64_add {l : List ChunkPlan} (hlen : l.length < 2 ^ 32)
    (hlt : ∀ cp ∈ l, cp.decompressedNbytes < 2 ^ 32) :
    l.foldl (fun n cp => u64 (n + cp.decompressedNbytes)) 0 =
      (l.map ChunkPlan.decompressedNbytes).sum := by
  have hsum : (l.map ChunkPlan.decompressedNbytes).sum < 2 ^ 64 := sum_u32_lt hlen hlt
  suffices H : ∀ (todo done : List ChunkPlan), l = done ++ todo →
      todo.foldl (fun n cp => u64 (n + cp.decompressedNbytes))
        (done.map ChunkPlan.decompressedNbytes).sum = (l.map ChunkPlan.decompressedNbytes).sum from
    H l [] rfl
  intro todo
  induction todo with
  | nil =>
    intro done hl
    rw [foldl_nil, hl, append_nil]
  | cons cp todo ih =>
    intro done hl
    have hpre : (done.map ChunkPlan.decompressedNbytes).sum + cp.decompressedNbytes ≤
        (l.map ChunkPlan.decompressedNbytes).sum := by
      rw [hl, map_append, sum_append, map_cons, sum_cons]
      omega
    have hnext := ih (done ++ [cp]) (by rw [hl, append_assoc]; rfl)
    rw [foldl_cons, u64_of_lt (by omega)]
    rwa [map_append, sum_append, map_singleton, sum_singleton] at hnext

/-- The groups of sorted chunk plans that are cut at `cut 0, cut 1, …`. -/
def cutGroups (cut : ℕ → ℕ) (sorted : List ChunkPlan) (R : ℕ) : List ReadOpGroup :=
  (List.range R).filterMap fun r =>
    if cut r = cut (r + 1) then none
    else some
      { readOpIdx := r
        firstChunk := cut r
        nChunks := cut (r + 1) - cut r
        totalDecompressed := ((sorted.drop (cut r)).take (cut (r + 1) - cut r)).foldl
          (fun n cp => u64 (n + cp.decompressedNbytes)) 0 }

theorem cutGroups_congr {cut cut' : ℕ → ℕ} {R : ℕ} (h : ∀ r ≤ R, cut r = cut' r)
    (sorted : List ChunkPlan) : cutGroups cut sorted R = cutGroups cut' sorted R := by
  apply filterMap_congr
  intro r hr
  rw [mem_range] at hr
  rw [h r hr.le, h (r + 1) hr]

theorem mem_cutGroups {cut : ℕ → ℕ} {sorted : List ChunkPlan} {R : ℕ} {g : ReadOpGroup}
    (h : g ∈ cutGroups cut sorted R) : g.readOpIdx < R ∧ g.firstChunk = cut g.readOpIdx ∧
      g.nChunks = cut (g.readOpIdx + 1) - cut g.readOpIdx ∧
      cut g.readOpIdx ≠ cut (g.readOpIdx + 1) ∧ g.totalDecompressed = (g.chunks sorted).foldl
        (fun n cp => u64 (n + cp.decompressedNbytes)) 0 := by
  obtain ⟨r, hr, hg⟩ := mem_filterMap.mp h
  rw [mem_range] at hr
  split at hg
  · cases hg
  · rename_i hne
    obtain rfl := Option.some.inj hg
    exact ⟨hr, rfl, rfl, hne, rfl⟩

theorem Tiles.append {groups : List ReadOpGroup} {n : ℕ} {g : ReadOpGroup} (h : Tiles groups n)
    (hfirst : g.firstChunk = n) : Tiles (groups ++ [g]) (n + g.nChunks) := by
  refine ⟨by simp [h.sum], fun j hj => ?_⟩
  rw [length_append, length_singleton] at hj
  have hj' : j ≤ (groups.map ReadOpGroup.nChunks).length := by
    rw [length_map]
    omega
  rw [map_append, Packing.start_append_left _ hj']
  by_cases hlt : j < groups.length
  · rw [getElem_append_left hlt, h.first j hlt]
  · obtain rfl : j = groups.length := by omega
    rw [getElem_concat_length rfl, hfirst, ← h.sum,
      ← length_map (f := ReadOpGroup.nChunks), Packing.start_length]

theorem cutGroups_tiles {cut : ℕ → ℕ} (hzero : cut 0 = 0) (hmono : ∀ r, cut r ≤ cut (r + 1))
    (sorted : List ChunkPlan) (R : ℕ) : Tiles (cutGroups cut sorted R) (cut R) := by
  induction R with
  | zero => exact ⟨by simp [cutGroups, hzero], by simp [cutGroups]⟩
  | succ R ih =>
    by_cases heq : cut R = cut (R + 1)
    · have hsucc : cutGroups cut sorted (R + 1) = cutGroups cut sorted R := by
        simp [cutGroups, range_succ, heq]
      rwa [hsucc, ← heq]
    · obtain ⟨g, hfirst, hcount, hsucc⟩ : ∃ g : ReadOpGroup, g.firstChunk = cut R ∧
          g.nChunks = cut (R + 1) - cut R ∧
          cutGroups cut sorted (R + 1) = cutGroups cut sorted R ++ [g] := by
        rw [cutGroups, range_succ, filterMap_append, filterMap_cons, if_neg heq]
        exact ⟨_, rfl, rfl, rfl⟩
      have happ := ih.append hfirst
      rwa [← hsucc, hcount, Nat.add_sub_of_le (hmono R)] at happ

theorem HeldChunks.perm {readOps : List ReadOp} {cps cps' : List ChunkPlan}
    (h : HeldChunks maxChunks readOps cps) (hperm : cps'.Perm cps) :
    HeldChunks maxChunks readOps cps' where
  decompressed_lt cp hcp := h.decompressed_lt cp (hperm.mem_iff.mp hcp)
  read cp hcp := h.read cp (hperm.mem_iff.mp hcp)
  count_le m := (hperm.countP_eq _).trans_le (h.count_le m)
  fill cp hcp cp' hcp' := h.fill cp (hperm.mem_iff.mp hcp) cp' (hperm.mem_iff.mp hcp')

/-- The chunk plans of `groupChunksByRead`, sorted. With fewer than two nothing is moved, and one
chunk plan is sorted already. -/
theorem sorted_chunkPlans {cps : List ChunkPlan} {R : ℕ} (hkeys : ∀ cp ∈ cps, cp.readOpIdx < R) :
    (if 2 ≤ cps.length then (CountingSort.scatterByKey ChunkPlan.readOpIdx
      (CountingSort.addUp R (CountingSort.countKeys ChunkPlan.readOpIdx R cps)) cps cps).2
      else cps) = CountingSort.grouped ChunkPlan.readOpIdx R cps := by
  split
  · exact CountingSort.scatterByKey_eq _ hkeys rfl
  · rename_i hshort
    have hperm := CountingSort.grouped_perm ChunkPlan.readOpIdx hkeys
    match cps, hshort with
    | [], _ => simp [CountingSort.grouped]
    | [cp], _ => exact (perm_singleton.mp hperm).symm
    | _ :: _ :: _, hshort => exact absurd (by simp) hshort

/-- What `group_chunks_by_read` leaves behind. -/
def groupedOutput (out : DispatchOutput) : DispatchOutput :=
  let sorted := CountingSort.grouped ChunkPlan.readOpIdx out.readOps.length out.chunkPlans
  { out with
    chunkPlans := sorted
    readOpGroups := cutGroups (CountingSort.start ChunkPlan.readOpIdx out.chunkPlans) sorted
      out.readOps.length }

theorem groupedOutput_of_empty {out : DispatchOutput}
    (hkeys : ∀ cp ∈ out.chunkPlans, cp.readOpIdx < out.readOps.length)
    (hempty : out.chunkPlans.length = 0 ∨ out.readOps.length = 0) :
    groupedOutput out = { out with readOpGroups := [] } := by
  have hnil : out.chunkPlans = [] := by
    rw [eq_nil_iff_forall_not_mem]
    intro cp hcp
    have := hkeys cp hcp
    have := length_pos_of_mem hcp
    omega
  have hgroups : (groupedOutput out).readOpGroups = [] := by
    simp [groupedOutput, cutGroups, hnil, CountingSort.start]
  have hsorted : (groupedOutput out).chunkPlans = out.chunkPlans := by
    simp [groupedOutput, hnil, CountingSort.grouped]
  rw [← hgroups, ← hsorted]
  rfl

theorem groupChunksByRead_eq {out : DispatchOutput}
    (hkeys : ∀ cp ∈ out.chunkPlans, cp.readOpIdx < out.readOps.length)
    (hcaps : caps.groupsPresent = true ∧ out.readOps.length ≤ caps.readOpGroups) :
    groupChunksByRead caps out = .ok (groupedOutput out) := by
  unfold groupChunksByRead
  dsimp only
  split
  · rename_i hempty
    rw [groupedOutput_of_empty hkeys hempty]
  · have hok : ¬ (caps.groupsPresent = false ∨ caps.readOpGroups < out.readOps.length) := by
      simp [hcaps]
    have hin : ¬ ∃ cp ∈ out.chunkPlans, out.readOps.length ≤ cp.readOpIdx := by
      push Not
      exact hkeys
    have hhead : ∀ r ≤ out.readOps.length, (CountingSort.addUp out.readOps.length
        (CountingSort.countKeys ChunkPlan.readOpIdx out.readOps.length out.chunkPlans)).getD r 0 =
          CountingSort.start ChunkPlan.readOpIdx out.chunkPlans r := by
      intro r hr
      rw [List.getD, CountingSort.addUp_countKeys _ hr, Option.getD_some]
    rw [groupedOutput, ← cutGroups_congr hhead]
    simp only [failIf, if_neg hok, if_neg hin, sorted_chunkPlans hkeys]
    rfl

theorem groupChunksByRead_ok {out out' : DispatchOutput}
    (hkeys : ∀ cp ∈ out.chunkPlans, cp.readOpIdx < out.readOps.length)
    (hout : groupChunksByRead caps out = .ok out') : out' = groupedOutput out := by
  by_cases hempty : out.chunkPlans.length = 0 ∨ out.readOps.length = 0
  · simp only [groupChunksByRead, if_pos hempty] at hout
    rw [groupedOutput_of_empty hkeys hempty, Except.ok.inj hout]
  · have hcaps := hout
    simp only [groupChunksByRead, if_neg hempty, bind_eq_ok, failIf_eq_ok, exists_const] at hcaps
    have hpresent := hcaps.1
    rw [not_or, Bool.not_eq_false, not_lt] at hpresent
    rw [groupChunksByRead_eq hkeys hpresent] at hout
    exact (Except.ok.inj hout).symm

theorem mem_groupedOutput {out : DispatchOutput} {g : ReadOpGroup}
    (hg : g ∈ (groupedOutput out).readOpGroups) : g.readOpIdx < out.readOps.length ∧
      g.chunks (groupedOutput out).chunkPlans =
        out.chunkPlans.filter (fun cp => cp.readOpIdx == g.readOpIdx) ∧
      g.nChunks = out.chunkPlans.countP (fun cp => cp.readOpIdx == g.readOpIdx) ∧
      0 < g.nChunks ∧ g.totalDecompressed = (g.chunks (groupedOutput out).chunkPlans).foldl
        (fun n cp => u64 (n + cp.decompressedNbytes)) 0 := by
  obtain ⟨hr, hfirst, hcount, hne, htotal⟩ := mem_cutGroups hg
  have hmono := CountingSort.start_mono ChunkPlan.readOpIdx out.chunkPlans
    (Nat.le_succ g.readOpIdx)
  refine ⟨hr, ?_, ?_, ?_, htotal⟩
  · rw [ReadOpGroup.chunks, hfirst, hcount]
    exact CountingSort.grouped_range _ hr out.chunkPlans
  · rw [hcount, CountingSort.start_succ, Nat.add_sub_cancel_left, countP_eq_length_filter]
  · rw [hcount]
    exact Nat.sub_pos_of_lt (lt_of_le_of_ne hmono hne)

theorem groupedOutput_tiles (out : DispatchOutput) :
    Tiles (groupedOutput out).readOpGroups (groupedOutput out).chunkPlans.length := by
  have htiles := cutGroups_tiles (CountingSort.start_zero ChunkPlan.readOpIdx out.chunkPlans)
    (fun r => CountingSort.start_mono _ _ (Nat.le_succ r)) (groupedOutput out).chunkPlans
    out.readOps.length
  rwa [← CountingSort.length_grouped] at htiles

theorem total_groupedOutput {out : DispatchOutput} (hlt : out.chunkPlans.length < 2 ^ 32)
    (hsizes : ∀ cp ∈ out.chunkPlans, cp.decompressedNbytes < 2 ^ 32) {g : ReadOpGroup}
    (hg : g ∈ (groupedOutput out).readOpGroups) : g.totalDecompressed =
      ((g.chunks (groupedOutput out).chunkPlans).map ChunkPlan.decompressedNbytes).sum := by
  obtain ⟨-, hchunks, -, -, htotal⟩ := mem_groupedOutput hg
  rw [htotal]
  refine foldl_u64_add ?_ fun cp hcp => ?_
  · rw [hchunks]
    exact (length_filter_le _ _).trans_lt hlt
  · rw [hchunks] at hcp
    exact hsizes cp (mem_filter.mp hcp).1

theorem HeldChunks.index_lt {readOps : List ReadOp} {cps : List ChunkPlan}
    (h : HeldChunks maxChunks readOps cps) : ∀ cp ∈ cps, cp.readOpIdx < readOps.length := by
  intro cp hcp
  obtain ⟨r, hr, -⟩ := h.read cp hcp
  exact (List.getElem?_eq_some_iff.mp hr).1

theorem groupedOutput_groups {out : DispatchOutput} (hlt : out.chunkPlans.length < 2 ^ 32)
    (hheld : HeldChunks maxChunks out.readOps out.chunkPlans) :
    ReadGroups maxChunks (groupedOutput out) := by
  have hperm : (groupedOutput out).chunkPlans.Perm out.chunkPlans :=
    CountingSort.grouped_perm _ hheld.index_lt
  refine ⟨hperm.length_eq.trans_lt hlt, hheld.perm hperm, groupedOutput_tiles out,
    fun g hg => ?_⟩
  obtain ⟨-, hchunks, hcount, hpos, -⟩ := mem_groupedOutput hg
  refine ⟨hpos, hcount.trans_le (hheld.count_le _),
    total_groupedOutput hlt hheld.decompressed_lt hg, fun cp hcp => ?_⟩
  rw [hchunks] at hcp
  exact eq_of_beq (mem_filter.mp hcp).2

/-- The chunk plans of `out'` are those of `out` grouped by their read. -/
structure GroupedByRead (out out' : DispatchOutput) : Prop where
  /-- Only the order of the chunk plans and the groups change. -/
  frame : out' = { out with chunkPlans := out'.chunkPlans, readOpGroups := out'.readOpGroups }
  perm : out'.chunkPlans.Perm out.chunkPlans
  sorted : out'.chunkPlans.Pairwise fun a b => a.readOpIdx ≤ b.readOpIdx
  /-- Chunk plans of one read keep their order. -/
  stable : ∀ r, out'.chunkPlans.filter (fun cp => cp.readOpIdx == r) =
    out.chunkPlans.filter fun cp => cp.readOpIdx == r
  /-- The reads with a chunk have a group each, in the order of the reads. -/
  groups : out'.readOpGroups.map ReadOpGroup.readOpIdx =
    (List.range out.readOps.length).filter fun r => out.chunkPlans.any fun cp => cp.readOpIdx == r
  tiles : Tiles out'.readOpGroups out'.chunkPlans.length
  pos : ∀ g ∈ out'.readOpGroups, 0 < g.nChunks
  index : ∀ g ∈ out'.readOpGroups, ∀ cp ∈ g.chunks out'.chunkPlans, cp.readOpIdx = g.readOpIdx
  total : ∀ g ∈ out'.readOpGroups, g.totalDecompressed =
    ((g.chunks out'.chunkPlans).map ChunkPlan.decompressedNbytes).sum

theorem groupedOutput_readOpIdx (out : DispatchOutput) :
    (groupedOutput out).readOpGroups.map ReadOpGroup.readOpIdx =
      (List.range out.readOps.length).filter fun r =>
        out.chunkPlans.any fun cp => cp.readOpIdx == r := by
  show (cutGroups _ _ _).map _ = _
  rw [cutGroups, map_filterMap, ← filterMap_eq_filter]
  apply filterMap_congr
  intro r _
  rw [CountingSort.start_succ]
  -- the range of a read is empty exactly when no chunk plan has it
  by_cases hany : (out.chunkPlans.any fun cp => cp.readOpIdx == r) = true
  · obtain ⟨cp, hcp, hidx⟩ := any_eq_true.mp hany
    have hpos : 0 < (out.chunkPlans.filter fun cp => cp.readOpIdx == r).length :=
      length_pos_of_mem (mem_filter.mpr ⟨hcp, hidx⟩)
    rw [if_neg (by omega), Option.guard, if_pos hany]
    rfl
  · have hnil : (out.chunkPlans.filter fun cp => cp.readOpIdx == r) = [] := by
      rw [filter_eq_nil_iff]
      intro cp hcp hidx
      exact hany (any_eq_true.mpr ⟨cp, hcp, hidx⟩)
    rw [hnil, length_nil, Nat.add_zero, if_pos rfl, Option.guard, if_neg hany]
    rfl

/-- **`group_chunks_by_read` is a stable counting sort with a group for every read in use.** The
number of chunk plans and their sizes are `uint32_t`s. -/
theorem groupChunksByRead_grouped {out : DispatchOutput}
    (hkeys : ∀ cp ∈ out.chunkPlans, cp.readOpIdx < out.readOps.length)
    (hcaps : caps.groupsPresent = true ∧ out.readOps.length ≤ caps.readOpGroups)
    (hlt : out.chunkPlans.length < 2 ^ 32)
    (hsizes : ∀ cp ∈ out.chunkPlans, cp.decompressedNbytes < 2 ^ 32) :
    ∃ out', groupChunksByRead caps out = .ok out' ∧ GroupedByRead out out' := by
  refine ⟨groupedOutput out, groupChunksByRead_eq hkeys hcaps, ?_⟩
  constructor
  · rfl
  · exact CountingSort.grouped_perm _ hkeys
  · exact CountingSort.pairwise_grouped _ _ _
  · intro r
    rw [groupedOutput, CountingSort.filter_grouped]
    split
    · rfl
    · rename_i hr
      symm
      rw [filter_eq_nil_iff]
      intro cp hcp hidx
      exact hr (eq_of_beq hidx ▸ hkeys cp hcp)
  · exact groupedOutput_readOpIdx out
  · exact groupedOutput_tiles out
  · exact fun g hg => (mem_groupedOutput hg).2.2.2.1
  · intro g hg cp hcp
    rw [(mem_groupedOutput hg).2.1] at hcp
    exact eq_of_beq (mem_filter.mp hcp).2
  · exact fun g hg => total_groupedOutput hlt hsizes hg

def swappedOutput : DispatchOutput where
  readOps := [⟨some [97], 0, 8⟩, ⟨some [97], 16, 8⟩, ⟨some [98], 0, 8⟩]
  chunkPlans := [2, 0, 2].map fun r => ⟨r, 0, 4, 9, 0, 0, 0, .none, false, [1]⟩
  samplePlans := []
  readOpGroups := []
  indices := []
  gatherDims := []
  nChunksToLoad := 3
  nLoadsIssued := 3

def swappedCaps : DispatchCaps where
  chunkPlans := 3
  readOps := 3
  samplePlans := 1
  readOpGroups := 3
  groupsPresent := true
  indices := 0
  indicesPresent := true
  gatherDims := 0

theorem groupChunksByRead_grouped_swapped :
    ∃ out', groupChunksByRead swappedCaps swappedOutput = .ok out' ∧
      GroupedByRead swappedOutput out' ∧ out'.readOpGroups = [⟨0, 0, 1, 9⟩, ⟨2, 1, 2, 18⟩] := by
  obtain ⟨out', hout, hgrouped⟩ := groupChunksByRead_grouped (show ∀ cp ∈ swappedOutput.chunkPlans,
      cp.readOpIdx < swappedOutput.readOps.length by decide)
    (show swappedCaps.groupsPresent = true ∧ 3 ≤ swappedCaps.readOpGroups by decide)
    (by decide) (by decide)
  refine ⟨out', hout, hgrouped, ?_⟩
  have hgroups : (groupChunksByRead swappedCaps swappedOutput).toOption.map
      DispatchOutput.readOpGroups = some [⟨0, 0, 1, 9⟩, ⟨2, 1, 2, 18⟩] := by decide +kernel
  rw [hout] at hgroups
  exact Option.some.inj hgroups

/-- The parts of a dispatched plan: the reads of the uses are merged, the chunk plans follow them,
and then they are grouped. -/
structure DispatchParts (plan : PreparedPlan) (args : DispatchArgs) (reads : List ReadOp)
    (mid out : DispatchOutput) : Prop where
  maxChunks_pos : 0 < args.maxChunksPerWave
  length_reads : reads.length = plan.uses.length
  fits : ∀ r ∈ reads, r.Fits
  readOps : mid.readOps = (coalesceReads reads args.maxReadBytes args.maxChunksPerWave).reads
  length_chunkPlans : mid.chunkPlans.length = plan.uses.length
  chunk : ∀ (i : ℕ) cp, mid.chunkPlans[i]? = some cp → MergedChunk plan args.alignment reads
    (coalesceReads reads args.maxReadBytes args.maxChunksPerWave) i cp
  held : HeldChunks args.maxChunksPerWave mid.readOps mid.chunkPlans
  grouped : out = groupedOutput mid

theorem dispatchPlanBuild_parts {args : DispatchArgs} {out : DispatchOutput}
    (hsizes : PlanSizes plan) (h : dispatchPlanBuild mem plan args caps = .ok out) :
    ∃ reads mid, DispatchParts plan args reads mid out := by
  simp only [dispatchPlanBuild, bind_eq_ok, failIf_eq_ok, exists_const] at h
  obtain ⟨hargs, -, samples, -, uses, huses, -, merged, hmerged, hgroup⟩ := h
  have hmax : 0 < args.maxChunksPerWave := Nat.pos_of_ne_zero fun h0 => hargs (.inr h0)
  obtain ⟨hreads, hcps, huse⟩ := foldlM_dispatchUse_reads
    (Nat.pos_of_ne_zero fun h0 => hargs (.inl h0)) args.alignment_lt hsizes huses
  have hlen := hreads.trans hcps.symm
  obtain ⟨hops, hlen', hchunk⟩ := coalesceChunks_merged hmax hlen huse hmerged
  have hheld := coalesceChunks_held hmax hlen huse hmerged
  exact ⟨uses.reads, merged, hmax, hreads, useReads_fit hlen huse, hops, hlen'.trans hcps, hchunk,
    hheld, groupChunksByRead_ok hheld.index_lt hgroup⟩

/-- **The groups of a dispatched plan**: they tile the chunk plans, and each is the chunks of one
read that covers them. -/
theorem dispatchPlanBuild_groups {args : DispatchArgs} {out : DispatchOutput}
    (hsizes : PlanSizes plan) (h : dispatchPlanBuild mem plan args caps = .ok out) :
    ReadGroups args.maxChunksPerWave out := by
  obtain ⟨reads, mid, hparts⟩ := dispatchPlanBuild_parts hsizes h
  rw [hparts.grouped]
  exact groupedOutput_groups (hparts.length_chunkPlans.trans_lt hsizes.uses_lt) hparts.held

end Uses

end Damacy

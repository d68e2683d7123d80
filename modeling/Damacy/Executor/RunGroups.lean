import Damacy.Executor.ReadGroups
import Damacy.Executor.ReadRuns

/-!
# The groups of a dispatched plan, told from the plan

A read group is made by merging and by grouping. This module says which groups a plan has without
running either: one for every run of uses whose pages can be read at once, and one for every use of
a missing chunk (`dispatchPlanBuild_runs`).
-/

open List ExceptFold

namespace Damacy

/-- The bytes of the input buffer that a group of a dispatched plan takes. -/
def DispatchOutput.groupInput (out : DispatchOutput) (g : ReadOpGroup) : ℕ :=
  if out.chunkPlans[g.firstChunk]?.elim false ChunkPlan.isFill then 0
  else (out.readOps.getD g.readOpIdx ReadOp.blank).nbytes

def PreparedPlan.useReads (plan : PreparedPlan) (alignment : ℕ) : List ReadOp :=
  (List.range plan.uses.length).map fun i =>
    (plan.useChunk i).elim ReadOp.blank (PlanChunk.readOp alignment)

def PreparedPlan.decodedBytes (plan : PreparedPlan) (uses : List ℕ) : ℕ :=
  (uses.map fun i => (plan.useChunk i).elim 0 PlanChunk.decodedBytes).sum

section RunGroups

variable {plan : PreparedPlan} {args : DispatchArgs} {reads : List ReadOp}
  {mid out : DispatchOutput} {g : ReadOpGroup} {i : ℕ}

def mergedReads (args : DispatchArgs) (reads : List ReadOp) : Coalesced :=
  coalesceReads reads args.maxReadBytes args.maxChunksPerWave

theorem DispatchParts.chunkAt (h : DispatchParts plan args reads mid out)
    (hi : i < plan.uses.length) : ∃ cp, mid.chunkPlans[i]? = some cp ∧
      MergedChunk plan args.alignment reads (mergedReads args reads) i cp := by
  have hlt : i < mid.chunkPlans.length := h.length_chunkPlans.symm ▸ hi
  exact ⟨_, getElem?_eq_getElem hlt, h.chunk i _ (getElem?_eq_getElem hlt)⟩

theorem DispatchParts.reads_eq (h : DispatchParts plan args reads mid out) :
    reads = plan.useReads args.alignment := by
  apply ext_getElem?
  intro i
  rw [PreparedPlan.useReads, getElem?_map]
  by_cases hi : i < plan.uses.length
  · obtain ⟨-, -, cp, -, -, -, huse, -⟩ := h.chunkAt hi
    obtain ⟨chunk, hchunk, hread, -⟩ := huse.chunk
    rw [getElem?_range hi, Option.map_some, hchunk, hread]
    rfl
  · rw [getElem?_eq_none (by rw [h.length_reads]; omega),
      getElem?_eq_none (by rw [length_range]; omega), Option.map_none]

theorem DispatchParts.isReal_eq (h : DispatchParts plan args reads mid out) {chunk : PlanChunk}
    (hi : i < plan.uses.length) (hchunk : plan.useChunk i = some chunk) :
    (reads.getD i ReadOp.blank).isReal = !chunk.missing ∧
      reads.getD i ReadOp.blank = chunk.readOp args.alignment := by
  obtain ⟨-, -, cp, -, -, -, huse, -⟩ := h.chunkAt hi
  obtain ⟨read, hread, -, hreal, -⟩ := huse.read
  obtain ⟨chunk', hchunk', hread', hfill, -⟩ := huse.chunk
  obtain rfl := Option.some.inj (hchunk.symm.trans hchunk')
  rw [hread, Option.some.injEq] at hread'
  rw [List.getD, hread, Option.getD_some]
  exact ⟨hreal.trans (by rw [hfill]), hread'⟩

theorem DispatchParts.readOps_eq (h : DispatchParts plan args reads mid out) :
    out.readOps = (mergedReads args reads).reads := by
  rw [h.grouped]
  exact h.readOps

theorem DispatchParts.mem_groups (h : DispatchParts plan args reads mid out)
    (hg : g ∈ out.readOpGroups) : g ∈ (groupedOutput mid).readOpGroups := h.grouped ▸ hg

theorem DispatchParts.exists_group (h : DispatchParts plan args reads mid out)
    (hi : i < plan.uses.length) :
    ∃ g ∈ out.readOpGroups, (mergedReads args reads).readIndex[i]? = some g.readOpIdx := by
  obtain ⟨cp', hcp', cp, m, o, r, -, hm, hr, -, -, rfl⟩ := h.chunkAt hi
  have hlt : m < mid.readOps.length := h.readOps ▸ (List.getElem?_eq_some_iff.mp hr).1
  have hmem : m ∈ (groupedOutput mid).readOpGroups.map ReadOpGroup.readOpIdx := by
    rw [groupedOutput_readOpIdx, mem_filter, mem_range, any_eq_true]
    exact ⟨hlt, _, mem_of_getElem? hcp', beq_self_eq_true m⟩
  obtain ⟨g, hg, rfl⟩ := mem_map.mp hmem
  exact ⟨g, h.grouped ▸ hg, hm⟩

theorem DispatchParts.exists_use (h : DispatchParts plan args reads mid out)
    (hg : g ∈ out.readOpGroups) :
    ∃ i < plan.uses.length, (mergedReads args reads).readIndex[i]? = some g.readOpIdx := by
  obtain ⟨-, -, hcount, hpos, -⟩ := mem_groupedOutput (h.mem_groups hg)
  rw [hcount, countP_pos_iff] at hpos
  obtain ⟨cp', hcp', hidx⟩ := hpos
  obtain ⟨i, hi, rfl⟩ := getElem_of_mem hcp'
  obtain ⟨cp, m, o, r, -, hm, -, -, -, heq⟩ := h.chunk i _ (getElem?_eq_getElem hi)
  rw [heq] at hidx
  exact ⟨i, h.length_chunkPlans ▸ hi, by rw [← eq_of_beq hidx]; exact hm⟩

theorem DispatchParts.total_eq (h : DispatchParts plan args reads mid out)
    (hlt : plan.uses.length < 2 ^ 32) (hg : g ∈ out.readOpGroups) {members : List ℕ}
    (hnodup : members.Nodup) (hmembers : ∀ i, i ∈ members ↔ i < plan.uses.length ∧
      (mergedReads args reads).readIndex[i]? = some g.readOpIdx) :
    g.totalDecompressed = plan.decodedBytes members := by
  set decoded := fun i => (plan.useChunk i).elim 0 PlanChunk.decodedBytes
  -- read off each chunk plan what the sum needs: the merged read and the size
  have hpairs : mid.chunkPlans.map (fun cp => (some cp.readOpIdx, cp.decompressedNbytes)) =
      (List.range plan.uses.length).map fun i =>
        ((mergedReads args reads).readIndex[i]?, decoded i) := by
    apply ext_getElem
    · rw [length_map, length_map, length_range, h.length_chunkPlans]
    · intro i h1 h2
      rw [length_map] at h1
      obtain ⟨cp, m, o, r, huse, hm, -, -, -, heq⟩ := h.chunk i _ (getElem?_eq_getElem h1)
      obtain ⟨chunk, hchunk, -, -, hdecoded⟩ := huse.chunk
      rw [getElem_map, getElem_map, getElem_range]
      simp only [heq, decoded, hchunk, Option.elim_some, hdecoded]
      exact congrArg (·, _) hm.symm
  obtain ⟨-, hchunks, -, -, -⟩ := mem_groupedOutput (h.mem_groups hg)
  have hperm : ((List.range plan.uses.length).filter fun i =>
      (mergedReads args reads).readIndex[i]? == some g.readOpIdx).Perm members := by
    rw [perm_ext_iff_of_nodup (nodup_range.filter _) hnodup]
    intro i
    rw [hmembers, mem_filter, mem_range, beq_iff_eq]
  calc g.totalDecompressed
      = ((g.chunks (groupedOutput mid).chunkPlans).map ChunkPlan.decompressedNbytes).sum :=
        total_groupedOutput (h.length_chunkPlans.trans_lt hlt) h.held.decompressed_lt
          (h.mem_groups hg)
    _ = (((mid.chunkPlans.map fun cp => (some cp.readOpIdx, cp.decompressedNbytes)).filter
          fun x => x.1 == some g.readOpIdx).map Prod.snd).sum := by
        rw [hchunks, filter_map, map_map]
        simp only [Function.comp_def, Option.some_beq_some]
    _ = (((List.range plan.uses.length).filter fun i =>
          (mergedReads args reads).readIndex[i]? == some g.readOpIdx).map decoded).sum := by
        rw [hpairs, filter_map, map_map]
        rfl
    _ = plan.decodedBytes members := (hperm.map decoded).sum_eq

theorem DispatchParts.first_chunk (h : DispatchParts plan args reads mid out)
    (hg : g ∈ out.readOpGroups) : ∃ first ∈ mid.chunkPlans,
      out.chunkPlans[g.firstChunk]? = some first ∧ first.readOpIdx = g.readOpIdx := by
  obtain ⟨-, hchunks, hcount, hpos, -⟩ := mem_groupedOutput (h.mem_groups hg)
  rw [← h.grouped] at hchunks
  have hhead : (g.chunks out.chunkPlans)[0]? = out.chunkPlans[g.firstChunk]? := by
    rw [ReadOpGroup.chunks, getElem?_take_of_lt hpos, getElem?_drop, Nat.add_zero]
  have hlen : 0 < (g.chunks out.chunkPlans).length := by
    rwa [hchunks, ← countP_eq_length_filter, ← hcount]
  have hmem : (g.chunks out.chunkPlans)[0] ∈
      mid.chunkPlans.filter fun cp => cp.readOpIdx == g.readOpIdx := hchunks ▸ getElem_mem hlen
  obtain ⟨hmem, hidx⟩ := mem_filter.mp hmem
  exact ⟨_, hmem, by rw [← hhead, getElem?_eq_getElem hlen], eq_of_beq hidx⟩

theorem DispatchParts.groupInput_eq (h : DispatchParts plan args reads mid out)
    (hg : g ∈ out.readOpGroups) (hi : i < plan.uses.length)
    (hindex : (mergedReads args reads).readIndex[i]? = some g.readOpIdx) :
    out.groupInput g = if (reads.getD i ReadOp.blank).isReal then
      ((mergedReads args reads).reads.getD g.readOpIdx ReadOp.blank).nbytes else 0 := by
  obtain ⟨first, hfirst, hget, hidx⟩ := h.first_chunk hg
  obtain ⟨cp', hcp', cp, m, o, r, huse, hm, -, -, -, rfl⟩ := h.chunkAt hi
  obtain rfl : m = g.readOpIdx := Option.some.inj (hm.symm.trans hindex)
  -- the chunk plans of one merged read are all stored or all missing
  have hsame := h.held.fill first hfirst _ (mem_of_getElem? hcp') hidx
  have hfill : first.isFill = cp.isFill := hsame
  obtain ⟨read, hread, -, hreal, -⟩ := huse.read
  have hgetD : reads.getD i ReadOp.blank = read := by rw [List.getD, hread, Option.getD_some]
  rw [DispatchOutput.groupInput, hget, Option.elim_some, hfill, h.readOps_eq, hgetD, hreal]
  cases cp.isFill <;> rfl

/-! ## Groups and runs -/

/-- What dispatch makes of the uses of a plan, which are merged in `runs`. -/
structure GroupsOfRuns (plan : PreparedPlan) (alignment : ℕ) (runs : List (List ℕ))
    (out : DispatchOutput) : Prop where
  /-- A group is a run, or a use of a missing chunk. -/
  group : ∀ g ∈ out.readOpGroups,
    (∃ run ∈ runs, out.groupInput g = (spanOf (runReads (plan.useReads alignment) run)).nbytes ∧
      g.totalDecompressed = plan.decodedBytes run) ∨
    ∃ i < plan.uses.length, out.groupInput g = 0 ∧ g.totalDecompressed = plan.decodedBytes [i]
  /-- Every run has a group. -/
  run : ∀ run ∈ runs, ∃ g ∈ out.readOpGroups,
    out.groupInput g = (spanOf (runReads (plan.useReads alignment) run)).nbytes ∧
      g.totalDecompressed = plan.decodedBytes run

theorem DispatchParts.run_group {runs : List (List ℕ)} {pos : ℕ → ℕ} {k : ℕ} {run : List ℕ}
    (h : DispatchParts plan args reads mid out) (hlt : plan.uses.length < 2 ^ 32)
    (hruns : ReadRuns reads args.maxReadBytes args.maxChunksPerWave runs)
    (hplaced : RunsPlaced reads runs pos (mergedReads args reads)) (hrun : runs[k]? = some run)
    (hg : g ∈ out.readOpGroups) (hi : i ∈ run)
    (hindex : (mergedReads args reads).readIndex[i]? = some g.readOpIdx) :
    out.groupInput g = (spanOf (runReads reads run)).nbytes ∧
      g.totalDecompressed = plan.decodedBytes run := by
  have hsub {j : ℕ} (hj : j ∈ run) : j ∈ runs.flatten :=
    mem_flatten.mpr ⟨run, mem_of_getElem? hrun, hj⟩
  have hlen {j : ℕ} (hj : j ∈ run) : j < reads.length := ((hruns.stored j).mp (hsub hj)).1
  have hpos : g.readOpIdx = pos k :=
    Option.some.inj (hindex.symm.trans ((hplaced.members k run hrun i (hlen hi)).mpr hi))
  constructor
  · rw [h.groupInput_eq hg (h.length_reads ▸ hlen hi) hindex,
      if_pos ((hruns.stored i).mp (hsub hi)).2, hpos, List.getD, hplaced.read k run hrun]
    rfl
  · have hnodup : runs.flatten.Nodup := hruns.sorted.imp fun hij heq =>
      absurd (heq ▸ hij) (lt_irrefl _)
    refine h.total_eq hlt hg
      (hnodup.sublist (sublist_flatten_of_mem (mem_of_getElem? hrun))) fun j => ?_
    rw [hpos, ← h.length_reads]
    exact ⟨fun hj => ⟨hlen hj, (hplaced.members k run hrun j (hlen hj)).mpr hj⟩,
      fun ⟨hj, hidx⟩ => (hplaced.members k run hrun j hj).mp hidx⟩

/-- **The groups of a dispatched plan are its runs and its missing chunks.** -/
theorem dispatchPlanBuild_runs {mem : DispatchMemory} {caps : DispatchCaps} {runs : List (List ℕ)}
    (hsizes : PlanSizes plan) (hout : dispatchPlanBuild mem plan args caps = .ok out)
    (hruns : ReadRuns (plan.useReads args.alignment) args.maxReadBytes args.maxChunksPerWave runs) :
    GroupsOfRuns plan args.alignment runs out := by
  obtain ⟨reads, mid, h⟩ := dispatchPlanBuild_parts hsizes hout
  obtain ⟨runs', hruns', hplaced⟩ :=
    coalesceReads_runs h.fits args.maxReadBytes args.maxChunksPerWave
  rw [← h.reads_eq] at hruns
  obtain rfl := hruns.unique hruns'
  have hheld := coalesceReads_held h.fits args.maxReadBytes h.maxChunks_pos
  have hlt := hsizes.uses_lt
  refine ⟨fun g hg => ?_, fun run hrun => ?_⟩
  · rw [← h.reads_eq]
    obtain ⟨i, hi, hindex⟩ := h.exists_use hg
    have hi' : i < reads.length := h.length_reads ▸ hi
    by_cases hreal : (reads.getD i ReadOp.blank).isReal = true
    · obtain ⟨run, hrun, hmem⟩ := mem_flatten.mp ((hruns.stored i).mpr ⟨hi', hreal⟩)
      obtain ⟨k, hk, rfl⟩ := getElem_of_mem hrun
      exact .inl ⟨_, hrun, h.run_group hlt hruns hplaced (getElem?_eq_getElem hk) hg hmem
        hindex⟩
    · refine .inr ⟨i, hi, by rw [h.groupInput_eq hg hi hindex, if_neg hreal],
        h.total_eq hlt hg (nodup_singleton i) fun j => ?_⟩
      -- a placeholder is not merged with anything
      rw [mem_singleton]
      refine ⟨fun hj => hj ▸ ⟨hi, hindex⟩, fun ⟨hj, hindex'⟩ => ?_⟩
      by_contra hne
      exact hreal (hheld.shared j (h.length_reads ▸ hj) i hi' (hindex'.trans hindex.symm) hne).2
  · rw [← h.reads_eq]
    obtain ⟨i, hi⟩ := exists_mem_of_ne_nil run (hruns.cut.ne_nil run hrun)
    have hlen := ((hruns.stored i).mp (mem_flatten.mpr ⟨run, hrun, hi⟩)).1
    obtain ⟨g, hg, hindex⟩ := h.exists_group (h.length_reads ▸ hlen)
    obtain ⟨k, hk, rfl⟩ := getElem_of_mem hrun
    exact ⟨g, hg, h.run_group hlt hruns hplaced (getElem?_eq_getElem hk) hg hi hindex⟩

theorem exists_readRuns {mem : DispatchMemory} {caps : DispatchCaps} (hsizes : PlanSizes plan)
    (hout : dispatchPlanBuild mem plan args caps = .ok out) : ∃ runs,
      ReadRuns (plan.useReads args.alignment) args.maxReadBytes args.maxChunksPerWave runs := by
  obtain ⟨reads, mid, h⟩ := dispatchPlanBuild_parts hsizes hout
  obtain ⟨runs, hruns, -⟩ := coalesceReads_runs h.fits args.maxReadBytes args.maxChunksPerWave
  exact ⟨runs, h.reads_eq ▸ hruns⟩

/-! ## Groups that fit -/

/-- The runs of a plan fit two buffers: the pages of every stored chunk in use the first, and the
decoded chunks of every run the second. -/
structure RunsFit (plan : PreparedPlan) (alignment maxBytes maxChunks inputCap decodedCap : ℕ) :
    Prop where
  pages : ∀ i < plan.uses.length, ∀ chunk, plan.useChunk i = some chunk → chunk.missing = false →
    (chunk.pages alignment).nbytes ≤ inputCap
  decoded : ∃ runs, ReadRuns (plan.useReads alignment) maxBytes maxChunks runs ∧
    ∀ run ∈ runs, plan.decodedBytes run ≤ decodedCap

theorem PreparedPlan.decodedBytes_singleton_le {n : ℕ}
    (hbytes : ∀ chunk ∈ plan.chunks, chunk.decodedBytes ≤ n) (i : ℕ) :
    plan.decodedBytes [i] ≤ n := by
  rw [PreparedPlan.decodedBytes, map_singleton, sum_singleton]
  cases hchunk : plan.useChunk i with
  | none => exact Nat.zero_le n
  | some chunk => exact hbytes chunk (PreparedPlan.useChunk_mem hchunk)

/-- **When the groups of a dispatched plan fit.** Merged reads keep to the limit on bytes, and one
chunk fits the second buffer, so what can fail is a chunk whose pages do not fit the first, or a run
that decodes to too much. -/
theorem groupsFit_iff {mem : DispatchMemory} {caps : DispatchCaps} {inputCap decodedCap n : ℕ}
    (hsizes : PlanSizes plan) (hout : dispatchPlanBuild mem plan args caps = .ok out)
    (hmax : args.maxReadBytes ≤ inputCap) (hbytes : ∀ chunk ∈ plan.chunks, chunk.decodedBytes ≤ n)
    (hn : n ≤ decodedCap) :
    (∀ g ∈ out.readOpGroups, out.groupInput g ≤ inputCap ∧ g.totalDecompressed ≤ decodedCap) ↔
      RunsFit plan args.alignment args.maxReadBytes args.maxChunksPerWave inputCap decodedCap := by
  obtain ⟨runs, hruns⟩ := exists_readRuns hsizes hout
  have hgroups := dispatchPlanBuild_runs hsizes hout hruns
  obtain ⟨reads, mid, h⟩ := dispatchPlanBuild_parts hsizes hout
  have hreads := h.reads_eq
  constructor
  · intro hfits
    refine ⟨fun i hi chunk hchunk hstored => ?_, runs, hruns, fun run hrun => ?_⟩
    · obtain ⟨hreal, hread⟩ := h.isReal_eq hi hchunk
      rw [hreads] at hreal hread
      have hmem : i ∈ runs.flatten := by
        rw [hruns.stored, hreal, hstored, ← hreads, h.length_reads]
        exact ⟨hi, rfl⟩
      obtain ⟨run, hrun, hi⟩ := mem_flatten.mp hmem
      obtain ⟨g, hg, hinput, -⟩ := hgroups.run run hrun
      have hle := (hfits g hg).1
      have hspan := (hruns.cut.holds run hrun).mem_span (mem_map_of_mem hi)
      rw [hread, PlanChunk.readOp, hstored, if_neg Bool.false_ne_true] at hspan
      omega
    · obtain ⟨g, hg, -, htotal⟩ := hgroups.run run hrun
      exact htotal ▸ (hfits g hg).2
  · rintro ⟨hpages, runs', hruns', hdecoded⟩ g hg
    obtain rfl := hruns.unique hruns'
    rcases hgroups.group g hg with ⟨run, hrun, hinput, htotal⟩ | ⟨i, -, hinput, htotal⟩
    · refine ⟨?_, htotal ▸ hdecoded run hrun⟩
      rw [hinput]
      -- a run of one use is as long as its pages, and a longer one keeps to the limit
      rcases run with _ | ⟨i, _ | ⟨j, run⟩⟩
      · exact absurd rfl (hruns.cut.ne_nil [] hrun)
      · obtain ⟨hlt, hreal⟩ := (hruns.stored i).mp (mem_flatten.mpr ⟨[i], hrun, by simp⟩)
        rw [← hreads] at hlt hreal ⊢
        rw [h.length_reads] at hlt
        obtain ⟨-, -, cp, -, -, -, huse, -⟩ := h.chunkAt hlt
        obtain ⟨chunk, hchunk, -⟩ := huse.chunk
        obtain ⟨hreal', hread⟩ := h.isReal_eq hlt hchunk
        have hstored : chunk.missing = false := by
          rw [hreal', Bool.not_eq_true'] at hreal
          exact hreal
        have hspan : spanOf (runReads reads [i]) = chunk.pages args.alignment := by
          rw [PlanChunk.readOp, hstored, if_neg Bool.false_ne_true] at hread
          exact hread
        rw [hspan]
        exact hpages i hlt chunk hchunk hstored
      · exact ((hruns.cut.holds _ hrun).span_le (by simp [runReads])).trans hmax
    · rw [hinput, htotal]
      exact ⟨Nat.zero_le _, (plan.decodedBytes_singleton_le hbytes i).trans hn⟩

end RunGroups

end Damacy

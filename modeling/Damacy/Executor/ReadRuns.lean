import Damacy.Executor.MergedUnion
import Damacy.Executor.ReadOpOrder
import Damacy.Lib.LongestRuns

/-!
# Which reads are merged

`coalesceReads_exactly` says what a merged read covers. This module says which reads end up together:
in the order of shard, offset and index, the reads of stored chunks are cut into the longest runs
that can be read at once (`ReadRuns`), and there is a merged read for every run
(`coalesceReads_runs`). A list of reads has only one such cut (`ReadRuns.unique`), so the limits of
the merge and the reads determine it.
-/

open List LongestRuns

namespace Damacy

section Runs

variable {reads : List ReadOp} {maxBytes maxChunks bound : ℕ} {run : List ℕ}
  {runs runs' : List (List ℕ)} {s : FuseState} {done : List ℕ} {e : ℕ}

def spanOf : List ReadOp → ReadOp
  | [] => ReadOp.blank
  | r :: rest => rest.foldl ReadOp.grow r

theorem spanOf_concat {rs : List ReadOp} (hne : rs ≠ []) (r : ReadOp) :
    spanOf (rs ++ [r]) = (spanOf rs).grow r := by
  cases rs with
  | nil => exact absurd rfl hne
  | cons r₀ rest => simp [spanOf]

/-- The reads can be done at once: each but the first joins the range of those before it. -/
def Mergeable (maxBytes maxChunks : ℕ) (rs : List ReadOp) : Prop :=
  ∀ pre r post, rs = pre ++ r :: post → pre ≠ [] →
    (spanOf pre).Joins maxBytes maxChunks pre.length r

theorem Mergeable.of_append {rs more : List ReadOp}
    (h : Mergeable maxBytes maxChunks (rs ++ more)) : Mergeable maxBytes maxChunks rs := by
  rintro pre r post rfl hne
  exact h pre r (post ++ more) (by simp) hne

theorem mergeable_singleton (r : ReadOp) : Mergeable maxBytes maxChunks [r] := by
  intro pre r' post heq hne
  have hlen := congrArg List.length heq
  rw [length_singleton, length_append, length_cons] at hlen
  exact absurd (length_eq_zero_iff.mp (by omega)) hne

theorem mergeable_concat_iff {rs : List ReadOp} (hne : rs ≠ []) (r : ReadOp) :
    Mergeable maxBytes maxChunks (rs ++ [r]) ↔ Mergeable maxBytes maxChunks rs ∧
      (spanOf rs).Joins maxBytes maxChunks rs.length r := by
  refine ⟨fun h => ⟨h.of_append, h rs r [] rfl hne⟩, fun ⟨h, hjoins⟩ pre r' post heq hpre => ?_⟩
  -- the read that joins is the last one or one of those before
  rcases eq_nil_or_concat post with rfl | ⟨post, last, rfl⟩
  · obtain ⟨rfl, hr⟩ := append_inj' heq rfl
    obtain rfl := (List.cons.inj hr).1
    exact hjoins
  · rw [concat_eq_append, ← cons_append, ← append_assoc] at heq
    obtain ⟨rfl, -⟩ := append_inj' heq rfl
    exact h pre r' post rfl hpre

theorem Mergeable.span_le {rs : List ReadOp} (h : Mergeable maxBytes maxChunks rs)
    (hmany : 1 < rs.length) : (spanOf rs).nbytes ≤ maxBytes := by
  rcases eq_nil_or_concat rs with rfl | ⟨init, last, rfl⟩
  · simp at hmany
  · have hne : init ≠ [] := by
      rintro rfl
      simp at hmany
    rw [concat_eq_append] at h ⊢
    rw [spanOf_concat hne]
    exact ((mergeable_concat_iff hne last).mp h).2.bytes_le

theorem Mergeable.mem_span {rs : List ReadOp} (h : Mergeable maxBytes maxChunks rs) {r : ReadOp}
    (hr : r ∈ rs) : (spanOf rs).fileOffset ≤ r.fileOffset ∧
      r.fileOffset + r.nbytes ≤ (spanOf rs).fileOffset + (spanOf rs).nbytes := by
  induction rs using List.reverseRecOn with
  | nil => simp at hr
  | append_singleton init last ih =>
    by_cases hne : init = []
    · subst hne
      obtain rfl : r = last := by simpa using hr
      exact ⟨le_rfl, le_rfl⟩
    · obtain ⟨hinit, hjoins⟩ := (mergeable_concat_iff hne last).mp h
      have hend := (spanOf init).grow_end last
      have hstart := hjoins.start_le
      rw [spanOf_concat hne, show ((spanOf init).grow last).fileOffset = (spanOf init).fileOffset
        from rfl, hend]
      rcases mem_append.mp hr with hr | hr
      · have hspan := ih hinit hr
        omega
      · obtain rfl := mem_singleton.mp hr
        omega

def runReads (reads : List ReadOp) (run : List ℕ) : List ReadOp :=
  run.map (reads.getD · ReadOp.blank)

/-- The reads of stored chunks, in the order of shard, offset and index, are cut into the longest
runs that can be read at once. -/
structure ReadRuns (reads : List ReadOp) (maxBytes maxChunks : ℕ) (runs : List (List ℕ)) : Prop where
  stored : ∀ i, i ∈ runs.flatten ↔
    i < reads.length ∧ (reads.getD i ReadOp.blank).isReal = true
  sorted : runs.flatten.Pairwise fun i j => opKey reads i < opKey reads j
  cut : Cut (fun run => Mergeable maxBytes maxChunks (runReads reads run)) runs

/-- **The runs are determined by the reads and the limits.** -/
theorem ReadRuns.unique (h : ReadRuns reads maxBytes maxChunks runs)
    (h' : ReadRuns reads maxBytes maxChunks runs') : runs = runs' := by
  have hperm : runs.flatten.Perm runs'.flatten := by
    rw [perm_ext_iff_of_nodup (h.sorted.imp fun hlt => ?_) (h'.sorted.imp fun hlt => ?_)]
    · exact fun i => (h.stored i).trans (h'.stored i).symm
    all_goals exact fun heq => absurd (heq ▸ hlt) (lt_irrefl _)
  refine h.cut.unique (fun run more _ hP => ?_) h'.cut
    (hperm.eq_of_pairwise (fun _ _ _ _ hij hji => absurd (hij.trans hji) (lt_irrefl _))
      h.sorted h'.sorted)
  rw [runReads, map_append] at hP
  exact hP.of_append

/-! ## The merging loop cuts runs -/

/-- The runs that the merging loop has made so far, the last of which is the current one. -/
structure RunsMade (reads : List ReadOp) (maxBytes maxChunks : ℕ) (done : List ℕ) (s : FuseState)
    (runs : List (List ℕ)) : Prop where
  flatten : runs.flatten = done.reverse
  cut : Cut (fun run => Mergeable maxBytes maxChunks (runReads reads run)) runs
  tmp : s.tmp = runs.map fun run => spanOf (runReads reads run)
  index : ∀ (k : ℕ) run, runs[k]? = some run → ∀ i, i ∈ run ↔ s.readIndex[i]? = some (some k)
  current : runs = [] ∨ ∃ l pre run, s.leader = some l ∧ runs = pre ++ [run] ∧ l ∈ run ∧
    s.leaderChunks = run.length

theorem RunsMade.start (h : RunsMade reads maxBytes maxChunks done s runs)
    (hf : Fused reads done s) (he : e < reads.length) (hnew : e ∉ done)
    (hlast : ∀ run ∈ runs.getLast?, ¬ Mergeable maxBytes maxChunks (runReads reads (run ++ [e]))) :
    RunsMade reads maxBytes maxChunks (e :: done) (startRead s e (reads.getD e ReadOp.blank))
      (runs ++ [[e]]) where
  flatten := by simp [h.flatten]
  cut := h.cut.start (mergeable_singleton _) hlast
  tmp := by simp [startRead, FuseState.append, h.tmp, runReads, spanOf]
  index := by
    have hlen : s.tmp.length = runs.length := by rw [h.tmp, length_map]
    have hself : (s.readIndex.set e (some s.tmp.length))[e]? = some (some s.tmp.length) :=
      getElem?_set_self (hf.index_length.symm ▸ he)
    intro k run hrun i
    change i ∈ run ↔ (s.readIndex.set e (some s.tmp.length))[i]? = some (some k)
    by_cases hk : k < runs.length
    · rw [getElem?_append_left hk] at hrun
      rw [h.index k run hrun i]
      by_cases hi : e = i
      · subst hi
        rw [hself, hf.untouched e he hnew]
        simp [hlen, hk.ne']
      · rw [getElem?_set_ne hi]
    · have hlt := (List.getElem?_eq_some_iff.mp hrun).1
      rw [length_append, length_singleton] at hlt
      obtain rfl : k = runs.length := by omega
      rw [getElem?_concat_length, Option.some.injEq] at hrun
      subst hrun
      rw [mem_singleton]
      refine ⟨fun hi => ?_, fun hi => ?_⟩
      · rw [hi, hself, hlen]
      by_contra hne
      rw [getElem?_set_ne (Ne.symm hne), ← hlen] at hi
      exact absurd (hf.index_lt hi) (lt_irrefl _)
  current := .inr ⟨e, runs, [e], rfl, rfl, mem_singleton_self e, rfl⟩

theorem RunsMade.merge {pre : List (List ℕ)} {l : ℕ}
    (h : RunsMade reads maxBytes maxChunks done s (pre ++ [run])) (hm : Merging reads bound done s)
    (hreads : ∀ r ∈ reads, r.Fits) (he : e < reads.length) (hnew : e ∉ done)
    (hc : CurrentRead reads done s l pre.length (spanOf (runReads reads run)))
    (hl : l ∈ run) (hcount : s.leaderChunks = run.length)
    (hjoins : (spanOf (runReads reads run)).Joins maxBytes maxChunks s.leaderChunks
      (reads.getD e ReadOp.blank)) :
    RunsMade reads maxBytes maxChunks (e :: done)
      (mergeRead s e pre.length (reads.getD e ReadOp.blank)) (pre ++ [run ++ [e]]) := by
  have hne : runReads reads run ≠ [] := by
    simpa [runReads] using h.cut.ne_nil run (by simp)
  have hconcat : runReads reads (run ++ [e]) =
      runReads reads run ++ [reads.getD e ReadOp.blank] := by simp [runReads]
  have hcfits : (reads.getD e ReadOp.blank).Fits := fits_getD hreads e
  have hrfits := hm.held.fits _ (mem_of_getElem? hc.read)
  rw [mergeRead_eq hcfits hrfits hc.read hc.stop hjoins.start_le (hjoins.fits hcfits hrfits)]
  refine ⟨?_, h.cut.extend ?_, ?_, fun k run' hrun' i => ?_, ?_⟩
  · have hflatten := h.flatten
    simp only [flatten_append, flatten_singleton] at hflatten ⊢
    rw [← append_assoc, hflatten, reverse_cons]
  · rw [hconcat, mergeable_concat_iff hne]
    refine ⟨h.cut.holds run (by simp), ?_⟩
    rwa [runReads, length_map, ← hcount, ← runReads]
  · show s.tmp.set pre.length _ = _
    rw [h.tmp, map_append, map_append, set_append_right _ _ (by simp)]
    simp [hconcat, spanOf_concat hne]
  · change i ∈ run' ↔ (s.readIndex.set e (some pre.length))[i]? = some (some k)
    have hself : (s.readIndex.set e (some pre.length))[e]? = some (some pre.length) :=
      getElem?_set_self (hm.fused.index_length.symm ▸ he)
    by_cases hk : k < pre.length
    · rw [getElem?_append_left hk] at hrun'
      rw [h.index k run' (by rw [getElem?_append_left hk, hrun']) i]
      by_cases hi : e = i
      · subst hi
        rw [hself, hm.fused.untouched e he hnew]
        simp [hk.ne']
      · rw [getElem?_set_ne hi]
    · have hlt := (List.getElem?_eq_some_iff.mp hrun').1
      rw [length_append, length_singleton] at hlt
      obtain rfl : k = pre.length := by omega
      rw [getElem?_concat_length, Option.some.injEq] at hrun'
      subst hrun'
      rw [mem_append, mem_singleton,
        h.index pre.length run getElem?_concat_length i]
      by_cases hi : e = i
      · subst hi
        simp [hself]
      · rw [getElem?_set_ne hi]
        simp [Ne.symm hi]
  · exact .inr ⟨l, pre, run ++ [e], hc.leader, rfl, mem_append_left _ hl, by simp [hcount]⟩

/-- **One round of the merging loop** adds a read to the current run if it can, and starts a run
otherwise. -/
theorem RunsMade.step (h : RunsMade reads maxBytes maxChunks done s runs)
    (hm : Merging reads bound done s) (hreads : ∀ r ∈ reads, r.Fits) (he : e < reads.length)
    (hnew : e ∉ done) : ∃ runs', RunsMade reads maxBytes maxChunks (e :: done)
      (fuseRead reads maxBytes maxChunks s e) runs' := by
  -- the current merged read is that of the last run
  have hcurrent : ∀ {l pre run}, s.leader = some l → runs = pre ++ [run] → l ∈ run →
      CurrentRead reads done s l pre.length (spanOf (runReads reads run)) := by
    intro l pre run hl hruns hmem
    have hrun : runs[pre.length]? = some run := by rw [hruns, getElem?_concat_length]
    obtain ⟨m, r, hc⟩ := hm.heldLeader l hl
    have hindex := hc.index
    rw [(h.index _ run hrun l).mp hmem, Option.some.injEq, Option.some.injEq] at hindex
    subst hindex
    have hr := hc.read
    rw [h.tmp, getElem?_map, hrun, Option.map_some, Option.some.injEq] at hr
    exact hr ▸ hc
  rcases fuseRead_cases hm.held hm.heldLeader hreads e with ⟨hnot, heq⟩ | ⟨l, m, r, hc, hjoins, heq⟩
  · rw [heq]
    refine ⟨_, h.start hm.fused he hnew fun run hrun hP => ?_⟩
    rcases h.current with rfl | ⟨l, pre, run', hl, rfl, hmem, hcount⟩
    · simp at hrun
    · obtain rfl : run' = run := by simpa using hrun
      have hne : runReads reads run' ≠ [] := by
        simpa [runReads] using h.cut.ne_nil run' (by simp)
      rw [runReads, map_append, ← runReads, map_singleton, mergeable_concat_iff hne] at hP
      refine hnot l _ _ (hcurrent hl rfl hmem) ?_
      rw [hcount, ← length_map (reads.getD · ReadOp.blank)]
      exact hP.2
  · rw [heq]
    rcases h.current with rfl | ⟨l', pre, run, hl, rfl, hmem, hcount⟩
    · -- without a run there is no merged read
      have hr := hc.read
      rw [h.tmp] at hr
      simp at hr
    · have hc' := hcurrent hl rfl hmem
      obtain rfl : l = l' := Option.some.inj (hc.leader.symm.trans hl)
      obtain rfl : m = pre.length :=
        Option.some.inj (Option.some.inj (hc.index.symm.trans hc'.index))
      obtain rfl := Option.some.inj (hc.read.symm.trans hc'.read)
      exact ⟨_, h.merge hm hreads he hnew hc' hmem hcount hjoins⟩

/-! ## The runs of `coalesce_reads` -/

theorem sortedReads_pairwise (reads : List ReadOp) :
    (sortedReads reads).Pairwise fun i j => opKey reads i < opKey reads j :=
  (readOpPermSort_sorts reads _).pairwise
    ((nodup_range.filter _).map (opKey_injective reads))

theorem fuseReads_runs (hreads : ∀ r ∈ reads, r.Fits) (maxBytes maxChunks : ℕ) :
    ∃ runs, ReadRuns reads maxBytes maxChunks runs ∧
      (fuseReads reads maxBytes maxChunks).tmp =
        runs.map (fun run => spanOf (runReads reads run)) ∧
      ∀ (k : ℕ) run, runs[k]? = some run →
        ∀ i, i ∈ run ↔ (fuseReads reads maxBytes maxChunks).readIndex[i]? = some (some k) := by
  have hpos : 0 < max 1 maxChunks := Nat.lt_of_lt_of_le Nat.one_pos (le_max_left 1 maxChunks)
  obtain ⟨-, runs, h⟩ := fuseReads_induction
    (P := fun done s => ∃ runs, RunsMade reads maxBytes maxChunks done s runs) hreads hpos
    (le_max_right 1 maxChunks)
    ⟨[], rfl, cut_nil, rfl, by simp, .inl rfl⟩
    fun done s e hm ⟨runs, hruns⟩ he hnew => hruns.step hm hreads he hnew
  have hflatten : runs.flatten = sortedReads reads := by simpa using h.flatten
  refine ⟨runs, ⟨fun i => ?_, ?_, h.cut⟩, h.tmp, h.index⟩
  · rw [hflatten, mem_sortedReads]
  · rw [hflatten]
    exact sortedReads_pairwise reads

/-- What `coalesce_reads` makes of the runs: run `k` is merged into the read at place `pos k`, and
the reads of no other place are of stored chunks. -/
structure RunsPlaced (reads : List ReadOp) (runs : List (List ℕ)) (pos : ℕ → ℕ) (c : Coalesced) :
    Prop where
  read : ∀ (k : ℕ) run, runs[k]? = some run →
    c.reads[pos k]? = some (spanOf (runReads reads run))
  members : ∀ (k : ℕ) run, runs[k]? = some run →
    ∀ i < reads.length, c.readIndex[i]? = some (pos k) ↔ i ∈ run

/-- **`coalesce_reads` merges the longest runs.** -/
theorem coalesceReads_runs (hreads : ∀ r ∈ reads, r.Fits) (maxBytes maxChunks : ℕ) :
    ∃ runs, ReadRuns reads maxBytes maxChunks runs ∧
      RunsPlaced reads runs (coalescedPos reads maxBytes maxChunks)
        (coalesceReads reads maxBytes maxChunks) := by
  have hp := coalesceReads_placed reads maxBytes maxChunks
  obtain ⟨done, h⟩ := exists_fusedAll hreads maxBytes maxChunks
  obtain ⟨-, -, -, fills, htmp⟩ :=
    foldl_appendFill_spec (fuseReads_spec reads maxBytes maxChunks) le_rfl
  change (fuseAll reads maxBytes maxChunks).tmp = _ at htmp
  obtain ⟨runs, hruns, hread, hindex⟩ := fuseReads_runs hreads maxBytes maxChunks
  have hlt {k : ℕ} {run : List ℕ} (hrun : runs[k]? = some run) :
      k < (fuseReads reads maxBytes maxChunks).tmp.length := by
    rw [hread, length_map]
    exact (List.getElem?_eq_some_iff.mp hrun).1
  have hlt' {k : ℕ} {run : List ℕ} (hrun : runs[k]? = some run) :
      k < (fuseAll reads maxBytes maxChunks).tmp.length := by
    rw [htmp, length_append]
    exact (hlt hrun).trans_le (Nat.le_add_right _ _)
  refine ⟨runs, hruns, fun k run hrun => ?_, fun k run hrun i hi => ?_⟩
  · rw [hp.read k (hlt' hrun), htmp, getElem?_append_left (hlt hrun), hread,
      getElem?_map, hrun, Option.map_some]
  · rw [h.index_iff hp hi (hlt' hrun), hindex k run hrun i]
    -- the loop over the placeholders keeps the reads that are merged, and adds later ones
    by_cases hmem : i ∈ (sortedReads reads).reverse ++ []
    · rw [h.appended.kept i hmem]
    · refine iff_of_false (fun hi' => ?_) fun hi' => ?_
      · obtain ⟨k', hk', hindex', -⟩ := h.appended.fill i (h.all i hi) hmem
        rw [hi', Option.some.injEq, Option.some.injEq] at hindex'
        have := hlt hrun
        omega
      · exact hmem ((fuseReads_spec reads maxBytes maxChunks).mem_of_index hi')

end Runs

end Damacy

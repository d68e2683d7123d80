import Damacy.Wave.ParseChunks

/-!
# The next wave of a job

What the packing loop takes is decided by the job as it stands before: the longest run of the groups
left whose sums respect the three limits (`fitTogether_iff`). The chunks of a reserved wave and the
places recorded for them are therefore sums over the groups and the chunks of that job
(`waveChunks_getElem?_iff`).
-/

open List

namespace Damacy

section NextWave

variable {maxChunks idx j k : ℕ} {out : DispatchOutput} {limits : WavePackLimits} {job : RenderJob}
  {readOps : List ReadOp} {groups rest : List ReadOpGroup} {s : PackState} {c : PlacedChunk}

/-- The next `k` groups respect the limits of a wave together. -/
structure FitTogether (limits : WavePackLimits) (job : RenderJob) (k : ℕ) : Prop where
  left : k ≤ job.groupsLeft.length
  input : inputStart job k ≤ limits.inputCap
  chunks : Packing.start (groupCounts job) k ≤ limits.maxChunksPerWave
  decoded : deviceStart job k 0 ≤ limits.devDecompressedCap

theorem FitTogether.mono (h : FitTogether limits job k) (hle : j ≤ k) : FitTogether limits job j where
  left := hle.trans h.left
  input := (Packing.start_mono hle).trans h.input
  chunks := (Packing.start_mono hle).trans h.chunks
  decoded := (Packing.start_mono (Nat.add_le_add_right (Packing.start_mono hle) 0)).trans h.decoded

theorem packGroups_stops (hrest : rest = groups.drop s.completedGroups) {g : ReadOpGroup}
    (hg : groups[(packGroups readOps limits rest s).1.completedGroups]? = some g) :
    groupStop readOps limits (packGroups readOps limits rest s).1 g ≠ none := by
  induction rest generalizing s with
  | nil =>
    rw [packGroups, ← head?_drop, ← hrest] at hg
    cases hg
  | cons g' rest ih =>
    rw [packGroups] at hg ⊢
    cases hstop : groupStop readOps limits s g' with
    | some reason =>
      rw [hstop] at hg
      rw [← head?_drop, ← hrest] at hg
      obtain rfl := Option.some.inj hg
      simp [hstop]
    | none =>
      rw [hstop] at hg
      refine ih ?_ hg
      have htail : rest = (g' :: rest).tail := rfl
      rw [htail, hrest, tail_drop]
      rfl

theorem packWave_stops {g : ReadOpGroup}
    (hg : job.readOpGroups[(packWave job limits).1.completedGroups]? = some g) :
    groupStop job.readOps limits (packWave job limits).1 g ≠ none := by
  have hrest : job.readOpGroups.drop job.nGroupsDispatched = job.readOpGroups.drop
      (PackState.completedGroups ⟨0, 0, 0, job.nGroupsDispatched, [], job.chunkPlans⟩) := rfl
  rw [packWave] at hg ⊢
  exact packGroups_stops hrest hg

/-- **What the packing loop takes**: as many of the groups left as fit a wave together. -/
theorem fitTogether_iff (hout : ReadGroups maxChunks out) (hjob : JobAt out job) :
    FitTogether limits job k ↔
      job.nGroupsDispatched + k ≤ (packWave job limits).1.completedGroups := by
  obtain ⟨hpacked, -⟩ := packWave_packed hout hjob limits
  set s := (packWave job limits).1 with hs
  set n := s.completedGroups - job.nGroupsDispatched with hn
  have hsum : job.nGroupsDispatched + n = s.completedGroups :=
    Nat.add_sub_cancel' hpacked.groups_ge
  have hcount : s.take = Packing.start (groupCounts job) n := hpacked.count hjob
  have hdevice : s.devCursor = deviceStart job n 0 := by
    rw [hpacked.dev, hcount, deviceStart, Nat.add_zero]
  constructor
  · intro h
    by_contra hlt
    have hmore := h.mono (show n + 1 ≤ k by omega)
    obtain ⟨g, hg⟩ : ∃ g, job.groupsLeft[n]? = some g :=
      ⟨_, getElem?_eq_getElem hmore.left⟩
    have hget : job.readOpGroups[s.completedGroups]? = some g := by
      rw [← hg, RenderJob.groupsLeft, getElem?_drop, hsum]
    refine packWave_stops hget ((hpacked.groupStop_eq_none_iff hout hjob hget).2 ⟨?_, ?_, ?_⟩)
    · have hinput := hmore.input
      obtain ⟨hlt', heq⟩ := List.getElem?_eq_some_iff.1 hg
      rw [inputStart, Packing.start_succ (by rwa [groupInputs, length_map]),
        ← inputStart] at hinput
      simp only [groupInputs, getElem_map, heq] at hinput
      rwa [hostAdd_congr hpacked.plans, hpacked.input]
    · rw [hcount, ← (hjob.group_first hout hg).2]
      exact hmore.chunks
    · rw [hpacked.dev, (hpacked.nextGroup hout hjob hget).total, hcount,
        ← (hjob.group_first hout hg).2]
      exact hmore.decoded
  · intro hle
    refine FitTogether.mono (k := n) ⟨?_, ?_, ?_, ?_⟩ (by omega)
    · rw [RenderJob.groupsLeft, length_drop]
      have := hpacked.groups_le
      omega
    · exact hpacked.input ▸ hpacked.host_le
    · exact hcount ▸ hpacked.take_le
    · exact hdevice ▸ hpacked.dev_le

theorem waveChunks_eq (hwork : renderJobHasWork job = true)
    (hok : (waveDispatcherReserve job idx limits).status = .ok) :
    (waveDispatcherReserve job idx limits).waveChunks =
      ((packWave job limits).1.chunkPlans.drop job.nChunksDispatched).take
        (packWave job limits).1.take := by
  obtain ⟨-, hj, -, hn, hoff, -⟩ := waveDispatcherReserve_ok hwork idx hok
  rw [Reservation.waveChunks, hj, hn, hoff]

theorem sizesOf_waveChunks (hout : ReadGroups maxChunks out) (hjob : JobAt out job)
    (hwork : renderJobHasWork job = true)
    (hok : (waveDispatcherReserve job idx limits).status = .ok) :
    sizesOf (waveDispatcherReserve job idx limits).waveChunks =
      (waveSizes job).take (packWave job limits).1.take := by
  obtain ⟨hpacked, -⟩ := packWave_packed hout hjob limits
  rw [waveChunks_eq hwork hok, waveSizes, ← hpacked.sizes, sizesOf, sizesOf, map_take,
    map_drop]

/-- Chunk `i` of group `k` of those that are left, which goes into the next wave. -/
structure NextChunk (limits : WavePackLimits) (job : RenderJob) (k i : ℕ) (c : PlacedChunk) :
    Prop where
  fits : FitTogether limits job (k + 1)
  chunk : ∃ g, job.groupsLeft[k]? = some g ∧ i < g.nChunks ∧
    job.chunkPlans[g.firstChunk + i]? = some c

/-- **The chunks of a reserved wave**, in the order of the groups, with their places. -/
theorem waveChunks_getElem?_iff (hout : ReadGroups maxChunks out) (hjob : JobAt out job)
    (hwork : renderJobHasWork job = true)
    (hok : (waveDispatcherReserve job idx limits).status = .ok) :
    (waveDispatcherReserve job idx limits).waveChunks[j]? = some c ↔
      ∃ k i c', NextChunk limits job k i c' ∧ j = Packing.start (groupCounts job) k + i ∧
        c = placedAt job k i c' := by
  obtain ⟨hpacked, -⟩ := packWave_packed hout hjob limits
  set s := (packWave job limits).1 with hs
  have hcount := hpacked.count hjob
  have htaken : ∀ k, FitTogether limits job k ↔ job.nGroupsDispatched + k ≤ s.completedGroups :=
    fun _ => fitTogether_iff hout hjob
  have hsum : job.nGroupsDispatched + (s.completedGroups - job.nGroupsDispatched) =
    s.completedGroups := Nat.add_sub_cancel' hpacked.groups_ge
  rw [waveChunks_eq hwork hok, ← hs]
  constructor
  · intro hc
    have hjt : j < s.take := by
      have hlt := (List.getElem?_eq_some_iff.1 hc).1
      rw [length_take] at hlt
      omega
    rw [getElem?_take_of_lt hjt, getElem?_drop] at hc
    -- the group of the chunk
    have hlen : s.completedGroups - job.nGroupsDispatched ≤ (groupCounts job).length := by
      rw [groupCounts, length_map, RenderJob.groupsLeft, length_drop]
      have := hpacked.groups_le
      omega
    obtain ⟨k, hk, hkn, hlo, hhi⟩ := Packing.exists_window hlen (hcount ▸ hjt)
    have hk' : k < job.groupsLeft.length := by rwa [groupCounts, length_map] at hk
    have hg : job.groupsLeft[k]? = some job.groupsLeft[k] := getElem?_eq_getElem hk'
    have hsize : (groupCounts job)[k] = job.groupsLeft[k].nChunks := by
      simp only [groupCounts, getElem_map]
    rw [hsize] at hhi
    have hfirst := (hjob.group_first hout hg).1
    obtain ⟨i, rfl⟩ := Nat.exists_eq_add_of_le hlo
    have hpos : job.nChunksDispatched + (Packing.start (groupCounts job) k + i) =
        job.groupsLeft[k].firstChunk + i := by omega
    rw [hpos, hpacked.placed k _ hg (by omega) i (by omega), Option.map_eq_some_iff] at hc
    obtain ⟨c', hc', rfl⟩ := hc
    exact ⟨k, i, c', ⟨(htaken _).2 (by omega), _, hg, by omega, hc'⟩, rfl, rfl⟩
  · rintro ⟨k, i, c', ⟨hfits, g, hg, hi, hc'⟩, rfl, rfl⟩
    have hle := (htaken _).1 hfits
    obtain ⟨hfirst, hsucc⟩ := hjob.group_first hout hg
    have hmono : Packing.start (groupCounts job) (k + 1) ≤ s.take := by
      rw [hcount]
      exact Packing.start_mono (by omega)
    have hpos : job.nChunksDispatched + (Packing.start (groupCounts job) k + i) =
        g.firstChunk + i := by omega
    rw [getElem?_take_of_lt (by omega), getElem?_drop, hpos,
      hpacked.placed k g hg (by omega) i hi, hc', Option.map_some]

end NextWave

end Damacy

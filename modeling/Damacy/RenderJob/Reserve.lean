import Damacy.Executor.ReadGroups

/-!
# Packing waves (`render_job/render_job.c`)

A render job is a dispatched plan with two cursors. `waveDispatcherReserve` packs the next groups
into a wave until one of three limits is reached: the bytes of a host buffer, the bytes of a device
buffer, and the number of chunks. It emits a read for every group of stored chunks and records the
place of every chunk in the two buffers. `waveDispatcherReserve_packed` says what a wave holds, for
every job that reserving and rolling back can reach.
-/

open List

namespace Damacy

/-! ## Jobs -/

/-- `struct chunk_plan` with its places in the host and device buffers. -/
structure PlacedChunk extends ChunkPlan where
  hostBufOffset : ℕ
  devDecompressedOffset : ℕ
deriving DecidableEq, Repr

inductive RenderJobState
  | free
  | ready
deriving DecidableEq, Repr

/-- `struct render_job`: what waves are packed from. The used parts of its arrays are lists. -/
structure RenderJob where
  state : RenderJobState
  batchPoolSlot : ℕ
  batchId : ℕ
  readOps : List ReadOp
  chunkPlans : List PlacedChunk
  readOpGroups : List ReadOpGroup
  samplePlans : List SamplePlan
  nChunksDispatched : ℕ
  nGroupsDispatched : ℕ
deriving DecidableEq

def renderJobCommitPlan (slot batchId : ℕ) (out : DispatchOutput) : RenderJob :=
  { state := .ready
    batchPoolSlot := slot
    batchId
    readOps := out.readOps
    chunkPlans := out.chunkPlans.map fun cp =>
      { cp with hostBufOffset := 0, devDecompressedOffset := 0 }
    readOpGroups := out.readOpGroups
    samplePlans := out.samplePlans
    nChunksDispatched := 0
    nGroupsDispatched := 0 }

def renderJobHasWork (job : RenderJob) : Bool :=
  job.state == .ready && decide (job.nChunksDispatched < job.chunkPlans.length)

/-! ## Waves -/

structure WavePackLimits where
  inputCap : ℕ
  devDecompressedCap : ℕ
  maxChunksPerWave : ℕ
deriving DecidableEq, Repr

inductive WaveStopReason
  | drained
  | host
  | chunks
  | dev
deriving DecidableEq, Repr

structure WaveDesc where
  renderJobIdx : ℕ
  batchPoolSlot : ℕ
  batchChunkOffset : ℕ
  nChunks : ℕ
  nReads : ℕ
  prevNGroupsDispatched : ℕ
  inputUsedBytes : ℕ
  ioBytes : ℕ
  isFillWave : Bool
  stopReason : WaveStopReason
deriving DecidableEq, Repr

structure PackState where
  hostCursor : ℕ
  devCursor : ℕ
  take : ℕ
  completedGroups : ℕ
  reads : List StoreRead
  chunkPlans : List PlacedChunk
deriving DecidableEq

def placeChunk (hostOffset : ℕ) (s : List PlacedChunk × ℕ) (i : ℕ) : List PlacedChunk × ℕ :=
  (s.1.modify i fun c => { c with
      hostBufOffset := hostOffset
      devDecompressedOffset := u32 s.2 },
    u64 (s.2 + (s.1[i]?.elim 0 fun c => c.decompressedNbytes)))

def isFillGroup (chunkPlans : List PlacedChunk) (g : ReadOpGroup) : Bool :=
  chunkPlans[g.firstChunk]?.elim false fun c => c.isFill

def packGroup (readOps : List ReadOp) (s : PackState) (g : ReadOpGroup) : PackState :=
  let r := readOps.getD g.readOpIdx ReadOp.blank
  let fill := isFillGroup s.chunkPlans g
  let placed := (List.range' g.firstChunk g.nChunks).foldl
    (placeChunk (if fill then 0 else s.hostCursor)) (s.chunkPlans, s.devCursor)
  { hostCursor := if fill then s.hostCursor else u64 (s.hostCursor + r.nbytes)
    devCursor := placed.2
    take := u32 (s.take + g.nChunks)
    completedGroups := s.completedGroups + 1
    reads := if fill then s.reads
      else s.reads ++ [⟨r.shardPath, s.hostCursor, r.fileOffset, r.nbytes⟩]
    chunkPlans := placed.1 }

def hostAdd (readOps : List ReadOp) (chunkPlans : List PlacedChunk) (g : ReadOpGroup) : ℕ :=
  if isFillGroup chunkPlans g then 0 else (readOps.getD g.readOpIdx ReadOp.blank).nbytes

def groupStop (readOps : List ReadOp) (limits : WavePackLimits) (s : PackState) (g : ReadOpGroup) :
    Option WaveStopReason :=
  if limits.inputCap < u64 (s.hostCursor + hostAdd readOps s.chunkPlans g) then some .host
  else if limits.maxChunksPerWave < u32 (s.take + g.nChunks) then some .chunks
  else if limits.devDecompressedCap < u64 (s.devCursor + g.totalDecompressed) then some .dev
  else none

def packGroups (readOps : List ReadOp) (limits : WavePackLimits) :
    List ReadOpGroup → PackState → PackState × WaveStopReason
  | [], s => (s, .drained)
  | g :: rest, s =>
    match groupStop readOps limits s g with
    | some reason => (s, reason)
    | none => packGroups readOps limits rest (packGroup readOps s g)

/-- What `wave_dispatcher_reserve` leaves behind. -/
structure Reservation where
  status : Status
  job : RenderJob
  reads : List StoreRead
  desc : WaveDesc
deriving DecidableEq

def packWave (job : RenderJob) (limits : WavePackLimits) : PackState × WaveStopReason :=
  packGroups job.readOps limits (job.readOpGroups.drop job.nGroupsDispatched)
    ⟨0, 0, 0, job.nGroupsDispatched, [], job.chunkPlans⟩

def waveDispatcherReserve (job : RenderJob) (renderJobIdx : ℕ) (limits : WavePackLimits) :
    Reservation :=
  let desc : WaveDesc :=
    { renderJobIdx, batchPoolSlot := job.batchPoolSlot, batchChunkOffset := job.nChunksDispatched
      nChunks := 0, nReads := 0, prevNGroupsDispatched := job.nGroupsDispatched
      inputUsedBytes := 0, ioBytes := 0, isFillWave := false, stopReason := .drained }
  if renderJobHasWork job = false then ⟨.ok, job, [], desc⟩
  else
    let (s, stopReason) := packWave job limits
    let job := { job with chunkPlans := s.chunkPlans }
    if s.take = 0 then ⟨.budget, job, s.reads, { desc with stopReason }⟩
    else
      { status := .ok
        job := { job with
          nChunksDispatched := u32 (job.nChunksDispatched + s.take)
          nGroupsDispatched := s.completedGroups }
        reads := s.reads
        desc := { desc with
          nChunks := s.take, nReads := s.reads.length, inputUsedBytes := s.hostCursor
          ioBytes := s.hostCursor, isFillWave := s.reads.length == 0, stopReason } }

def renderJobRollbackWave (job : RenderJob) (desc : WaveDesc) : RenderJob :=
  { job with
    nChunksDispatched := u32 (job.nChunksDispatched + (2 ^ 32 - desc.nChunks))
    nGroupsDispatched := desc.prevNGroupsDispatched }

/-- The jobs of a dispatched plan from which waves are reserved: the committed job, the job after a
reservation, and the job after a reservation that was rolled back. -/
inductive JobRun (limits : WavePackLimits) (out : DispatchOutput) : RenderJob → Prop
  | commit (slot batchId : ℕ) : JobRun limits out (renderJobCommitPlan slot batchId out)
  | reserve {job : RenderJob} (renderJobIdx : ℕ) (hjob : JobRun limits out job)
      (hok : (waveDispatcherReserve job renderJobIdx limits).status = .ok) :
      JobRun limits out (waveDispatcherReserve job renderJobIdx limits).job
  | rollback {job : RenderJob} (renderJobIdx : ℕ) (hjob : JobRun limits out job)
      (hok : (waveDispatcherReserve job renderJobIdx limits).status = .ok) :
      JobRun limits out (renderJobRollbackWave (waveDispatcherReserve job renderJobIdx limits).job
        (waveDispatcherReserve job renderJobIdx limits).desc)

/-! ## Placing the chunks of a group -/

section Place

variable {hostOffset first n : ℕ} {cps : List PlacedChunk}

def plansOf (cps : List PlacedChunk) : List ChunkPlan := cps.map PlacedChunk.toChunkPlan

def sizesOf (cps : List PlacedChunk) : List ℕ := cps.map fun c => c.decompressedNbytes

theorem sizesOf_eq (cps : List PlacedChunk) :
    sizesOf cps = (plansOf cps).map ChunkPlan.decompressedNbytes := by
  rw [sizesOf, plansOf, map_map]
  rfl

theorem placeChunk_self (s : List PlacedChunk × ℕ) (i : ℕ) :
    (placeChunk hostOffset s i).1[i]? = s.1[i]?.map fun c => { c with
      hostBufOffset := hostOffset
      devDecompressedOffset := u32 s.2 } := by
  simp [placeChunk]

theorem placeChunk_ne (s : List PlacedChunk × ℕ) {i j : ℕ} (h : i ≠ j) :
    (placeChunk hostOffset s i).1[j]? = s.1[j]? := by
  simp [placeChunk, h]

theorem placeChunk_plans (s : List PlacedChunk × ℕ) (i : ℕ) :
    plansOf (placeChunk hostOffset s i).1 = plansOf s.1 := by
  apply ext_getElem?
  intro j
  rw [plansOf, plansOf, getElem?_map, getElem?_map]
  by_cases hij : i = j
  · subst hij
    rw [placeChunk_self, Option.map_map]
    rfl
  · rw [placeChunk_ne s hij]

/-- **The loop over the chunks of a group** gives chunk `i` of the group the sum of the sizes before
it, and changes no other chunk. -/
theorem foldl_placeChunk (hostOffset dev : ℕ) (hfirst : first + n ≤ cps.length)
    (hsum : dev + (((sizesOf cps).drop first).take n).sum < 2 ^ 64) :
    let r := (List.range' first n).foldl (placeChunk hostOffset) (cps, dev)
    plansOf r.1 = plansOf cps ∧ r.2 = dev + (((sizesOf cps).drop first).take n).sum ∧
      (∀ j, j < first ∨ first + n ≤ j → r.1[j]? = cps[j]?) ∧
      ∀ i < n, r.1[first + i]? = cps[first + i]?.map fun c => { c with
        hostBufOffset := hostOffset
        devDecompressedOffset := u32 (dev + (((sizesOf cps).drop first).take i).sum) } := by
  induction n with
  | zero => simp
  | succ n ih =>
    have hlt : first + n < cps.length := by omega
    have hlt' : n < ((sizesOf cps).drop first).length := by
      rw [length_drop, sizesOf, length_map]
      omega
    have hsize : ((sizesOf cps).drop first)[n] = cps[first + n].decompressedNbytes := by
      simp [sizesOf]
    rw [sum_take_succ _ n hlt', hsize] at hsum ⊢
    obtain ⟨hplans, hdev, hother, hplaced⟩ := ih (by omega) (by omega)
    dsimp only at hplans hdev hother hplaced ⊢
    rw [List.range'_concat, foldl_append, foldl_cons, foldl_nil, Nat.one_mul]
    generalize (List.range' first n).foldl (placeChunk hostOffset) (cps, dev) = r at *
    have hget : r.1[first + n]? = some cps[first + n] := by
      rw [hother (first + n) (.inr le_rfl), getElem?_eq_getElem hlt]
    refine ⟨(placeChunk_plans r _).trans hplans, ?_, fun j hj => ?_, fun i hi => ?_⟩
    · show u64 (r.2 + r.1[first + n]?.elim 0 _) = _
      rw [hget, hdev, Option.elim_some, u64_of_lt (by omega), Nat.add_assoc]
    · rw [placeChunk_ne r (by omega)]
      exact hother j (by omega)
    · by_cases hin : i = n
      · subst hin
        rw [placeChunk_self, hget, hdev, getElem?_eq_getElem hlt]
      · rw [placeChunk_ne r (by omega)]
        exact hplaced i (by omega)

end Place

/-! ## Packing a wave -/

section Pack

variable {maxChunks : ℕ} {out : DispatchOutput} {limits : WavePackLimits} {job : RenderJob}
  {s : PackState} {g : ReadOpGroup}

/-- A job of a dispatched plan, with its cursors at the start of a group. -/
structure JobAt (out : DispatchOutput) (job : RenderJob) : Prop where
  state : job.state = .ready
  readOps : job.readOps = out.readOps
  groups : job.readOpGroups = out.readOpGroups
  plans : plansOf job.chunkPlans = out.chunkPlans
  groups_le : job.nGroupsDispatched ≤ job.readOpGroups.length
  chunks : job.nChunksDispatched =
    Packing.start (job.readOpGroups.map ReadOpGroup.nChunks) job.nGroupsDispatched

def waveSizes (job : RenderJob) : List ℕ := (sizesOf job.chunkPlans).drop job.nChunksDispatched

def RenderJob.groupsLeft (job : RenderJob) : List ReadOpGroup :=
  job.readOpGroups.drop job.nGroupsDispatched

def groupCounts (job : RenderJob) : List ℕ := job.groupsLeft.map ReadOpGroup.nChunks

def groupInputs (job : RenderJob) : List ℕ :=
  job.groupsLeft.map (hostAdd job.readOps job.chunkPlans)

def inputStart (job : RenderJob) (k : ℕ) : ℕ := Packing.start (groupInputs job) k

/-- The decoded bytes before chunk `i` of group `k` of those that are left. -/
def deviceStart (job : RenderJob) (k i : ℕ) : ℕ :=
  Packing.start (waveSizes job) (Packing.start (groupCounts job) k + i)

/-- A chunk with the places that it gets as chunk `i` of group `k` of those that are left. -/
def placedAt (job : RenderJob) (k i : ℕ) (c : PlacedChunk) : PlacedChunk :=
  { c with
    hostBufOffset := if c.isFill then 0 else inputStart job k
    devDecompressedOffset := u32 (deviceStart job k i) }

structure GroupFits (limits : WavePackLimits) (job : RenderJob) (g : ReadOpGroup) : Prop where
  host : hostAdd job.readOps job.chunkPlans g ≤ limits.inputCap
  chunks : g.nChunks ≤ limits.maxChunksPerWave
  dev : g.totalDecompressed ≤ limits.devDecompressedCap

theorem isFillGroup_congr {cps cps' : List PlacedChunk} (h : plansOf cps = plansOf cps')
    (g : ReadOpGroup) : isFillGroup cps g = isFillGroup cps' g := by
  have hget := congrArg (fun l : List ChunkPlan => l[g.firstChunk]?.elim false ChunkPlan.isFill) h
  simp only [plansOf, getElem?_map, Option.elim_map] at hget
  exact hget

theorem hostAdd_congr {cps cps' : List PlacedChunk} (h : plansOf cps = plansOf cps')
    (readOps : List ReadOp) (g : ReadOpGroup) : hostAdd readOps cps g = hostAdd readOps cps' g := by
  rw [hostAdd, hostAdd, isFillGroup_congr h]

/-- The state of the packing loop: the groups taken so far are placed one after another in both
buffers, and every stored chunk has the read of its group. -/
structure Packed (limits : WavePackLimits) (job : RenderJob) (s : PackState) : Prop where
  groups_ge : job.nGroupsDispatched ≤ s.completedGroups
  groups_le : s.completedGroups ≤ job.readOpGroups.length
  take : job.nChunksDispatched + s.take =
    Packing.start (job.readOpGroups.map ReadOpGroup.nChunks) s.completedGroups
  plans : plansOf s.chunkPlans = plansOf job.chunkPlans
  dev : s.devCursor = Packing.start (waveSizes job) s.take
  device : ∀ i < s.take, ∀ c, s.chunkPlans[job.nChunksDispatched + i]? = some c →
    c.devDecompressedOffset = u32 (Packing.start (waveSizes job) i)
  host : ∀ i < s.take, ∀ c, s.chunkPlans[job.nChunksDispatched + i]? = some c →
    c.isFill = false → ∃ r, job.readOps[c.readOpIdx]? = some r ∧
      ⟨r.shardPath, c.hostBufOffset, r.fileOffset, r.nbytes⟩ ∈ s.reads
  input : s.hostCursor = inputStart job (s.completedGroups - job.nGroupsDispatched)
  placed : ∀ k g, job.groupsLeft[k]? = some g → job.nGroupsDispatched + k < s.completedGroups →
    ∀ i < g.nChunks, s.chunkPlans[g.firstChunk + i]? =
      job.chunkPlans[g.firstChunk + i]?.map (placedAt job k i)
  reads_le : ∀ read ∈ s.reads, read.dst + read.len ≤ s.hostCursor
  reads_apart : s.reads.Pairwise fun a b => a.dst + a.len ≤ b.dst
  host_lt : s.hostCursor ≤ s.take * (2 ^ 32 - 1)
  host_le : s.hostCursor ≤ limits.inputCap
  dev_le : s.devCursor ≤ limits.devDecompressedCap
  take_le : s.take ≤ limits.maxChunksPerWave
  fits : ∀ k g, job.nGroupsDispatched ≤ k → k < s.completedGroups →
    job.readOpGroups[k]? = some g → GroupFits limits job g

theorem Packed.init (hjob : JobAt out job) :
    Packed limits job ⟨0, 0, 0, job.nGroupsDispatched, [], job.chunkPlans⟩ where
  groups_ge := le_rfl
  groups_le := hjob.groups_le
  take := hjob.chunks
  plans := rfl
  dev := rfl
  device i hi := absurd hi (by simp)
  host i hi := absurd hi (by simp)
  input := by simp [inputStart]
  placed k g _ hlt := absurd hlt (by simp)
  reads_le := by simp
  reads_apart := .nil
  host_lt := by simp
  host_le := Nat.zero_le _
  dev_le := Nat.zero_le _
  take_le := Nat.zero_le _
  fits k g hle hlt := absurd hlt (Nat.not_lt_of_le hle)

theorem JobAt.sizes (hjob : JobAt out job) :
    sizesOf job.chunkPlans = out.chunkPlans.map ChunkPlan.decompressedNbytes := by
  rw [sizesOf_eq, hjob.plans]

theorem JobAt.length (hjob : JobAt out job) : job.chunkPlans.length = out.chunkPlans.length := by
  rw [← hjob.plans, plansOf, length_map]

theorem Packed.sizes (h : Packed limits job s) : sizesOf s.chunkPlans = sizesOf job.chunkPlans := by
  rw [sizesOf_eq, h.plans, ← sizesOf_eq]

theorem Packed.length (h : Packed limits job s) : s.chunkPlans.length = job.chunkPlans.length := by
  rw [← length_map (f := PlacedChunk.toChunkPlan), ← plansOf, h.plans, plansOf,
    length_map]

theorem Packed.plan_eq {i : ℕ} {c : PlacedChunk} (h : Packed limits job s)
    (hjob : JobAt out job) (hc : s.chunkPlans[i]? = some c) :
    out.chunkPlans[i]? = some c.toChunkPlan := by
  rw [← hjob.plans, ← h.plans, plansOf, getElem?_map, hc]
  rfl

theorem groupCounts_eq (job : RenderJob) : groupCounts job =
    (job.readOpGroups.map ReadOpGroup.nChunks).drop job.nGroupsDispatched := map_drop

theorem JobAt.start_counts (hjob : JobAt out job) (k : ℕ) :
    job.nChunksDispatched + Packing.start (groupCounts job) k =
      Packing.start (job.readOpGroups.map ReadOpGroup.nChunks) (job.nGroupsDispatched + k) := by
  rw [Packing.start_add, ← hjob.chunks, ← groupCounts_eq]
  rfl

theorem JobAt.group_first (hout : ReadGroups maxChunks out) (hjob : JobAt out job) {k : ℕ}
    (hg : job.groupsLeft[k]? = some g) :
    g.firstChunk = job.nChunksDispatched + Packing.start (groupCounts job) k ∧
      Packing.start (groupCounts job) (k + 1) = Packing.start (groupCounts job) k + g.nChunks := by
  have hk : job.readOpGroups[job.nGroupsDispatched + k]? = some g := by
    rw [← hg, RenderJob.groupsLeft, getElem?_drop]
  obtain ⟨hlt, heq⟩ := List.getElem?_eq_some_iff.1 hk
  obtain ⟨hlt', heq'⟩ := List.getElem?_eq_some_iff.1 hg
  constructor
  · have hfirst := hout.tiles.first _ (hjob.groups ▸ hlt)
    simp only [← hjob.groups, heq] at hfirst
    rw [hjob.start_counts, hfirst]
  · rw [Packing.start_succ (by rwa [groupCounts, length_map])]
    simp only [groupCounts, getElem_map, heq']

theorem Packed.count (hjob : JobAt out job) (h : Packed limits job s) :
    s.take = Packing.start (groupCounts job) (s.completedGroups - job.nGroupsDispatched) := by
  have hstart := hjob.start_counts (s.completedGroups - job.nGroupsDispatched)
  rw [Nat.add_sub_cancel' h.groups_ge, ← h.take] at hstart
  omega

theorem waveSizes_sum_lt (hout : ReadGroups maxChunks out) (hjob : JobAt out job) :
    (waveSizes job).sum < 2 ^ 64 := by
  have hsub : (waveSizes job).sum ≤ (sizesOf job.chunkPlans).sum :=
    (drop_sublist _ _).sum_le_sum fun _ _ => Nat.zero_le _
  rw [hjob.sizes] at hsub
  exact hsub.trans_lt (sum_u32_lt hout.chunks_lt hout.held.decompressed_lt)

/-- The next group of the loop: where it is, and what it adds. -/
structure NextGroup (out : DispatchOutput) (job : RenderJob) (s : PackState) (g : ReadOpGroup) :
    Prop where
  first : g.firstChunk = job.nChunksDispatched + s.take
  pos : 0 < g.nChunks
  next : job.nChunksDispatched + (s.take + g.nChunks) =
    Packing.start (job.readOpGroups.map ReadOpGroup.nChunks) (s.completedGroups + 1)
  stop_le : g.firstChunk + g.nChunks ≤ job.chunkPlans.length
  total : Packing.start (waveSizes job) s.take + g.totalDecompressed =
    Packing.start (waveSizes job) (s.take + g.nChunks)
  read : ∃ r, out.readOps[g.readOpIdx]? = some r ∧ r.Fits
  chunks : ∀ i < g.nChunks, ∀ cp, out.chunkPlans[g.firstChunk + i]? = some cp →
    cp.readOpIdx = g.readOpIdx ∧ cp.isFill = isFillGroup s.chunkPlans g

theorem Packed.nextGroup (hout : ReadGroups maxChunks out) (hjob : JobAt out job)
    (h : Packed limits job s) (hg : job.readOpGroups[s.completedGroups]? = some g) :
    NextGroup out job s g := by
  obtain ⟨hlt, rfl⟩ := List.getElem?_eq_some_iff.mp hg
  set g := job.readOpGroups[s.completedGroups] with hgdef
  have hgs : g ∈ out.readOpGroups := hjob.groups ▸ getElem_mem hlt
  have hspec := hout.group g hgs
  have hfirst : g.firstChunk = job.nChunksDispatched + s.take := by
    rw [h.take]
    have := hout.tiles.first s.completedGroups (hjob.groups ▸ hlt)
    simpa only [← hjob.groups] using this
  have hnext : job.nChunksDispatched + (s.take + g.nChunks) =
      Packing.start (job.readOpGroups.map ReadOpGroup.nChunks) (s.completedGroups + 1) := by
    rw [Packing.start_succ (by rwa [length_map]), ← h.take, getElem_map, Nat.add_assoc]
  have hstop : g.firstChunk + g.nChunks ≤ job.chunkPlans.length := by
    have hsum := Packing.start_le_sum (job.readOpGroups.map ReadOpGroup.nChunks)
      (s.completedGroups + 1)
    rw [← hnext, hjob.groups, hout.tiles.sum] at hsum
    rw [hfirst, hjob.length]
    omega
  -- the chunks of the group, by their rank in it
  have hmem : ∀ i < g.nChunks, ∀ cp, out.chunkPlans[g.firstChunk + i]? = some cp →
      cp ∈ g.chunks out.chunkPlans := by
    intro i hi cp hcp
    refine mem_of_getElem? (i := i) ?_
    rw [ReadOpGroup.chunks, getElem?_take_of_lt hi, getElem?_drop, hcp]
  obtain ⟨c, hc⟩ : ∃ c, s.chunkPlans[g.firstChunk]? = some c := by
    have := hspec.pos
    exact ⟨_, getElem?_eq_getElem (h.length ▸ (by omega))⟩
  have hhead := h.plan_eq hjob hc
  have hidx := hspec.index _ (hmem 0 hspec.pos _ hhead)
  refine ⟨hfirst, hspec.pos, hnext, hstop, ?_, ?_, fun i hi cp hcp => ?_⟩
  · rw [Packing.start_add, hspec.total, waveSizes, drop_drop, ← hfirst, hjob.sizes,
      ReadOpGroup.chunks, map_take, map_drop]
  · obtain ⟨r, hr, hfits, -⟩ := hout.held.read _ (mem_of_getElem? hhead)
    exact ⟨r, hidx ▸ hr, hfits⟩
  · have hcpidx := hspec.index cp (hmem i hi cp hcp)
    refine ⟨hcpidx, ?_⟩
    rw [isFillGroup, hc, Option.elim_some]
    exact hout.held.fill cp (mem_of_getElem? hcp) _ (mem_of_getElem? hhead)
      (hcpidx.trans hidx.symm)

/-- What the next group adds to the counters of the loop; none of them wraps. -/
structure NextCounts (job : RenderJob) (s : PackState) (g : ReadOpGroup) : Prop where
  take_lt : s.take + g.nChunks < 2 ^ 32
  host_lt : s.hostCursor + hostAdd job.readOps s.chunkPlans g < 2 ^ 64
  host_le : s.hostCursor + hostAdd job.readOps s.chunkPlans g ≤
    (s.take + g.nChunks) * (2 ^ 32 - 1)
  dev_lt : s.devCursor + g.totalDecompressed < 2 ^ 64

theorem Packed.nextCounts (hout : ReadGroups maxChunks out) (hjob : JobAt out job)
    (h : Packed limits job s) (hg : job.readOpGroups[s.completedGroups]? = some g) :
    NextCounts job s g := by
  have hnext := h.nextGroup hout hjob hg
  obtain ⟨r, hr, hfits⟩ := hnext.read
  have hadd : hostAdd job.readOps s.chunkPlans g ≤ 2 ^ 32 - 1 := by
    have hlt := hfits.nbytes_lt
    rw [hostAdd, hjob.readOps, List.getD, hr, Option.getD_some]
    split <;> omega
  have htake : s.take + g.nChunks < 2 ^ 32 := by
    have hstop := hnext.stop_le
    have hfirst := hnext.first
    have hlen := hjob.length ▸ hout.chunks_lt
    omega
  have hhost : s.hostCursor + hostAdd job.readOps s.chunkPlans g ≤
      (s.take + g.nChunks) * (2 ^ 32 - 1) := by
    have hone : 1 * (2 ^ 32 - 1) ≤ g.nChunks * (2 ^ 32 - 1) := Nat.mul_le_mul_right _ hnext.pos
    have hold := h.host_lt
    rw [Nat.add_mul]
    omega
  refine ⟨htake, ?_, hhost, ?_⟩
  · have : (s.take + g.nChunks) * (2 ^ 32 - 1) ≤ (2 ^ 32 - 1) * (2 ^ 32 - 1) :=
      Nat.mul_le_mul_right _ (by omega)
    omega
  · rw [h.dev, hnext.total]
    exact (Packing.start_le_sum _ _).trans_lt (waveSizes_sum_lt hout hjob)

theorem Packed.groupStop_eq_none_iff (hout : ReadGroups maxChunks out) (hjob : JobAt out job)
    (h : Packed limits job s) (hg : job.readOpGroups[s.completedGroups]? = some g) :
    groupStop job.readOps limits s g = none ↔
      s.hostCursor + hostAdd job.readOps s.chunkPlans g ≤ limits.inputCap ∧
      s.take + g.nChunks ≤ limits.maxChunksPerWave ∧
      s.devCursor + g.totalDecompressed ≤ limits.devDecompressedCap := by
  have hcounts := h.nextCounts hout hjob hg
  rw [groupStop, u64_of_lt hcounts.host_lt, u32_of_lt hcounts.take_lt, u64_of_lt hcounts.dev_lt]
  split_ifs with h1 h2 h3
  · simp only [false_iff]
    omega
  · simp only [false_iff]
    omega
  · simp only [false_iff]
    omega
  · simp only [true_iff]
    omega

/-- What a round of the packing loop does that takes a group. -/
structure GroupPacked (job : RenderJob) (s : PackState) (g : ReadOpGroup) (r : ReadOp)
    (s' : PackState) : Prop where
  groups : s'.completedGroups = s.completedGroups + 1
  take : s'.take = s.take + g.nChunks
  plans : plansOf s'.chunkPlans = plansOf s.chunkPlans
  dev : s'.devCursor = Packing.start (waveSizes job) (s.take + g.nChunks)
  other : ∀ j < g.firstChunk, s'.chunkPlans[j]? = s.chunkPlans[j]?
  placed : ∀ i < g.nChunks, s'.chunkPlans[g.firstChunk + i]? =
    s.chunkPlans[g.firstChunk + i]?.map fun c => { c with
      hostBufOffset := if isFillGroup s.chunkPlans g then 0 else s.hostCursor
      devDecompressedOffset := u32 (Packing.start (waveSizes job) (s.take + i)) }
  add : hostAdd job.readOps s.chunkPlans g = if isFillGroup s.chunkPlans g then 0 else r.nbytes
  host : s'.hostCursor = s.hostCursor + hostAdd job.readOps s.chunkPlans g
  reads : s'.reads = if isFillGroup s.chunkPlans g then s.reads
    else s.reads ++ [⟨r.shardPath, s.hostCursor, r.fileOffset, r.nbytes⟩]

theorem Packed.groupPacked (hout : ReadGroups maxChunks out) (hjob : JobAt out job)
    (h : Packed limits job s) (hg : job.readOpGroups[s.completedGroups]? = some g) {r : ReadOp}
    (hr : out.readOps[g.readOpIdx]? = some r) :
    GroupPacked job s g r (packGroup job.readOps s g) := by
  have hcounts := h.nextCounts hout hjob hg
  have hnext := h.nextGroup hout hjob hg
  have hgetD : job.readOps.getD g.readOpIdx ReadOp.blank = r := by
    rw [hjob.readOps, List.getD, hr, Option.getD_some]
  have hslice : ((sizesOf s.chunkPlans).drop g.firstChunk) = (waveSizes job).drop s.take := by
    rw [h.sizes, waveSizes, drop_drop, hnext.first]
  have htotal := hcounts.dev_lt
  rw [h.dev, hnext.total] at htotal
  obtain ⟨hplans, hdev, hother, hplaced⟩ := foldl_placeChunk
    (if isFillGroup s.chunkPlans g then 0 else s.hostCursor) s.devCursor
    (h.length ▸ hnext.stop_le : g.firstChunk + g.nChunks ≤ s.chunkPlans.length) (by
      rw [hslice, h.dev, ← Packing.start_add]
      exact htotal)
  rw [hslice, h.dev, ← Packing.start_add] at hdev
  simp only [hslice, h.dev, ← Packing.start_add] at hplaced
  have hadd : hostAdd job.readOps s.chunkPlans g =
      if isFillGroup s.chunkPlans g then 0 else r.nbytes := by rw [hostAdd, hgetD]
  have hhost : (packGroup job.readOps s g).hostCursor =
      s.hostCursor + hostAdd job.readOps s.chunkPlans g := by
    have hlt := hcounts.host_lt
    rw [packGroup, hgetD]
    dsimp only
    rw [hadd] at hlt ⊢
    split
    · rfl
    · rename_i hnfill
      rw [if_neg hnfill] at hlt
      exact u64_of_lt hlt
  have hreads : (packGroup job.readOps s g).reads = if isFillGroup s.chunkPlans g then s.reads
      else s.reads ++ [⟨r.shardPath, s.hostCursor, r.fileOffset, r.nbytes⟩] := by
    rw [← hgetD]
    rfl
  refine ⟨rfl, u32_of_lt hcounts.take_lt, hplans, ?_, fun j hj => ?_, fun i hi => ?_, hadd, hhost,
    hreads⟩
  · rw [packGroup, h.dev]
    exact hdev
  · exact hother j (.inl hj)
  · rw [packGroup, h.dev]
    exact hplaced i hi

section Round

variable {r : ReadOp} {s' : PackState}

theorem GroupPacked.cases (hp : GroupPacked job s g r s') (hjob : JobAt out job)
    (h : Packed limits job s) (hnext : NextGroup out job s g) {i : ℕ} (hi : i < s'.take)
    {c : PlacedChunk} (hc : s'.chunkPlans[job.nChunksDispatched + i]? = some c) :
    (i < s.take ∧ s.chunkPlans[job.nChunksDispatched + i]? = some c) ∨
      c.hostBufOffset = (if isFillGroup s.chunkPlans g then 0 else s.hostCursor) ∧
        c.devDecompressedOffset = u32 (Packing.start (waveSizes job) i) ∧
        c.readOpIdx = g.readOpIdx ∧ c.isFill = isFillGroup s.chunkPlans g := by
  have hfirst := hnext.first
  rw [hp.take] at hi
  by_cases hit : i < s.take
  · rw [hp.other _ (by omega)] at hc
    exact .inl ⟨hit, hc⟩
  · obtain ⟨j, rfl⟩ := Nat.exists_eq_add_of_le (Nat.le_of_not_lt hit)
    rw [← Nat.add_assoc, ← hfirst, hp.placed j (by omega), Option.map_eq_some_iff] at hc
    obtain ⟨c', hc', rfl⟩ := hc
    obtain ⟨hidx, hfl⟩ := hnext.chunks j (by omega) _ (h.plan_eq hjob hc')
    exact .inr ⟨rfl, rfl, hidx, hfl⟩

theorem GroupPacked.chunk_read (hp : GroupPacked job s g r s') (hjob : JobAt out job)
    (h : Packed limits job s) (hnext : NextGroup out job s g)
    (hr : out.readOps[g.readOpIdx]? = some r) {i : ℕ} (hi : i < s'.take) {c : PlacedChunk}
    (hc : s'.chunkPlans[job.nChunksDispatched + i]? = some c) (hcfill : c.isFill = false) :
    ∃ r, job.readOps[c.readOpIdx]? = some r ∧
      ⟨r.shardPath, c.hostBufOffset, r.fileOffset, r.nbytes⟩ ∈ s'.reads := by
  rw [hp.reads]
  rcases hp.cases hjob h hnext hi hc with ⟨hit, hc'⟩ | ⟨hho, -, hidx, hfl⟩
  · obtain ⟨r', hr', hmem⟩ := h.host i hit c hc' hcfill
    refine ⟨r', hr', ?_⟩
    split
    · exact hmem
    · exact mem_append_left _ hmem
  · have hfalse := hfl.symm.trans hcfill
    refine ⟨r, by rw [hidx, hjob.readOps, hr], ?_⟩
    rw [hfalse, if_neg Bool.false_ne_true, hho, hfalse, if_neg Bool.false_ne_true]
    exact mem_append_right _ (mem_singleton_self _)

theorem Packed.groupsLeft (h : Packed limits job s)
    (hg : job.readOpGroups[s.completedGroups]? = some g) :
    job.groupsLeft[s.completedGroups - job.nGroupsDispatched]? = some g := by
  rw [RenderJob.groupsLeft, getElem?_drop, Nat.add_sub_cancel' h.groups_ge, hg]

theorem GroupPacked.input (hp : GroupPacked job s g r s') (h : Packed limits job s)
    (hg : job.readOpGroups[s.completedGroups]? = some g) :
    s'.hostCursor = inputStart job (s'.completedGroups - job.nGroupsDispatched) := by
  obtain ⟨hlt, heq⟩ := List.getElem?_eq_some_iff.1 (h.groupsLeft hg)
  rw [hp.host, h.input, hostAdd_congr h.plans, hp.groups, Nat.succ_sub h.groups_ge, inputStart,
    inputStart, Packing.start_succ (by rwa [groupInputs, length_map])]
  simp only [groupInputs, getElem_map, heq]

theorem GroupPacked.placed_groups (hp : GroupPacked job s g r s') (hout : ReadGroups maxChunks out)
    (hjob : JobAt out job) (h : Packed limits job s) (hnext : NextGroup out job s g)
    (hg : job.readOpGroups[s.completedGroups]? = some g) {k : ℕ} {g' : ReadOpGroup}
    (hg' : job.groupsLeft[k]? = some g') (hlt : job.nGroupsDispatched + k < s'.completedGroups)
    {i : ℕ} (hi : i < g'.nChunks) : s'.chunkPlans[g'.firstChunk + i]? =
      job.chunkPlans[g'.firstChunk + i]?.map (placedAt job k i) := by
  have hge := h.groups_ge
  have hcount := h.count hjob
  rw [hp.groups] at hlt
  rcases Nat.lt_succ_iff_lt_or_eq.mp hlt with hold | hnew
  · obtain ⟨hfirst', hsucc'⟩ := hjob.group_first hout hg'
    have hmono : Packing.start (groupCounts job) (k + 1) ≤
        Packing.start (groupCounts job) (s.completedGroups - job.nGroupsDispatched) :=
      Packing.start_mono (by omega)
    have hfirst := hnext.first
    rw [hp.other _ (by omega), h.placed k g' hg' hold i hi]
  · obtain rfl : k = s.completedGroups - job.nGroupsDispatched := by omega
    obtain rfl := Option.some.inj ((h.groupsLeft hg).symm.trans hg')
    rw [hp.placed i hi]
    have hsame : s.chunkPlans[g.firstChunk + i]?.map PlacedChunk.toChunkPlan =
        job.chunkPlans[g.firstChunk + i]?.map PlacedChunk.toChunkPlan := by
      rw [← getElem?_map, ← getElem?_map]
      exact congrArg (·[g.firstChunk + i]?) h.plans
    cases hold : s.chunkPlans[g.firstChunk + i]? with
    | none =>
      rw [hold] at hsame
      rw [Option.map_none] at hsame ⊢
      rw [Option.map_eq_none_iff.1 hsame.symm, Option.map_none]
    | some c =>
      obtain ⟨-, hfl⟩ := hnext.chunks i hi _ (h.plan_eq hjob hold)
      rw [hold, Option.map_some] at hsame
      obtain ⟨c', hc', hplan⟩ := Option.map_eq_some_iff.1 hsame.symm
      rw [hc', Option.map_some, Option.map_some, placedAt, deviceStart, hplan, ← hcount, hfl,
        h.input]

theorem GroupPacked.reads_le (hp : GroupPacked job s g r s') (h : Packed limits job s) :
    ∀ read ∈ s'.reads, read.dst + read.len ≤ s'.hostCursor := by
  intro read hread
  rw [hp.reads] at hread
  rw [hp.host, hp.add]
  split at hread
  · exact (h.reads_le read hread).trans (Nat.le_add_right _ _)
  · rename_i hnfill
    rw [if_neg hnfill]
    rcases mem_append.mp hread with hread | hread
    · exact (h.reads_le read hread).trans (Nat.le_add_right _ _)
    · obtain rfl := mem_singleton.mp hread
      exact le_rfl

theorem GroupPacked.reads_apart (hp : GroupPacked job s g r s') (h : Packed limits job s) :
    s'.reads.Pairwise fun a b => a.dst + a.len ≤ b.dst := by
  rw [hp.reads]
  split
  · exact h.reads_apart
  · refine pairwise_append.mpr ⟨h.reads_apart, pairwise_singleton _ _, ?_⟩
    intro a ha b hb
    obtain rfl := mem_singleton.mp hb
    exact h.reads_le a ha

end Round

/-- **One round of the packing loop.** -/
theorem Packed.step (hout : ReadGroups maxChunks out) (hjob : JobAt out job)
    (h : Packed limits job s) (hg : job.readOpGroups[s.completedGroups]? = some g)
    (hstop : groupStop job.readOps limits s g = none) :
    Packed limits job (packGroup job.readOps s g) := by
  obtain ⟨hhost, hchunks, hdev⟩ := (h.groupStop_eq_none_iff hout hjob hg).mp hstop
  have hcounts := h.nextCounts hout hjob hg
  have hnext := h.nextGroup hout hjob hg
  obtain ⟨r, hr, -⟩ := hnext.read
  have hp := h.groupPacked hout hjob hg hr
  rw [h.dev, hnext.total] at hdev
  constructor
  case groups_ge => exact h.groups_ge.trans (Nat.le_succ _)
  case groups_le => exact (List.getElem?_eq_some_iff.mp hg).1
  case take => exact hp.take ▸ hnext.next
  case plans => exact hp.plans.trans h.plans
  case dev => rw [hp.dev, hp.take]
  case device =>
    intro i hi c hc
    rcases hp.cases hjob h hnext hi hc with ⟨hit, hc'⟩ | ⟨-, hdev', -⟩
    · exact h.device i hit c hc'
    · exact hdev'
  case host => exact fun i hi c hc hfill => hp.chunk_read hjob h hnext hr hi hc hfill
  case input => exact hp.input h hg
  case placed => exact fun k g' hg' hlt i hi => hp.placed_groups hout hjob h hnext hg hg' hlt hi
  case reads_le => exact hp.reads_le h
  case reads_apart => exact hp.reads_apart h
  case host_lt => exact hp.host ▸ hp.take ▸ hcounts.host_le
  case host_le => exact hp.host ▸ hhost
  case dev_le => exact hp.dev ▸ hdev
  case take_le => exact hp.take ▸ hchunks
  case fits =>
    intro k g' hle hlt hg'
    rcases Nat.lt_succ_iff_lt_or_eq.mp hlt with hk | rfl
    · exact h.fits k g' hle hk hg'
    · obtain rfl := Option.some.inj (hg.symm.trans hg')
      rw [hostAdd_congr h.plans] at hhost
      have hdev' := (hnext.total ▸ hdev : _ ≤ limits.devDecompressedCap)
      exact ⟨by omega, by omega, by omega⟩

/-- **The packing loop.** -/
theorem Packed.run (hout : ReadGroups maxChunks out) (hjob : JobAt out job)
    (h : Packed limits job s) {rest : List ReadOpGroup}
    (hrest : rest = job.readOpGroups.drop s.completedGroups) :
    Packed limits job (packGroups job.readOps limits rest s).1 ∧
      s.completedGroups ≤ (packGroups job.readOps limits rest s).1.completedGroups := by
  induction rest generalizing s with
  | nil => exact ⟨h, le_rfl⟩
  | cons g rest ih =>
    have hg : job.readOpGroups[s.completedGroups]? = some g := by
      rw [← head?_drop, ← hrest, head?_cons]
    have htail : rest = job.readOpGroups.drop (s.completedGroups + 1) := by
      rw [← tail_drop, ← hrest, tail_cons]
    rw [packGroups]
    split
    · exact ⟨h, le_rfl⟩
    · rename_i hstop
      obtain ⟨hrun, hle⟩ := ih (h.step hout hjob hg hstop) htail
      exact ⟨hrun, (Nat.le_succ _).trans hle⟩

theorem packWave_packed (hout : ReadGroups maxChunks out) (hjob : JobAt out job)
    (limits : WavePackLimits) : Packed limits job (packWave job limits).1 ∧
      job.nGroupsDispatched ≤ (packWave job limits).1.completedGroups :=
  (Packed.init hjob).run hout hjob rfl

theorem JobAt.hasWork_iff (hout : ReadGroups maxChunks out) (hjob : JobAt out job) :
    renderJobHasWork job = true ↔ job.nGroupsDispatched < job.readOpGroups.length := by
  have hsum : (job.readOpGroups.map ReadOpGroup.nChunks).sum = job.chunkPlans.length := by
    rw [hjob.groups, hout.tiles.sum, hjob.length]
  simp only [renderJobHasWork, hjob.state, beq_self_eq_true, Bool.true_and, decide_eq_true_eq]
  constructor
  · intro hlt
    refine lt_of_le_of_ne hjob.groups_le fun heq => ?_
    have hstart := Packing.start_length (job.readOpGroups.map ReadOpGroup.nChunks)
    rw [length_map, ← heq, ← hjob.chunks] at hstart
    omega
  · intro hlt
    have hinit : Packed ⟨0, 0, 0⟩ job _ := Packed.init hjob
    have hnext := hinit.nextGroup hout hjob (getElem?_eq_getElem hlt)
    have hfirst := hnext.first
    have hpos := hnext.pos
    have hstop := hnext.stop_le
    omega

theorem packWave_completes (hout : ReadGroups maxChunks out) (hjob : JobAt out job)
    (htake : (packWave job limits).1.take ≠ 0) :
    job.nGroupsDispatched < (packWave job limits).1.completedGroups := by
  obtain ⟨hpacked, hle⟩ := packWave_packed hout hjob limits
  refine lt_of_le_of_ne hle fun heq => htake ?_
  have hstart := hpacked.take
  rw [← heq, ← hjob.chunks] at hstart
  omega

theorem packWave_take_ne_zero_iff (hout : ReadGroups maxChunks out) (hjob : JobAt out job)
    (hg : job.readOpGroups[job.nGroupsDispatched]? = some g) :
    (packWave job limits).1.take ≠ 0 ↔ GroupFits limits job g := by
  have hinit : Packed limits job ⟨0, 0, 0, job.nGroupsDispatched, [], job.chunkPlans⟩ :=
    Packed.init hjob
  obtain ⟨hpacked, -⟩ := packWave_packed hout hjob limits
  constructor
  · intro htake
    exact hpacked.fits _ g le_rfl (packWave_completes hout hjob htake) hg
  · intro hfits
    have hnone : groupStop job.readOps limits
        ⟨0, 0, 0, job.nGroupsDispatched, [], job.chunkPlans⟩ g = none := by
      rw [hinit.groupStop_eq_none_iff hout hjob hg]
      exact ⟨by simpa using hfits.host, by simpa using hfits.chunks, by simpa using hfits.dev⟩
    have hdrop : job.readOpGroups.drop job.nGroupsDispatched =
        g :: job.readOpGroups.drop (job.nGroupsDispatched + 1) :=
      drop_eq_getElem?_toList_append.trans (by rw [hg]; rfl)
    have hstep := hinit.step hout hjob hg hnone
    obtain ⟨hrun, hmono⟩ := hstep.run hout hjob rfl
    have hpos := (hinit.nextGroup hout hjob hg).pos
    have hwave : (packWave job limits).1 = (packGroups job.readOps limits
        (job.readOpGroups.drop (job.nGroupsDispatched + 1)) (packGroup job.readOps
          ⟨0, 0, 0, job.nGroupsDispatched, [], job.chunkPlans⟩ g)).1 := by
      rw [packWave, hdrop, packGroups, hnone]
    rw [hwave]
    -- the wave holds at least the chunks of its first group
    have hfirst := hstep.take
    have hlast := hrun.take
    have hchunks := (hinit.nextGroup hout hjob hg).next
    have hstart : Packing.start (job.readOpGroups.map ReadOpGroup.nChunks) _ ≤
      Packing.start (job.readOpGroups.map ReadOpGroup.nChunks) _ := Packing.start_mono hmono
    simp only [packGroup] at hfirst hlast hstart hmono hchunks ⊢
    omega

/-! ## Reserving -/

theorem waveDispatcherReserve_status (hwork : renderJobHasWork job = true) (idx : ℕ) :
    (waveDispatcherReserve job idx limits).status =
      if (packWave job limits).1.take = 0 then .budget else .ok := by
  simp only [waveDispatcherReserve, hwork, Bool.true_eq_false, if_false]
  split <;> rfl

theorem waveDispatcherReserve_ok (hwork : renderJobHasWork job = true) (idx : ℕ)
    (hok : (waveDispatcherReserve job idx limits).status = .ok) :
    (packWave job limits).1.take ≠ 0 ∧
    (waveDispatcherReserve job idx limits).job = { job with
      chunkPlans := (packWave job limits).1.chunkPlans
      nChunksDispatched := u32 (job.nChunksDispatched + (packWave job limits).1.take)
      nGroupsDispatched := (packWave job limits).1.completedGroups } ∧
    (waveDispatcherReserve job idx limits).reads = (packWave job limits).1.reads ∧
    (waveDispatcherReserve job idx limits).desc.nChunks = (packWave job limits).1.take ∧
    (waveDispatcherReserve job idx limits).desc.batchChunkOffset = job.nChunksDispatched ∧
    (waveDispatcherReserve job idx limits).desc.prevNGroupsDispatched =
      job.nGroupsDispatched := by
  rw [waveDispatcherReserve_status hwork] at hok
  have htake : (packWave job limits).1.take ≠ 0 := fun h0 => by simp [h0] at hok
  refine ⟨htake, ?_⟩
  simp [waveDispatcherReserve, hwork, htake]

theorem waveDispatcherReserve_idle (limits : WavePackLimits)
    (hwork : renderJobHasWork job = false) (idx : ℕ) :
    (waveDispatcherReserve job idx limits).job = job ∧
      (waveDispatcherReserve job idx limits).desc.nChunks = 0 ∧
      (waveDispatcherReserve job idx limits).desc.prevNGroupsDispatched =
        job.nGroupsDispatched := by
  simp [waveDispatcherReserve, hwork]

theorem JobAt.reserve (hout : ReadGroups maxChunks out) (hjob : JobAt out job) (idx : ℕ)
    (hok : (waveDispatcherReserve job idx limits).status = .ok) :
    JobAt out (waveDispatcherReserve job idx limits).job := by
  cases hwork : renderJobHasWork job with
  | false => rwa [(waveDispatcherReserve_idle limits hwork idx).1]
  | true =>
    obtain ⟨hpacked, -⟩ := packWave_packed hout hjob limits
    obtain ⟨-, heq, -⟩ := waveDispatcherReserve_ok hwork idx hok
    rw [heq]
    refine ⟨hjob.state, hjob.readOps, hjob.groups, hpacked.plans.trans hjob.plans,
      hpacked.groups_le, ?_⟩
    have hlt := Packing.start_le_sum (job.readOpGroups.map ReadOpGroup.nChunks)
      (packWave job limits).1.completedGroups
    rw [← hpacked.take, hjob.groups, hout.tiles.sum] at hlt
    have := hout.chunks_lt
    show u32 (job.nChunksDispatched + (packWave job limits).1.take) = _
    rw [u32_of_lt (by omega)]
    exact hpacked.take

theorem JobAt.rollback (hout : ReadGroups maxChunks out) (hjob : JobAt out job) (idx : ℕ)
    (hok : (waveDispatcherReserve job idx limits).status = .ok) :
    JobAt out (renderJobRollbackWave (waveDispatcherReserve job idx limits).job
      (waveDispatcherReserve job idx limits).desc) := by
  have hlt : job.nChunksDispatched < 2 ^ 32 := by
    have := Packing.start_le_sum (job.readOpGroups.map ReadOpGroup.nChunks) job.nGroupsDispatched
    rw [← hjob.chunks, hjob.groups, hout.tiles.sum] at this
    exact this.trans_lt hout.chunks_lt
  have hafter := hjob.reserve hout idx hok
  cases hwork : renderJobHasWork job with
  | false =>
    obtain ⟨hj, hn, hg⟩ := waveDispatcherReserve_idle limits hwork idx
    rw [renderJobRollbackWave, hj, hn, hg]
    have hzero : u32 (job.nChunksDispatched + (2 ^ 32 - 0)) = job.nChunksDispatched := by
      rw [u32]
      omega
    rw [hzero]
    exact hjob
  | true =>
    obtain ⟨hpacked, -⟩ := packWave_packed hout hjob limits
    obtain ⟨-, heq, -, hn, -, hg⟩ := waveDispatcherReserve_ok hwork idx hok
    have hsum := Packing.start_le_sum (job.readOpGroups.map ReadOpGroup.nChunks)
      (packWave job limits).1.completedGroups
    rw [← hpacked.take, hjob.groups, hout.tiles.sum] at hsum
    have hcount := hout.chunks_lt
    rw [renderJobRollbackWave, hn, hg, heq]
    refine ⟨hjob.state, hjob.readOps, hjob.groups, hpacked.plans.trans hjob.plans,
      hjob.groups_le, ?_⟩
    have hback : u32 (u32 (job.nChunksDispatched + (packWave job limits).1.take) +
        (2 ^ 32 - (packWave job limits).1.take)) = job.nChunksDispatched := by
      rw [u32, u32]
      omega
    exact hback.trans hjob.chunks

/-- **Every job that waves are reserved from stands at the start of a group.** -/
theorem JobRun.jobAt (hout : ReadGroups maxChunks out) (h : JobRun limits out job) :
    JobAt out job := by
  induction h with
  | commit slot batchId =>
    refine ⟨rfl, rfl, rfl, ?_, Nat.zero_le _, rfl⟩
    rw [renderJobCommitPlan, plansOf, map_map]
    exact map_id _
  | reserve idx _ hok ih => exact ih.reserve hout idx hok
  | rollback idx _ hok ih => exact ih.rollback hout idx hok

end Pack

end Damacy

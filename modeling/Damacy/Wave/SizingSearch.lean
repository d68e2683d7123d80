import Damacy.Wave.WaveBudget

/-!
# The search for the size of a wave

`wave_pool_resolve_sizing` starts from the largest size that the budget might allow and shrinks it by
steps of 1 MiB until the prediction fits. The size is a `uint64_t`, and a step from below 1 MiB wraps
around to a size close to `2 ^ 64`. `wavePoolResolveSizing_iff` says that this is the only way in
which the search goes wrong: it ends within the steps that its start allows and returns sizes that
are predicted to fit, unless it takes such a step.
-/

namespace Damacy

/-! ## The contract -/

structure NvComp.Total (nv : NvComp) : Prop where
  zstd : ∀ n block total, (nv.zstdTempBytes n block total).isSome
  lz4 : ∀ n block total, (nv.lz4TempBytes n block total).isSome

structure NvComp.Monotone (nv : NvComp) : Prop where
  zstd : ∀ n n' block block' total total' t t', n ≤ n' → block ≤ block' → total ≤ total' →
    nv.zstdTempBytes n block total = some t → nv.zstdTempBytes n' block' total' = some t' → t ≤ t'
  lz4 : ∀ n n' block block' total total' t t', n ≤ n' → block ≤ block' → total ≤ total' →
    nv.lz4TempBytes n block total = some t → nv.lz4TempBytes n' block' total' = some t' → t ≤ t'

/-- The limits of the configuration on the arguments of the sizing. -/
structure PoolShape.InLimits (shape : PoolShape) : Prop where
  chunks : 0 < shape.maxChunksPerWave ∧ shape.maxChunksPerWave ≤ 65535
  substreams : shape.maxSubstreamsPerWave < 2 ^ 32
  staging : shape.stagingBuffers < 2 ^ 8
  chunkBytes : 0 < shape.maxChunkBytes ∧ shape.maxChunkBytes < 2 ^ 32

section Search

variable {nv : NvComp} {shape : PoolShape} {maxBytes maxReadBytes pageAlignment : ℕ}

/-- The prediction for a wave of `perWave` bytes and the smallest input buffers for it. -/
def predictWave (nv : NvComp) (shape : PoolShape) (pageAlignment perWave : ℕ) : Except Status ℕ :=
  predictPoolTotal nv shape (max perWave (max shape.maxChunkBytes pageAlignment)) perWave

/-- The size that the search starts from, given the prediction for the smallest size. -/
def startPerWave (shape : PoolShape) (maxBytes totalMin : ℕ) : ℕ :=
  min (max (u64 (shape.maxChunkBytes +
      (maxBytes - totalMin) / (shape.stagingBuffers + nWaves) / sizingStep * sizingStep))
    shape.maxChunkBytes) (shape.maxChunksPerWave * shape.maxChunkBytes)

def initialPerWave (nv : NvComp) (shape : PoolShape) (maxBytes pageAlignment : ℕ) : ℕ :=
  match predictWave nv shape pageAlignment shape.maxChunkBytes with
  | .ok totalMin => startPerWave shape maxBytes totalMin
  | .error _ => shape.maxChunkBytes

/-- What the sizing promises. Every shrink step takes one unit of fuel, and so does the check that
ends the search. -/
structure SizingContract (nv : NvComp) (shape : PoolShape) (maxBytes maxReadBytes
    pageAlignment : ℕ) : Prop where
  terminates : (wavePoolResolveSizing nv shape maxBytes maxReadBytes pageAlignment
    ((initialPerWave nv shape maxBytes pageAlignment - shape.maxChunkBytes) / sizingStep + 1 +
      1)).isSome
  result : ∀ fuel sizing, wavePoolResolveSizing nv shape maxBytes maxReadBytes pageAlignment fuel =
      some (.ok sizing) →
    shape.maxChunkBytes ≤ sizing.devDecompressedPerWave ∧
    sizing.devDecompressedPerWave ≤ shape.maxChunksPerWave * shape.maxChunkBytes ∧
    sizing.devDecompressedPerWave ≤ sizing.inputStagingPerWave ∧
    predictPoolTotal nv shape sizing.inputStagingPerWave sizing.devDecompressedPerWave =
      .ok sizing.worstCaseTotalBytes ∧
    sizing.worstCaseTotalBytes ≤ maxBytes

def TooLarge (predict : ℕ → Except Status ℕ) (maxBytes perWave : ℕ) : Prop :=
  ∃ predicted, predict perWave = .ok predicted ∧ maxBytes < predicted

/-- The search takes a step that wraps: the smallest size fits, but neither the initial size nor any
that is a number of whole steps smaller does, and the last of these, which is less than a step, is
still above the smallest size. -/
structure ShrinkWraps (nv : NvComp) (shape : PoolShape) (maxBytes pageAlignment : ℕ) : Prop where
  fits : ∃ totalMin, predictWave nv shape pageAlignment shape.maxChunkBytes = .ok totalMin ∧
    totalMin ≤ maxBytes
  above : shape.maxChunkBytes < initialPerWave nv shape maxBytes pageAlignment % sizingStep
  exceeds : ∀ i ≤ initialPerWave nv shape maxBytes pageAlignment / sizingStep,
    TooLarge (predictWave nv shape pageAlignment) maxBytes
      (initialPerWave nv shape maxBytes pageAlignment - i * sizingStep)

/-! ## Predictions -/

theorem predictDecoderScratchBytes_ok (hnv : nv.Total) (h : shape.InLimits) {perWave n : ℕ}
    (hpos : 0 < perWave) (hn : 0 < n) : ∃ temp,
      predictDecoderScratchBytes nv n shape.maxChunksPerWave perWave shape.maxChunkBytes =
        .ok temp := by
  have hchunks : 0 < shape.maxChunksPerWave * shape.maxChunkBytes :=
    Nat.mul_pos h.chunks.1 h.chunkBytes.1
  have hsubs : 0 < n * shape.maxChunkBytes := Nat.mul_pos hn h.chunkBytes.1
  set total := min (min perWave (shape.maxChunksPerWave * shape.maxChunkBytes))
    (n * shape.maxChunkBytes) with htotal
  have hcaps : waveDecoderCaps n shape.maxChunksPerWave perWave shape.maxChunkBytes =
      (min shape.maxChunkBytes total, total) := by
    rw [waveDecoderCaps, if_neg (not_or.mpr ⟨hpos.ne', h.chunkBytes.1.ne'⟩)]
  have hargs : ¬ (n = 0 ∨ min shape.maxChunkBytes total = 0 ∨ total = 0) := by
    have := h.chunkBytes.1
    omega
  obtain ⟨zstd, hzstd⟩ := Option.isSome_iff_exists.mp
    (hnv.zstd n (min shape.maxChunkBytes total) total)
  obtain ⟨lz4, hlz4⟩ := Option.isSome_iff_exists.mp
    (hnv.lz4 n (min shape.maxChunkBytes total) total)
  have hquery : decoderBatchQueryTempBytes nv n (min shape.maxChunkBytes total) total =
      some (max zstd lz4) := by
    rw [decoderBatchQueryTempBytes, if_neg hargs, hzstd, hlz4]
    rfl
  refine ⟨u64 (max zstd lz4 + n * 8 + n * 4), ?_⟩
  rw [predictDecoderScratchBytes, hcaps]
  simp only [hquery]

theorem predictPoolTotal_ok (hnv : nv.Total) (h : shape.InLimits) {perWave : ℕ}
    (hpos : 0 < perWave) : ∃ rest, ∀ input, predictPoolTotal nv shape input perWave =
      .ok (u64 (shape.stagingBuffers * input + rest)) := by
  obtain ⟨temp, htemp⟩ := predictDecoderScratchBytes_ok hnv h hpos
    (Nat.lt_of_lt_of_le (by decide : 0 < decoderInitialBatchCap)
      (le_max_right shape.maxSubstreamsPerWave decoderInitialBatchCap))
  refine ⟨2 * (perWave + blosc1MetaBytes shape.maxChunksPerWave +
    max shape.maxSubstreamsPerWave decoderInitialBatchCap * fanoutBytesPerSub) + temp +
    2 * shape.samplesPerBatch * sizeofSamplePlan, fun input => ?_⟩
  rw [predictPoolTotal, htemp]
  show Except.ok (u64 _) = Except.ok (u64 _)
  congr 2
  omega

theorem initialPerWave_eq {totalMin : ℕ}
    (hmin : predictWave nv shape pageAlignment shape.maxChunkBytes = .ok totalMin) :
    initialPerWave nv shape maxBytes pageAlignment = startPerWave shape maxBytes totalMin := by
  rw [initialPerWave, hmin]

theorem predictWave_ok (hnv : nv.Total) (h : shape.InLimits) {perWave : ℕ} (hpos : 0 < perWave) :
    ∃ predicted, predictWave nv shape pageAlignment perWave = .ok predicted := by
  obtain ⟨rest, hrest⟩ := predictPoolTotal_ok hnv h hpos
  exact ⟨_, hrest _⟩

theorem startPerWave_bounds (h : shape.InLimits) (maxBytes totalMin : ℕ) :
    shape.maxChunkBytes ≤ startPerWave shape maxBytes totalMin ∧
      startPerWave shape maxBytes totalMin ≤ shape.maxChunksPerWave * shape.maxChunkBytes ∧
      shape.maxChunksPerWave * shape.maxChunkBytes < 2 ^ 48 := by
  have hle : shape.maxChunkBytes ≤ shape.maxChunksPerWave * shape.maxChunkBytes :=
    Nat.le_mul_of_pos_left _ h.chunks.1
  have hlt : shape.maxChunksPerWave * shape.maxChunkBytes < 2 ^ 48 :=
    calc shape.maxChunksPerWave * shape.maxChunkBytes ≤ 65535 * 2 ^ 32 :=
          Nat.mul_le_mul h.chunks.2 h.chunkBytes.2.le
      _ < 2 ^ 48 := by decide
  rw [startPerWave]
  omega

theorem wavePoolResolveSizing_eq {totalMin predicted : ℕ}
    (hmin : predictWave nv shape pageAlignment shape.maxChunkBytes = .ok totalMin)
    (hfits : totalMin ≤ maxBytes)
    (hstart : predictWave nv shape pageAlignment (startPerWave shape maxBytes totalMin) =
      .ok predicted) (maxReadBytes fuel : ℕ) :
    wavePoolResolveSizing nv shape maxBytes maxReadBytes pageAlignment fuel =
      (shrinkLoop (predictWave nv shape pageAlignment) maxBytes shape.maxChunkBytes fuel
        (startPerWave shape maxBytes totalMin) predicted).map
        (Except.map fun r => finishSizing shape.stagingBuffers maxBytes maxReadBytes
          (max r.1 (max shape.maxChunkBytes pageAlignment)) r.1 r.2) := by
  simp only [predictWave, startPerWave] at hmin hstart
  simp only [wavePoolResolveSizing, hmin, if_neg (not_lt.mpr hfits), hstart]
  -- the search of both sides is the same term
  generalize hloop : shrinkLoop _ maxBytes shape.maxChunkBytes fuel _ predicted = found
  have hloop' : shrinkLoop (predictWave nv shape pageAlignment) maxBytes shape.maxChunkBytes fuel
      (startPerWave shape maxBytes totalMin) predicted = found := hloop
  rw [hloop']
  rcases found with _ | _ | r <;> rfl

end Search

/-! ## The loop -/

section Loop

variable {predict : ℕ → Except Status ℕ} {maxBytes minPerWave start : ℕ}

/-- The search has taken `i` steps from `start`, each from a size that did not fit, or it has arrived
at the smallest size. -/
structure Descended (predict : ℕ → Except Status ℕ) (maxBytes minPerWave start i perWave : ℕ) :
    Prop where
  le : i * sizingStep ≤ start
  eq : perWave = start - i * sizingStep
  above : minPerWave < perWave
  exceeds : ∀ k < i, TooLarge predict maxBytes (start - k * sizingStep)

theorem shrinkLoop_step {fuel perWave predicted predicted' : ℕ} (hlt : perWave < 2 ^ 64)
    (hexc : maxBytes < predicted) (habove : minPerWave < perWave) (hstep : sizingStep ≤ perWave)
    (hnext : predict (max (perWave - sizingStep) minPerWave) = .ok predicted') :
    shrinkLoop predict maxBytes minPerWave (fuel + 1) perWave predicted =
      shrinkLoop predict maxBytes minPerWave fuel (max (perWave - sizingStep) minPerWave)
        predicted' := by
  have hsub : u64Sub perWave sizingStep = perWave - sizingStep := u64Sub_of_le hstep (by omega)
  rw [shrinkLoop, if_pos ⟨hexc, habove⟩, hsub]
  dsimp only
  rw [hnext]

theorem shrinkLoop_done {fuel perWave predicted : ℕ}
    (h : ¬ (maxBytes < predicted ∧ minPerWave < perWave)) :
    shrinkLoop predict maxBytes minPerWave (fuel + 1) perWave predicted =
      some (.ok (perWave, predicted)) := by
  rw [shrinkLoop, if_neg h]

structure Found (predict : ℕ → Except Status ℕ) (maxBytes minPerWave start : ℕ) (r : ℕ × ℕ) :
    Prop where
  le : minPerWave ≤ r.1 ∧ r.1 ≤ start
  predicted : predict r.1 = .ok r.2
  fits : r.2 ≤ maxBytes ∨ r.1 = minPerWave

/-- **The search without a wrap**: it finds a size, within the steps that it can take. -/
theorem shrinkLoop_spec (hpred : ∀ p, 0 < p → ∃ t, predict p = .ok t) (hpos : 0 < minPerWave)
    (hstart : start < 2 ^ 64)
    (hwrap : ¬ (minPerWave < start % sizingStep ∧
      ∀ i ≤ start / sizingStep, TooLarge predict maxBytes (start - i * sizingStep)))
    {fuel i perWave predicted : ℕ} (h : Descended predict maxBytes minPerWave start i perWave)
    (hp : predict perWave = .ok predicted) :
    (∀ r, shrinkLoop predict maxBytes minPerWave fuel perWave predicted = some r →
      ∃ found, r = .ok found ∧ Found predict maxBytes minPerWave start found) ∧
    ((start - minPerWave) / sizingStep + 2 ≤ fuel + i →
      (shrinkLoop predict maxBytes minPerWave fuel perWave predicted).isSome) := by
  have hstepdef : sizingStep = 2 ^ 20 := rfl
  induction fuel generalizing i perWave predicted with
  | zero =>
    refine ⟨fun r hr => absurd hr (by simp [shrinkLoop]), fun hfuel => ?_⟩
    have := h.le
    have := h.eq
    have := h.above
    have hi : i ≤ (start - minPerWave) / sizingStep :=
      (Nat.le_div_iff_mul_le (by decide)).mpr (by omega)
    omega
  | succ fuel ih =>
    have hle := h.le
    have heq := h.eq
    have habove := h.above
    by_cases hexc : maxBytes < predicted
    · -- a size below a step would be the last of a series that does not fit
      have hexceeds : ∀ k ≤ i, TooLarge predict maxBytes (start - k * sizingStep) := by
        intro k hk
        rcases hk.lt_or_eq with hk | rfl
        · exact h.exceeds k hk
        · exact ⟨predicted, heq ▸ hp, hexc⟩
      have hstep : sizingStep ≤ perWave := by
        by_contra hlt
        have hdiv : start / sizingStep = i := Nat.div_eq_of_lt_le (by omega) (by
          rw [Nat.succ_mul]
          omega)
        have hmod : start % sizingStep = perWave := by
          rw [Nat.mod_eq_sub_mul_div, hdiv, Nat.mul_comm]
          omega
        exact hwrap ⟨by omega, by rwa [hdiv]⟩
      obtain ⟨t, ht⟩ := hpred (max (perWave - sizingStep) minPerWave) (by omega)
      rw [shrinkLoop_step (by omega) hexc habove hstep ht]
      by_cases hnext : minPerWave < perWave - sizingStep
      · rw [Nat.max_eq_left hnext.le] at ht ⊢
        have hsucc : (i + 1) * sizingStep = i * sizingStep + sizingStep := Nat.succ_mul _ _
        have hdesc : Descended predict maxBytes minPerWave start (i + 1) (perWave - sizingStep) :=
          ⟨by omega, by omega, hnext, fun k hk => hexceeds k (by omega)⟩
        obtain ⟨hres, hterm⟩ := ih hdesc ht
        exact ⟨hres, fun hfuel => hterm (by omega)⟩
      · rw [Nat.max_eq_right (not_lt.mp hnext)] at ht ⊢
        cases fuel with
        | zero =>
          refine ⟨fun r hr => absurd hr (by simp [shrinkLoop]), fun hfuel => ?_⟩
          have hi : i ≤ (start - minPerWave) / sizingStep :=
            (Nat.le_div_iff_mul_le (by decide)).mpr (by omega)
          omega
        | succ fuel =>
          rw [shrinkLoop_done fun hc => lt_irrefl _ hc.2]
          refine ⟨fun r hr => ⟨(minPerWave, t), (Option.some.inj hr).symm, ?_⟩, fun _ => rfl⟩
          exact ⟨⟨le_rfl, by omega⟩, ht, .inr rfl⟩
    · rw [shrinkLoop_done fun hc => hexc hc.1]
      refine ⟨fun r hr => ⟨(perWave, predicted), (Option.some.inj hr).symm, ?_⟩, fun _ => rfl⟩
      exact ⟨⟨habove.le, by omega⟩, hp, .inl (not_lt.mp hexc)⟩

theorem shrinkLoop_last (hstart : start < 2 ^ 64) (habove : minPerWave < start % sizingStep)
    (hexceeds : ∀ i ≤ start / sizingStep, TooLarge predict maxBytes (start - i * sizingStep))
    (fuel n : ℕ) {i predicted : ℕ} (hi : i + n = start / sizingStep)
    (hp : predict (start - i * sizingStep) = .ok predicted) :
    ∃ predicted', predict (start % sizingStep) = .ok predicted' ∧
      shrinkLoop predict maxBytes minPerWave (fuel + n) (start - i * sizingStep) predicted =
        shrinkLoop predict maxBytes minPerWave fuel (start % sizingStep) predicted' := by
  have hsplit := Nat.div_add_mod start sizingStep
  rw [Nat.mul_comm] at hsplit
  induction n generalizing i predicted with
  | zero =>
    obtain rfl : i = start / sizingStep := hi
    have hmod : start - start / sizingStep * sizingStep = start % sizingStep := by omega
    rw [hmod] at hp ⊢
    exact ⟨predicted, hp, rfl⟩
  | succ n ih =>
    have hsucc : (i + 1) * sizingStep = i * sizingStep + sizingStep := Nat.succ_mul _ _
    have hmul : (i + 1) * sizingStep ≤ start / sizingStep * sizingStep :=
      Nat.mul_le_mul_right _ (by omega)
    obtain ⟨p, hpred, hexc⟩ := hexceeds i (by omega)
    obtain rfl : p = predicted := Except.ok.inj (hpred.symm.trans hp)
    obtain ⟨p', hnext, -⟩ := hexceeds (i + 1) (by omega)
    have hnexteq : max (start - i * sizingStep - sizingStep) minPerWave =
        start - (i + 1) * sizingStep := by
      rw [Nat.sub_sub, ← hsucc]
      exact Nat.max_eq_left (by omega)
    have hstep : shrinkLoop predict maxBytes minPerWave (fuel + n + 1) (start - i * sizingStep) p =
        shrinkLoop predict maxBytes minPerWave (fuel + n) (start - (i + 1) * sizingStep) p' := by
      rw [← hnexteq]
      exact shrinkLoop_step (by omega) hexc (by omega) (by omega) (by rw [hnexteq, hnext])
    obtain ⟨last, hlast, hrun⟩ := ih (by omega) hnext
    exact ⟨last, hlast, hstep.trans hrun⟩

/-- **The wrap**: from a size below a step the search goes to one close to `2 ^ 64`, and either ends
there or is not done after one more step. -/
theorem shrinkLoop_wrap (hpred : ∀ p, 0 < p → ∃ t, predict p = .ok t) (hpos : 0 < minPerWave)
    {perWave predicted : ℕ} (hlt : perWave < sizingStep) (habove : minPerWave < perWave)
    (hexc : maxBytes < predicted) :
    shrinkLoop predict maxBytes minPerWave 2 perWave predicted = none ∨
      ∃ found, shrinkLoop predict maxBytes minPerWave 2 perWave predicted = some (.ok found) ∧
        2 ^ 63 ≤ found.1 := by
  have hstepdef : sizingStep = 2 ^ 20 := rfl
  have hsub : u64Sub perWave sizingStep = perWave + 2 ^ 64 - sizingStep := by
    simp only [u64Sub, u64, hstepdef]
    omega
  set huge := max (u64Sub perWave sizingStep) minPerWave with hhuge
  obtain ⟨t, ht⟩ := hpred huge (by omega)
  have hfirst : shrinkLoop predict maxBytes minPerWave 2 perWave predicted =
      shrinkLoop predict maxBytes minPerWave 1 huge t := by
    rw [shrinkLoop, if_pos ⟨hexc, habove⟩]
    dsimp only
    rw [← hhuge, ht]
  rw [hfirst]
  by_cases hc : maxBytes < t ∧ minPerWave < huge
  · obtain ⟨t', ht'⟩ := hpred (max (u64Sub huge sizingStep) minPerWave) (by omega)
    left
    rw [shrinkLoop, if_pos hc]
    dsimp only
    rw [ht']
    rfl
  · exact .inr ⟨_, shrinkLoop_done hc, by rw [hhuge, hsub]; omega⟩

end Loop

/-! ## The sizing -/

section Sizing

variable {nv : NvComp} {shape : PoolShape} {maxBytes maxReadBytes pageAlignment : ℕ}

theorem finishSizing_spec (hnv : nv.Total) (h : shape.InLimits) (hmax : maxBytes < 2 ^ 64)
    (maxReadBytes : ℕ) {perWave predicted : ℕ} (hpos : 0 < perWave)
    (hp : predictWave nv shape pageAlignment perWave = .ok predicted) (hfits : predicted ≤ maxBytes) :
    let sizing := finishSizing shape.stagingBuffers maxBytes maxReadBytes
      (max perWave (max shape.maxChunkBytes pageAlignment)) perWave predicted
    sizing.devDecompressedPerWave = perWave ∧ perWave ≤ sizing.inputStagingPerWave ∧
      predictPoolTotal nv shape sizing.inputStagingPerWave perWave =
        .ok sizing.worstCaseTotalBytes ∧ sizing.worstCaseTotalBytes ≤ maxBytes := by
  intro sizing
  set input := max perWave (max shape.maxChunkBytes pageAlignment) with hinput
  obtain ⟨rest, hrest⟩ := predictPoolTotal_ok hnv h hpos
  have hpredicted : u64 (shape.stagingBuffers * input + rest) = predicted :=
    Except.ok.inj ((hrest input).symm.trans hp)
  obtain ⟨extra, hsizing, hextra⟩ : ∃ extra,
      sizing = ⟨input + extra, perWave, predicted + extra * shape.stagingBuffers⟩ ∧
      extra * shape.stagingBuffers ≤ maxBytes - predicted := by
    refine ⟨_, rfl, ?_⟩
    split
    · rename_i hc
      rw [u64Sub_of_le hfits (by omega)]
      calc min ((maxBytes - predicted) / shape.stagingBuffers) (maxReadBytes - input) *
            shape.stagingBuffers
          ≤ (maxBytes - predicted) / shape.stagingBuffers * shape.stagingBuffers :=
            Nat.mul_le_mul_right _ (Nat.min_le_left _ _)
        _ ≤ maxBytes - predicted := Nat.div_mul_le_self _ _
    · rw [Nat.zero_mul]
      exact Nat.zero_le _
  rw [hsizing]
  refine ⟨rfl, ?_, ?_, ?_⟩
  · show perWave ≤ input + extra
    omega
  · show predictPoolTotal nv shape (input + extra) perWave =
      .ok (predicted + extra * shape.stagingBuffers)
    rw [hrest, Nat.mul_add, Nat.mul_comm shape.stagingBuffers extra, Nat.add_right_comm]
    congr 1
    rw [u64] at hpredicted ⊢
    omega
  · show predicted + extra * shape.stagingBuffers ≤ maxBytes
    omega

theorem wavePoolResolveSizing_budget {totalMin : ℕ}
    (hmin : predictWave nv shape pageAlignment shape.maxChunkBytes = .ok totalMin)
    (hlt : maxBytes < totalMin) (fuel : ℕ) :
    wavePoolResolveSizing nv shape maxBytes maxReadBytes pageAlignment fuel =
      some (.error .budget) := by
  simp only [predictWave] at hmin
  simp only [wavePoolResolveSizing, hmin, if_pos hlt]

theorem shrinkLoop_start (hnv : nv.Total) (h : shape.InLimits) {totalMin predicted : ℕ}
    (hmin : predictWave nv shape pageAlignment shape.maxChunkBytes = .ok totalMin)
    (hfits : totalMin ≤ maxBytes) (hwrap : ¬ ShrinkWraps nv shape maxBytes pageAlignment)
    (hp : predictWave nv shape pageAlignment (startPerWave shape maxBytes totalMin) =
      .ok predicted) :
    (∀ fuel r, shrinkLoop (predictWave nv shape pageAlignment) maxBytes shape.maxChunkBytes fuel
        (startPerWave shape maxBytes totalMin) predicted = some r →
      ∃ found, r = .ok found ∧ Found (predictWave nv shape pageAlignment) maxBytes
        shape.maxChunkBytes (startPerWave shape maxBytes totalMin) found) ∧
    (shrinkLoop (predictWave nv shape pageAlignment) maxBytes shape.maxChunkBytes
      ((startPerWave shape maxBytes totalMin - shape.maxChunkBytes) / sizingStep + 2)
      (startPerWave shape maxBytes totalMin) predicted).isSome := by
  have hinit : initialPerWave nv shape maxBytes pageAlignment =
      startPerWave shape maxBytes totalMin := initialPerWave_eq hmin
  obtain ⟨hlo, hhi, hlt⟩ := startPerWave_bounds h maxBytes totalMin
  set start := startPerWave shape maxBytes totalMin with hstart
  rcases hlo.eq_or_lt with heq | habove
  · -- the smallest size is not shrunk
    have hdone : ∀ fuel, shrinkLoop (predictWave nv shape pageAlignment) maxBytes
        shape.maxChunkBytes (fuel + 1) start predicted = some (.ok (start, predicted)) := fun fuel =>
      shrinkLoop_done fun hc => absurd hc.2 (by omega)
    refine ⟨fun fuel r hr => ?_, by rw [hdone]; rfl⟩
    cases fuel with
    | zero => cases hr
    | succ fuel =>
      rw [hdone] at hr
      exact ⟨(start, predicted), (Option.some.inj hr).symm, ⟨hlo, le_rfl⟩, hp, .inr heq.symm⟩
  · have hnowrap : ¬ (shape.maxChunkBytes < start % sizingStep ∧ ∀ i ≤ start / sizingStep,
        TooLarge (predictWave nv shape pageAlignment) maxBytes (start - i * sizingStep)) := by
      rintro ⟨hmod, hexc⟩
      exact hwrap ⟨⟨totalMin, hmin, hfits⟩, by rwa [hinit], by rwa [hinit]⟩
    have hdesc : Descended (predictWave nv shape pageAlignment) maxBytes shape.maxChunkBytes start 0
        start := ⟨by omega, by omega, habove, fun k hk => absurd hk (Nat.not_lt_zero k)⟩
    have hpred : ∀ p, 0 < p → ∃ t, predictWave nv shape pageAlignment p = .ok t := fun p hpos =>
      predictWave_ok hnv h hpos
    exact ⟨fun fuel => (shrinkLoop_spec hpred h.chunkBytes.1 (by omega) hnowrap hdesc hp).1,
      (shrinkLoop_spec hpred h.chunkBytes.1 (by omega) hnowrap hdesc hp).2 le_rfl⟩

/-- **The sizing keeps its contract exactly when the search does not wrap.** The temporary sizes of
nvCOMP need not grow with their arguments. -/
theorem wavePoolResolveSizing_iff (hnv : nv.Total) (h : shape.InLimits) (hmax : maxBytes < 2 ^ 64) :
    SizingContract nv shape maxBytes maxReadBytes pageAlignment ↔
      ¬ ShrinkWraps nv shape maxBytes pageAlignment := by
  obtain ⟨totalMin, hmin⟩ : ∃ t, predictWave nv shape pageAlignment shape.maxChunkBytes = .ok t :=
    predictWave_ok hnv h h.chunkBytes.1
  have hinit : initialPerWave nv shape maxBytes pageAlignment =
      startPerWave shape maxBytes totalMin := initialPerWave_eq hmin
  obtain ⟨hlo, hhi, hlt⟩ := startPerWave_bounds h maxBytes totalMin
  have hminpos := h.chunkBytes.1
  by_cases hfits : totalMin ≤ maxBytes
  swap
  · -- too small a budget: there is no search
    have hbudget : ∀ fuel, wavePoolResolveSizing nv shape maxBytes maxReadBytes pageAlignment fuel =
        some (.error .budget) := wavePoolResolveSizing_budget hmin (not_le.mp hfits)
    refine ⟨fun _ hwraps => ?_, fun _ => ⟨by rw [hbudget]; rfl, fun fuel sizing hs => ?_⟩⟩
    · obtain ⟨t, ht, hle⟩ := hwraps.fits
      obtain rfl : t = totalMin := Except.ok.inj (ht.symm.trans hmin)
      exact hfits hle
    · rw [hbudget] at hs
      cases hs
  obtain ⟨predicted, hp⟩ : ∃ t, predictWave nv shape pageAlignment
      (startPerWave shape maxBytes totalMin) = .ok t :=
    predictWave_ok hnv h (Nat.lt_of_lt_of_le hminpos hlo)
  have hrun := wavePoolResolveSizing_eq hmin hfits hp maxReadBytes
  constructor
  · intro hcontract hwraps
    have habove := hwraps.above
    have hexceeds := hwraps.exceeds
    have hterm := hcontract.terminates
    rw [hinit] at habove hexceeds hterm
    set start := startPerWave shape maxBytes totalMin with hstart
    have hmodlt : start % sizingStep < sizingStep := Nat.mod_lt _ (by decide)
    have hsplit := Nat.div_add_mod start sizingStep
    rw [Nat.mul_comm] at hsplit
    have hsteps : (start - shape.maxChunkBytes) / sizingStep = start / sizingStep :=
      Nat.div_eq_of_lt_le (by omega) (by rw [Nat.succ_mul]; omega)
    obtain ⟨last, hlast, hloop⟩ := shrinkLoop_last (by omega) habove hexceeds 2
      (start / sizingStep) (Nat.zero_add _) (by rwa [Nat.zero_mul, Nat.sub_zero])
    rw [Nat.zero_mul, Nat.sub_zero, Nat.add_comm] at hloop
    -- the last size before the wrap does not fit either
    obtain ⟨t, ht, hexc⟩ := hexceeds (start / sizingStep) le_rfl
    have hmod : start - start / sizingStep * sizingStep = start % sizingStep := by omega
    rw [hmod, hlast, Except.ok.injEq] at ht
    rw [hsteps, hrun, hloop] at hterm
    rcases shrinkLoop_wrap (fun p hpos => predictWave_ok hnv h hpos) hminpos hmodlt habove
      (ht ▸ hexc) with hnone | ⟨found, hfound, hhuge⟩
    · rw [hnone] at hterm
      cases hterm
    · have hres := hcontract.result (start / sizingStep + 2) _ (by
        rw [hrun, hloop, hfound]
        rfl)
      have hdev : found.1 ≤ shape.maxChunksPerWave * shape.maxChunkBytes := hres.2.1
      omega
  · intro hwrap
    obtain ⟨hres, hterm⟩ := shrinkLoop_start hnv h hmin hfits hwrap hp
    refine ⟨?_, fun fuel sizing hs => ?_⟩
    · rw [hinit, hrun]
      simpa using hterm
    · rw [hrun, Option.map_eq_some_iff] at hs
      obtain ⟨r, hr, hs⟩ := hs
      obtain ⟨found, rfl, hfound⟩ := hres fuel r hr
      obtain rfl := Except.ok.inj hs
      have hle : found.2 ≤ maxBytes := by
        rcases hfound.fits with hle | heq
        · exact hle
        · have hpred := hfound.predicted
          rw [heq, hmin] at hpred
          exact Except.ok.inj hpred ▸ hfits
      obtain ⟨hdev, hinput, htotal, hbound⟩ := finishSizing_spec hnv h hmax maxReadBytes
        (Nat.lt_of_lt_of_le hminpos hfound.le.1) hfound.predicted hle
      rw [hdev]
      exact ⟨hfound.le.1, hfound.le.2.trans hhi, hinput, htotal, hbound⟩

theorem not_shrinkWraps_of_le (hle : sizingStep ≤ shape.maxChunkBytes) :
    ¬ ShrinkWraps nv shape maxBytes pageAlignment := by
  intro hwraps
  have hlt : initialPerWave nv shape maxBytes pageAlignment % sizingStep < sizingStep :=
    Nat.mod_lt _ (by decide)
  exact absurd (hwraps.above.trans hlt) (not_lt.mpr hle)

end Sizing

/-! ## A search that wraps -/

/-- Temporary sizes with a threshold: more than `limit` decoded bytes need 6 MiB. -/
def thresholdNvComp (limit : ℕ) : NvComp where
  zstdTempBytes _ _ total := some (if total ≤ limit then 0 else 6 * 2 ^ 20)
  lz4TempBytes _ _ _ := some 0

theorem thresholdNvComp_total (limit : ℕ) : (thresholdNvComp limit).Total :=
  ⟨fun _ _ _ => rfl, fun _ _ _ => rfl⟩

theorem thresholdNvComp_monotone (limit : ℕ) : (thresholdNvComp limit).Monotone := by
  constructor
  · intro n n' block block' total total' t t' _ _ htotal ht ht'
    simp only [thresholdNvComp, Option.some.injEq] at ht ht'
    split at ht <;> split at ht' <;> omega
  · intro n n' block block' total total' t t' _ _ _ ht ht'
    simp only [thresholdNvComp, Option.some.injEq] at ht ht'
    omega

def smallShape : PoolShape := ⟨4, 4, 2, 1000, 1⟩

theorem smallShape_inLimits : smallShape.InLimits :=
  ⟨by decide, by decide, by decide, by decide⟩

/-- **The contract fails**: the smallest size needs 149968 bytes, so 4400000 bytes leave room for a
step, and the search starts at 4000 bytes a wave. Those do not fit because of the temporary size, and
a step from there leads to a wave of nearly `2 ^ 64` bytes that is predicted to fit. -/
theorem wavePoolResolveSizing_wraps :
    (thresholdNvComp 1000).Total ∧ (thresholdNvComp 1000).Monotone ∧ smallShape.InLimits ∧
      wavePoolResolveSizing (thresholdNvComp 1000) smallShape 4400000 65536 4096 2 =
        some (.ok ⟨2 ^ 64 - 1044576, 2 ^ 64 - 1044576, 2252928⟩) ∧
      ¬ SizingContract (thresholdNvComp 1000) smallShape 4400000 65536 4096 := by
  have hrun : wavePoolResolveSizing (thresholdNvComp 1000) smallShape 4400000 65536 4096 2 =
      some (.ok ⟨2 ^ 64 - 1044576, 2 ^ 64 - 1044576, 2252928⟩) := by decide +kernel
  refine ⟨thresholdNvComp_total 1000, thresholdNvComp_monotone 1000, smallShape_inLimits, hrun,
    fun hcontract => ?_⟩
  exact absurd (hcontract.result 2 _ hrun).2.1 (by decide +kernel)

/-- Chunks of 1 MiB. -/
theorem wavePoolResolveSizing_iff_mib :
    SizingContract (thresholdNvComp (2 ^ 20)) ⟨4, 4, 2, 2 ^ 20, 1⟩ (2 ^ 24) 65536 4096 ∧
      wavePoolResolveSizing (thresholdNvComp (2 ^ 20)) ⟨4, 4, 2, 2 ^ 20, 1⟩ (2 ^ 24) 65536 4096 3 =
        some (.ok ⟨2 ^ 21, 2 ^ 21, 14819840⟩) := by
  refine ⟨(wavePoolResolveSizing_iff (thresholdNvComp_total _) ⟨by decide, by decide, by decide,
    by decide⟩ (by decide)).mpr (not_shrinkWraps_of_le le_rfl), by decide +kernel⟩

end Damacy

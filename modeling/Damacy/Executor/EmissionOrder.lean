import Mathlib.Data.List.GetD
import Damacy.Executor.Coalesce

/-!
# The order in which merged reads are issued

`coalesce_reads` deals the merged reads out in rounds, one read of every shard in a round. Given
merged reads that are grouped by shard, this module says that the rounds are fair: a read comes
before every read with a higher rank in its shard (`emitPositions_fair`), and there are as many
rounds as the largest shard has reads.
-/

open List

namespace Damacy

section Runs

variable {tmp : List ReadOp} {j k n : ℕ} {run : ℕ × ℕ}

def shardOf (tmp : List ReadOp) (k : ℕ) : Option CString := (tmp.getD k ReadOp.blank).shardPath

def shardRank (tmp : List ReadOp) (k : ℕ) : ℕ :=
  (tmp.take k).countP fun r => r.shardPath == shardOf tmp k

/-- Merged reads that are grouped by shard, each shard's at ascending offsets. -/
structure ShardOrder (tmp : List ReadOp) : Prop where
  grouped : ∀ i j k, i < j → j < k → k < tmp.length → shardOf tmp i = shardOf tmp k →
    shardOf tmp j = shardOf tmp k
  ascending : ∀ j k, j < k → k < tmp.length → shardOf tmp j = shardOf tmp k →
    (tmp.getD j ReadOp.blank).fileOffset ≤ (tmp.getD k ReadOp.blank).fileOffset

theorem shardOf_eq (hk : k < tmp.length) : shardOf tmp k = tmp[k].shardPath := by
  rw [shardOf, getD_eq_getElem _ _ hk]

theorem mem_runStarts : k ∈ runStarts tmp ↔
    k < tmp.length ∧ (k = 0 ∨ shardOf tmp k ≠ shardOf tmp (k - 1)) := by
  simp [runStarts, shardOf]

theorem mem_shardRuns (h : run ∈ shardRuns tmp) : run.1 ∈ runStarts tmp ∧ run.2 ≤ tmp.length ∧
    ∀ j ∈ runStarts tmp, run.1 < j → run.2 ≤ j :=
  RoundRobin.mem_runs (pairwise_lt_range.filter _)
    (fun _ hs => (mem_runStarts.mp hs).1) h

theorem exists_shardRun (hk : k < tmp.length) :
    ∃ run ∈ shardRuns tmp, run.1 ≤ k ∧ k < run.2 := by
  have hmem : k ∈ (shardRuns tmp).flatMap RoundRobin.places := by
    rw [flatMap_places_shardRuns]
    exact mem_range.mpr hk
  obtain ⟨run, hrun, hplace⟩ := mem_flatMap.mp hmem
  rw [RoundRobin.places, mem_range'_1] at hplace
  exact ⟨run, hrun, hplace.1, by omega⟩

theorem shardOf_run (h : run ∈ shardRuns tmp) (hle : run.1 ≤ k) (hlt : k < run.2) :
    shardOf tmp k = shardOf tmp run.1 := by
  obtain ⟨-, hend, hnext⟩ := mem_shardRuns h
  induction k, hle using Nat.le_induction with
  | base => rfl
  | succ k hle ih =>
    rw [← ih (by omega)]
    by_contra hne
    have := hnext (k + 1) (mem_runStarts.mpr ⟨by omega, .inr hne⟩) (by omega)
    omega

theorem shardOf_before (ho : ShardOrder tmp) (h : run ∈ shardRuns tmp) (hj : j < run.1) :
    shardOf tmp j ≠ shardOf tmp run.1 := by
  obtain ⟨hstart, -, -⟩ := mem_shardRuns h
  obtain ⟨hlt, hzero | hne⟩ := mem_runStarts.mp hstart
  · omega
  · intro heq
    by_cases hlast : j = run.1 - 1
    · exact hne (by rw [← heq, hlast])
    · exact hne (ho.grouped j (run.1 - 1) run.1 (by omega) (by omega) hlt heq).symm

theorem shardRank_eq (ho : ShardOrder tmp) (h : run ∈ shardRuns tmp) (hle : run.1 ≤ k)
    (hlt : k < run.2) : shardRank tmp k = k - run.1 := by
  have hend := (mem_shardRuns h).2.1
  have hk := shardOf_run h hle hlt
  have hsplit : tmp.take k = tmp.take run.1 ++ (tmp.drop run.1).take (k - run.1) := by
    rw [← take_add, Nat.add_sub_of_le hle]
  have hbefore : (tmp.take run.1).countP (fun r => r.shardPath == shardOf tmp k) = 0 := by
    rw [countP_eq_zero]
    intro r hr heq
    obtain ⟨j, hj, rfl⟩ := mem_take_iff_getElem.mp hr
    rw [← shardOf_eq, beq_iff_eq, hk] at heq
    exact shardOf_before ho h (by omega) heq
  have hrun : ((tmp.drop run.1).take (k - run.1)).countP (fun r => r.shardPath == shardOf tmp k) =
      ((tmp.drop run.1).take (k - run.1)).length := by
    rw [countP_eq_length]
    intro r hr
    obtain ⟨j, hj, rfl⟩ := mem_take_iff_getElem.mp hr
    rw [length_drop] at hj
    rw [getElem_drop, ← shardOf_eq, beq_iff_eq, hk]
    exact shardOf_run h (Nat.le_add_right _ j) (by omega)
  rw [shardRank, hsplit, countP_append, hbefore, hrun, length_take, length_drop]
  omega

theorem forall_shardRank_lt {b : ℕ} :
    (∀ k < tmp.length, shardRank tmp k < b) ↔
      ∀ path, tmp.countP (fun r => r.shardPath == path) ≤ b := by
  constructor
  · intro h path
    by_contra hlt
    -- the last read of the shard has the highest rank
    obtain ⟨k, hk, hpath, hcount⟩ : ∃ k < tmp.length, shardOf tmp k = path ∧
        (tmp.take k).countP (fun r => r.shardPath == path) + 1 =
          tmp.countP (fun r => r.shardPath == path) := by
      clear h
      induction tmp using List.reverseRecOn with
      | nil => simp at hlt
      | append_singleton tmp r ih =>
        by_cases hr : r.shardPath = path
        · exact ⟨tmp.length, by simp, by simp [shardOf, hr], by simp [hr]⟩
        · have hsame : (tmp ++ [r]).countP (fun r => r.shardPath == path) =
              tmp.countP (fun r => r.shardPath == path) := by simp [hr]
          rw [hsame] at hlt ⊢
          obtain ⟨k, hk, hpath, hcount⟩ := ih hlt
          refine ⟨k, by simp; omega, ?_, ?_⟩
          · rw [shardOf, getD_append _ _ _ _ hk]
            exact hpath
          · rw [take_append_of_le_length hk.le, hcount]
    have := h k hk
    rw [shardRank, hpath] at this
    omega
  · intro h k hk
    have hself : 0 < (tmp.drop k).countP (fun r => r.shardPath == shardOf tmp k) := by
      refine countP_pos_iff.mpr ⟨tmp[k], ?_, by rw [shardOf_eq hk, BEq.rfl]⟩
      rw [drop_eq_getElem_cons hk]
      exact mem_cons_self
    have hsum : tmp.countP (fun r => r.shardPath == shardOf tmp k) = shardRank tmp k +
        (tmp.drop k).countP fun r => r.shardPath == shardOf tmp k := by
      rw [shardRank, ← countP_append, take_append_drop]
    have hle := h (shardOf tmp k)
    omega

theorem forall_run_le_iff (ho : ShardOrder tmp) {b : ℕ} :
    (∀ run ∈ shardRuns tmp, run.2 - run.1 ≤ b) ↔ ∀ k < tmp.length, shardRank tmp k < b := by
  constructor
  · intro h k hk
    obtain ⟨run, hrun, hle, hlt⟩ := exists_shardRun hk
    rw [shardRank_eq ho hrun hle hlt]
    have := h run hrun
    omega
  · intro h run hrun
    by_contra hlt
    have hrank : shardRank tmp (run.2 - 1) = run.2 - 1 - run.1 :=
      shardRank_eq ho hrun (by omega) (by omega)
    have := h (run.2 - 1) (by have := (mem_shardRuns hrun).2.1; omega)
    omega

theorem mem_turn_shardRank (ho : ShardOrder tmp) (hk : k < tmp.length) :
    k ∈ RoundRobin.turn (shardRuns tmp) (shardRank tmp k) := by
  obtain ⟨run, hrun, hle, hlt⟩ := exists_shardRun hk
  rw [shardRank_eq ho hrun hle hlt]
  exact RoundRobin.mem_turn.mpr ⟨run, hrun, (Nat.add_sub_of_le hle).symm, hlt⟩

theorem emitPositions_lt_of_rank (ho : ShardOrder tmp) (hn : tmp.length ≤ n)
    (hj : j < tmp.length) (hk : k < tmp.length) (hrank : shardRank tmp j < shardRank tmp k) :
    emitPositions tmp n j < emitPositions tmp n k := by
  rw [emitPositions_eq tmp hn hj, emitPositions_eq tmp hn hk]
  have hlast : shardRank tmp k < tmp.length :=
    (countP_le_length.trans (length_take_le _ _)).trans_lt hk
  exact RoundRobin.idxOf_lt_of_round
    ((emissionOrder_perm tmp).nodup_iff.mpr nodup_range) hrank hlast
    (mem_turn_shardRank ho hj) (mem_turn_shardRank ho hk)

theorem shardRank_lt (hk : k < tmp.length) (hjk : j < k) (hsame : shardOf tmp j = shardOf tmp k) :
    shardRank tmp j < shardRank tmp k := by
  have hj : j < (tmp.take k).length := by
    rw [length_take]
    omega
  have hsplit : tmp.take j = (tmp.take k).take j := by
    rw [take_take, Nat.min_eq_left hjk.le]
  have hself : 0 < ((tmp.take k).drop j).countP (fun r => r.shardPath == shardOf tmp k) := by
    refine countP_pos_iff.mpr ⟨(tmp.take k)[j], ?_, ?_⟩
    · rw [drop_eq_getElem_cons hj]
      exact mem_cons_self
    · rw [getElem_take, ← shardOf_eq (hjk.trans hk), hsame, BEq.rfl]
  have hsum : shardRank tmp k = shardRank tmp j +
      ((tmp.take k).drop j).countP fun r => r.shardPath == shardOf tmp k := by
    rw [shardRank, shardRank, hsplit, hsame, ← countP_append, take_append_drop]
  omega

end Runs

/-! ## The rounds in `uint32_t` -/

/-- `emitRound` with the source's counters, which are `uint32_t`s. -/
def emitRoundU32 (runs : List (ℕ × ℕ)) (round : ℕ) (s : List ℕ × ℕ) : List ℕ × ℕ :=
  runs.foldl (fun s run =>
    if u32 (run.1 + round) < run.2 then (s.1.set (u32 (run.1 + round)) s.2, u32 (s.2 + 1)) else s) s

def emitLoopU32 (runs : List (ℕ × ℕ)) (nReal : ℕ) : (fuel round : ℕ) → List ℕ × ℕ → List ℕ × ℕ
  | 0, _, s => s
  | fuel + 1, round, s =>
    if s.2 < nReal then emitLoopU32 runs nReal fuel (u32 (round + 1)) (emitRoundU32 runs round s)
    else s

section Uint32

variable {tmp : List ReadOp} {runs : List (ℕ × ℕ)} {round : ℕ}

theorem emitRoundU32_eq {s : List ℕ × ℕ} (hstart : ∀ run ∈ runs, run.1 + round < 2 ^ 32)
    (hcount : s.2 + (RoundRobin.turn runs round).length < 2 ^ 32) :
    emitRoundU32 runs round s = emitRound runs round s := by
  induction runs generalizing s with
  | nil => rfl
  | cons run runs ih =>
    rw [forall_mem_cons] at hstart
    have hturn : RoundRobin.turn (run :: runs) round =
        (if run.1 + round < run.2 then [run.1 + round] else []) ++ RoundRobin.turn runs round :=
      flatMap_cons
    rw [hturn, length_append] at hcount
    simp only [emitRoundU32, emitRound, foldl_cons, u32_of_lt hstart.1]
    by_cases hlt : run.1 + round < run.2
    · rw [if_pos hlt, length_singleton] at hcount
      rw [if_pos hlt, if_pos hlt, u32_of_lt (by omega)]
      refine ih (s := (s.1.set (run.1 + round) s.2, s.2 + 1)) hstart.2 ?_
      show s.2 + 1 + _ < _
      omega
    · rw [if_neg hlt, length_nil] at hcount
      rw [if_neg hlt, if_neg hlt]
      exact ih (s := s) hstart.2 (by omega)

theorem emitLoopU32_eq (hlen : tmp.length ≤ 2 ^ 31) (pos : List ℕ) (fuel round : ℕ) :
    emitLoopU32 (shardRuns tmp) tmp.length fuel round
        (RoundRobin.number (RoundRobin.order (shardRuns tmp) round) (pos, 0)) =
      emitLoop (shardRuns tmp) tmp.length fuel round
        (RoundRobin.number (RoundRobin.order (shardRuns tmp) round) (pos, 0)) := by
  induction fuel generalizing round with
  | zero => rfl
  | succ fuel ih =>
    rw [emitLoopU32, emitLoop, RoundRobin.number_snd]
    split
    · rename_i hleft
      rw [Nat.zero_add] at hleft
      -- some shard has a read left, so there were fewer rounds than reads
      have hround : round < tmp.length := by
        by_contra hge
        have hshort : ∀ run ∈ shardRuns tmp, run.2 - run.1 ≤ round := fun run hrun =>
          (shardRun_le hrun).trans (not_lt.mp hge)
        have hall := RoundRobin.length_order_eq_iff.mpr hshort
        rw [flatMap_places_shardRuns, length_range] at hall
        omega
      have hnext := length_order_shardRuns_le tmp (round + 1)
      rw [RoundRobin.order_succ, length_append] at hnext
      have hstart : ∀ run ∈ shardRuns tmp, run.1 + round < 2 ^ 32 := fun run hrun => by
        have := (mem_runStarts.mp (mem_shardRuns hrun).1).1
        omega
      rw [emitRoundU32_eq hstart (by rw [RoundRobin.number_snd]; show 0 + _ + _ < _; omega),
        u32_of_lt (by omega), emitRound_eq, ← RoundRobin.number_append, ← RoundRobin.order_succ, ih]
    · rfl

end Uint32

/-! ## The order of the reads -/

/-- The places that the rounds give to the merged reads `tmp`, in an array of `n` entries. -/
structure Fair (tmp : List ReadOp) (n : ℕ) : Prop where
  /-- Every merged read gets one of the first places, and every one of those is taken. -/
  perm : ((List.range tmp.length).map (emitPositions tmp n)).Perm (List.range tmp.length)
  /-- The reads of a shard keep their order, which is that of their offsets. -/
  shard : ∀ j < tmp.length, ∀ k < tmp.length, shardOf tmp j = shardOf tmp k →
    (emitPositions tmp n j < emitPositions tmp n k ↔ j < k)
  ascending : ∀ j < tmp.length, ∀ k < tmp.length, shardOf tmp j = shardOf tmp k →
    emitPositions tmp n j < emitPositions tmp n k →
    (tmp.getD j ReadOp.blank).fileOffset ≤ (tmp.getD k ReadOp.blank).fileOffset
  /-- A read comes before all reads of all shards that have a higher rank. -/
  turns : ∀ j < tmp.length, ∀ k < tmp.length, shardRank tmp j < shardRank tmp k →
    emitPositions tmp n j < emitPositions tmp n k
  /-- The loop has given out all places after as many rounds as the largest shard has reads. -/
  rounds : ∀ fuel, (emitLoop (shardRuns tmp) tmp.length fuel 0 (List.replicate n 0, 0)).2 =
    tmp.length ↔ ∀ path, tmp.countP (fun r => r.shardPath == path) ≤ fuel
  /-- The counters of the source do not wrap. -/
  uint32 : tmp.length ≤ 2 ^ 31 → ∀ fuel,
    emitLoopU32 (shardRuns tmp) tmp.length fuel 0 (List.replicate n 0, 0) =
      emitLoop (shardRuns tmp) tmp.length fuel 0 (List.replicate n 0, 0)

/-- **The merged reads of the shards are issued in turns.** -/
theorem emitPositions_fair {tmp : List ReadOp} {n : ℕ} (ho : ShardOrder tmp)
    (hn : tmp.length ≤ n) : Fair tmp n := by
  have hkeep : ∀ j k, j < k → k < tmp.length → shardOf tmp j = shardOf tmp k →
      emitPositions tmp n j < emitPositions tmp n k := fun j k hjk hk hsame =>
    emitPositions_lt_of_rank ho hn (hjk.trans hk) hk (shardRank_lt hk hjk hsame)
  have hshard : ∀ j < tmp.length, ∀ k < tmp.length, shardOf tmp j = shardOf tmp k →
      (emitPositions tmp n j < emitPositions tmp n k ↔ j < k) := by
    intro j hj k hk hsame
    refine ⟨fun hlt => ?_, fun hlt => hkeep j k hlt hk hsame⟩
    by_contra hge
    rcases (not_lt.mp hge).eq_or_lt with rfl | hkj
    · exact lt_irrefl _ hlt
    · exact lt_asymm hlt (hkeep k j hkj hj hsame.symm)
  refine ⟨?_, hshard, fun j hj k hk hsame hlt => ?_,
    fun j hj k hk => emitPositions_lt_of_rank ho hn hj hk, fun fuel => ?_, fun hlen fuel => ?_⟩
  · exact emitPositions_perm tmp hn le_rfl
  · exact ho.ascending j k ((hshard j hj k hk hsame).mp hlt) hk hsame
  · have hloop := emitLoop_eq (length_order_shardRuns_le tmp) fuel 0 (List.replicate n 0)
    rw [Nat.zero_add] at hloop
    have hall : (RoundRobin.order (shardRuns tmp) fuel).length =
        ((shardRuns tmp).flatMap RoundRobin.places).length ↔ _ := RoundRobin.length_order_eq_iff
    rw [flatMap_places_shardRuns, length_range] at hall
    rw [← forall_shardRank_lt, ← forall_run_le_iff ho, ← hall]
    change (emitLoop (shardRuns tmp) tmp.length fuel 0
      (RoundRobin.number (RoundRobin.order (shardRuns tmp) 0) (List.replicate n 0, 0))).2 = _ ↔ _
    rw [hloop, RoundRobin.number_snd, Nat.zero_add]
  · exact emitLoopU32_eq hlen (List.replicate n 0) fuel 0

def unevenShards : List ReadOp :=
  [⟨some [97], 0, 8⟩, ⟨some [97], 100, 8⟩, ⟨some [97], 200, 8⟩, ⟨some [98], 50, 8⟩]

theorem emitPositions_fair_uneven : Fair unevenShards 4 ∧
    (List.range 4).map (emitPositions unevenShards 4) = [0, 2, 3, 1] := by
  have hgrouped : ∀ i j k : Fin 4, i < j → j < k →
      shardOf unevenShards i = shardOf unevenShards k →
      shardOf unevenShards j = shardOf unevenShards k := by decide
  have hascending : ∀ k < 4, ∀ j < k, shardOf unevenShards j = shardOf unevenShards k →
      (unevenShards.getD j ReadOp.blank).fileOffset ≤
        (unevenShards.getD k ReadOp.blank).fileOffset := by decide
  exact ⟨emitPositions_fair ⟨fun i j k hij hjk hk =>
      hgrouped ⟨i, hij.trans (hjk.trans hk)⟩ ⟨j, hjk.trans hk⟩ ⟨k, hk⟩ hij hjk,
    fun j k hjk hk => hascending k hk j hjk⟩ le_rfl, by decide +kernel⟩

end Damacy

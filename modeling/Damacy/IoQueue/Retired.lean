import Mathlib.Data.List.Nodup
import Damacy.IoQueue.IoQueue

/-!
# Retirement of I/O jobs

`IoInv` ties the shared counters to the private states of all workers: the ring holds the posted jobs
that no worker has taken yet, every worker publishes the number of the job it holds, and a job that
was posted is queued, held by exactly one worker, or finished. `retired_seq` is below every number
that is queued or held, hence reaches a number only when all jobs up to it are finished, and equals
`next_seq` when nothing is queued or held. Every action keeps the invariant, whatever the order in
which posts, ring growth and the workers' steps happen (`ioRun_inv`).
-/

open List

namespace Damacy

open RingBuffer

variable {J : Type}

def IoRun.queued (s : IoRun J) : List (IoJob J) := s.posted.drop s.taken.length

def IoRun.Holding (s : IoRun J) (w : ℕ) (job : IoJob J) : Prop :=
  (s.workers[w]?).bind WorkerPc.job = some job

/-- The job's function has returned, and so has its `ctx_free`, if it has one. -/
def IoRun.Returned (s : IoRun J) (job : IoJob J) : Prop :=
  job.seq ∈ s.fnReturned ∧ (job.ctxFree = true → job.seq ∈ s.freed)

structure IoInv (s : IoRun J) : Prop where
  ring : Holds s.queue.ring s.queue.head s.queue.tail s.queued
  order : s.taken <+: s.posted
  seqs : s.posted.map IoJob.seq = List.range' 1 s.queue.nextSeq
  published : s.queue.workerSeq = s.workers.map WorkerPc.seq
  held : ∀ w job, s.Holding w job → job ∈ s.taken ∧ job.seq ∉ s.finished
  alone : ∀ w w' job job', s.Holding w job → s.Holding w' job' → job.seq = job'.seq → w = w'
  settled : ∀ job ∈ s.taken, job.seq ∈ s.finished ∨ ∃ w, s.Holding w job
  finished : ∀ seq ∈ s.finished, ∃ job ∈ s.taken, job.seq = seq ∧ s.Returned job
  freeing : ∀ (w : ℕ) (job : IoJob J), s.workers[w]? = some (.freeing job) → job.seq ∈ s.fnReturned
  ran : ∀ (w : ℕ) (job : IoJob J), s.workers[w]? = some (.ran job) → s.Returned job
  retired_le : s.queue.retiredSeq ≤ s.queue.nextSeq
  retired_lt_held : ∀ w job, s.Holding w job → s.queue.retiredSeq < job.seq
  retired_lt_queued : ∀ job ∈ s.queued, s.queue.retiredSeq < job.seq
  drained : s.queued = [] → (∀ w job, ¬ s.Holding w job) → s.queue.retiredSeq = s.queue.nextSeq

variable {s s' : IoRun J}

/-! ## Consequences of the invariant -/

theorem IoInv.posted_eq (h : IoInv s) : s.posted = s.taken ++ s.queued :=
  prefix_iff_eq_append.mp h.order |>.symm

theorem IoInv.nodup (h : IoInv s) : (s.posted.map IoJob.seq).Nodup := by
  rw [h.seqs]
  exact nodup_range'

theorem IoInv.job_unique (h : IoInv s) {job job' : IoJob J} (hj : job ∈ s.posted)
    (hj' : job' ∈ s.posted) (hseq : job.seq = job'.seq) : job = job' :=
  inj_on_of_nodup_map h.nodup hj hj' hseq

theorem IoInv.mem_posted_seq (h : IoInv s) {job : IoJob J} (hj : job ∈ s.posted) :
    1 ≤ job.seq ∧ job.seq ≤ s.queue.nextSeq := by
  have hmem : job.seq ∈ s.posted.map IoJob.seq := mem_map_of_mem hj
  rw [h.seqs, mem_range'_1] at hmem
  omega

theorem IoInv.front_le (h : IoInv s) {first job : IoJob J} {rest : List (IoJob J)}
    (hq : s.queued = first :: rest) (hj : job ∈ s.queued) : first.seq ≤ job.seq := by
  have hsorted : (s.queued.map IoJob.seq).Pairwise (· < ·) := by
    have hall : (s.posted.map IoJob.seq).Pairwise (· < ·) := by
      rw [h.seqs]
      exact pairwise_lt_range'
    rw [h.posted_eq, map_append] at hall
    exact (pairwise_append.mp hall).2.1
  rw [hq, map_cons, pairwise_cons] at hsorted
  rw [hq, mem_cons] at hj
  rcases hj with rfl | hj
  · exact le_rfl
  · exact (hsorted.1 _ (mem_map_of_mem hj)).le

theorem IoInv.live (h : IoInv s) {job : IoJob J} (hj : job ∈ s.posted)
    (hfin : job.seq ∉ s.finished) : job ∈ s.queued ∨ ∃ w, s.Holding w job := by
  rw [h.posted_eq, mem_append] at hj
  rcases hj with htaken | hqueued
  · exact .inr ((h.settled job htaken).resolve_left hfin)
  · exact .inl hqueued

theorem IoInv.finished_of_retired (h : IoInv s) {job : IoJob J} (hj : job ∈ s.posted)
    (hle : job.seq ≤ s.queue.retiredSeq) : job.seq ∈ s.finished := by
  by_contra hfin
  rcases h.live hj hfin with hqueued | ⟨w, hw⟩
  · exact absurd (h.retired_lt_queued job hqueued) (not_lt.mpr hle)
  · exact absurd (h.retired_lt_held w job hw) (not_lt.mpr hle)

theorem IoInv.returned_of_finished (h : IoInv s) {job : IoJob J} (hj : job ∈ s.posted)
    (hfin : job.seq ∈ s.finished) : s.Returned job := by
  obtain ⟨job', htaken, hseq, hret⟩ := h.finished job.seq hfin
  exact h.job_unique (h.order.subset htaken) hj hseq ▸ hret

/-! ## Every action keeps the invariant -/

theorem ioInit_inv (nthreads : ℕ) : IoInv (ioInit nthreads : IoRun J) := by
  have hfree : ∀ w (job : IoJob J), ¬ (ioInit nthreads : IoRun J).Holding w job := by
    intro w job hw
    obtain ⟨pc, hpc, hjob⟩ := Option.bind_eq_some_iff.mp hw
    rw [eq_of_mem_replicate (mem_of_getElem? hpc)] at hjob
    cases hjob
  have hpc : ∀ (w : ℕ) (pc : WorkerPc J), (ioInit nthreads : IoRun J).workers[w]? = some pc →
      pc = .waiting := fun w pc hw => eq_of_mem_replicate (mem_of_getElem? hw)
  exact
    { ring := holds_replicate (k := 9) rfl
      order := prefix_rfl
      seqs := rfl
      published := by simp [ioInit, ioQueueCreate, WorkerPc.seq, WorkerPc.job]
      held := fun w job hw => absurd hw (hfree w job)
      alone := fun w w' job job' hw => absurd hw (hfree w job)
      settled := by simp [ioInit]
      finished := by simp [ioInit]
      freeing := fun w job hw => by cases hpc w _ hw
      ran := fun w job hw => by cases hpc w _ hw
      retired_le := le_rfl
      retired_lt_held := fun w job hw => absurd hw (hfree w job)
      retired_lt_queued := by simp [ioInit, IoRun.queued]
      drained := fun _ _ => rfl }

theorem IoInv.post (h : IoInv s) {ctx : J} {ctxFree growOk : Bool} {q : IoQueue J}
    (hq : ioQueuePost s.queue ctx ctxFree growOk = some q) :
    IoInv { s with queue := q, posted := s.posted ++ [⟨ctx, ctxFree, q.nextSeq⟩] } := by
  obtain ⟨hring, hnext, hretired, hworkers⟩ := ioQueuePost_spec h.ring hq
  have hqueued : (s.posted ++ [(⟨ctx, ctxFree, q.nextSeq⟩ : IoJob J)]).drop s.taken.length =
      s.queued ++ [⟨ctx, ctxFree, q.nextSeq⟩] := drop_append_of_le_length h.order.length_le
  exact
    { ring := by rwa [IoRun.queued, hqueued]
      order := h.order.trans (prefix_append _ _)
      seqs := by
        rw [map_append, h.seqs, hnext, List.range'_1_concat, Nat.add_comm 1]
        rfl
      published := hworkers.trans h.published
      held := h.held
      alone := h.alone
      settled := h.settled
      finished := h.finished
      freeing := h.freeing
      ran := h.ran
      retired_le := by
        have := h.retired_le
        dsimp only
        omega
      retired_lt_held := fun w job hw => hretired.trans_lt (h.retired_lt_held w job hw)
      retired_lt_queued := fun job hj => by
        rw [IoRun.queued, hqueued, mem_append, mem_singleton] at hj
        dsimp only
        rw [hretired]
        rcases hj with hj | rfl
        · exact h.retired_lt_queued job hj
        · have := h.retired_le
          dsimp only
          omega
      drained := fun hempty => by
        rw [IoRun.queued, hqueued] at hempty
        cases append_ne_nil_of_right_ne_nil _ (cons_ne_nil _ _) hempty }

section Worker

variable {w : ℕ} {pc pc' : WorkerPc J} {job : IoJob J}

theorem bind_job_set {workers : List (WorkerPc J)} (hw : workers[w]? = some pc) (v : ℕ) :
    ((workers.set w pc')[v]?).bind WorkerPc.job =
      if v = w then pc'.job else (workers[v]?).bind WorkerPc.job := by
  have hlt := (List.getElem?_eq_some_iff.mp hw).1
  split
  · subst v
    rw [getElem?_set_self hlt]
    rfl
  · rw [getElem?_set_ne (Ne.symm ‹_›)]

theorem pc_of_set {workers : List (WorkerPc J)} {v : ℕ} {new : WorkerPc J}
    (hv : (workers.set w pc')[v]? = some new) : pc' = new ∨ workers[v]? = some new := by
  rw [getElem?_set] at hv
  split at hv
  · split at hv
    · exact .inl (Option.some_inj.mp hv)
    · cases hv
  · exact .inr hv

theorem holding_of_pc (hw : s.workers[w]? = some pc) (hjob : pc.job = some job) :
    s.Holding w job := by
  rw [IoRun.Holding, hw]
  exact hjob

theorem IoInv.progress (h : IoInv s) (hw : s.workers[w]? = some pc) (pc' : WorkerPc J)
    (hjob : pc'.job = pc.job)
    {fnReturned freed : List ℕ} (hfn : s.fnReturned ⊆ fnReturned) (hfreed : s.freed ⊆ freed)
    (hfreeing : ∀ job, pc' = .freeing job → job.seq ∈ fnReturned)
    (hran : ∀ job, pc' = .ran job →
      job.seq ∈ fnReturned ∧ (job.ctxFree = true → job.seq ∈ freed)) :
    IoInv { s with workers := s.workers.set w pc', fnReturned, freed } := by
  have hholding : ∀ v (job : IoJob J),
      IoRun.Holding { s with workers := s.workers.set w pc', fnReturned, freed } v job ↔
        s.Holding v job := by
    intro v job
    rw [IoRun.Holding, IoRun.Holding, bind_job_set hw]
    split
    · subst v
      rw [hw, hjob]
      rfl
    · exact Iff.rfl
  have hreturned : ∀ job : IoJob J, s.Returned job →
      job.seq ∈ fnReturned ∧ (job.ctxFree = true → job.seq ∈ freed) :=
    fun job hret => ⟨hfn hret.1, fun hfree => hfreed (hret.2 hfree)⟩
  exact
    { ring := h.ring
      order := h.order
      seqs := h.seqs
      published := by
        dsimp only
        rw [h.published, map_set]
        obtain ⟨hlt, rfl⟩ := List.getElem?_eq_some_iff.mp hw
        have hseq : pc'.seq = s.workers[w].seq := by rw [WorkerPc.seq, hjob, WorkerPc.seq]
        rw [hseq, ← map_set, set_getElem_self]
      held := fun v job hv => h.held v job ((hholding v job).mp hv)
      alone := fun v v' job job' hv hv' =>
        h.alone v v' job job' ((hholding v job).mp hv) ((hholding v' job').mp hv')
      settled := fun job hj => (h.settled job hj).imp_right
        fun ⟨v, hv⟩ => ⟨v, (hholding v job).mpr hv⟩
      finished := fun seq hseq => by
        obtain ⟨job, htaken, heq, hret⟩ := h.finished seq hseq
        exact ⟨job, htaken, heq, hreturned job hret⟩
      freeing := fun v job hv => (pc_of_set hv).elim (hfreeing job)
        fun hold => hfn (h.freeing v job hold)
      ran := fun v job hv => (pc_of_set hv).elim (hran job)
        fun hold => hreturned job (h.ran v job hold)
      retired_le := h.retired_le
      retired_lt_held := fun v job hv => h.retired_lt_held v job ((hholding v job).mp hv)
      retired_lt_queued := h.retired_lt_queued
      drained := fun hempty hfree => h.drained hempty fun v job hv =>
        hfree v job ((hholding v job).mpr hv) }

theorem IoInv.queued_ne_taken (h : IoInv s) {job' : IoJob J} (hj : job ∈ s.queued)
    (hj' : job' ∈ s.taken) : job'.seq ≠ job.seq := by
  have hnodup := h.nodup
  rw [h.posted_eq, map_append, nodup_append] at hnodup
  exact hnodup.2.2 _ (mem_map_of_mem hj') _ (mem_map_of_mem hj)

theorem IoInv.take (h : IoInv s) {q : IoQueue J} (hw : s.workers[w]? = some .waiting)
    (hq : workerTake s.queue w = some (job, q)) :
    IoInv { s with queue := q, workers := s.workers.set w (.running job),
                   taken := s.taken ++ [job] } := by
  obtain ⟨rest, hqueued, hring, hnext, hretired, hpub⟩ := workerTake_spec h.ring hq
  have hposted : s.posted = s.taken ++ [job] ++ rest := by
    rw [h.posted_eq, hqueued, append_assoc]
    rfl
  have hrest : s.posted.drop (s.taken ++ [job]).length = rest := by
    rw [hposted, drop_left]
  have hmem : job ∈ s.queued := by
    rw [hqueued]
    exact mem_cons_self
  have hnew : ∀ job' ∈ s.taken, job'.seq ≠ job.seq := fun job' => h.queued_ne_taken hmem
  have hfin : job.seq ∉ s.finished := fun hmem => by
    obtain ⟨job', htaken, hseq, -⟩ := h.finished _ hmem
    exact hnew job' htaken hseq
  have hholding : ∀ v (job' : IoJob J),
      IoRun.Holding { s with queue := q, workers := s.workers.set w (.running job),
                             taken := s.taken ++ [job] } v job' ↔
        if v = w then job = job' else s.Holding v job' := by
    intro v job'
    rw [IoRun.Holding, bind_job_set hw]
    split
    · exact Option.some_inj
    · exact Iff.rfl
  have hlt : s.queue.retiredSeq < job.seq := h.retired_lt_queued job hmem
  exact
    { ring := by rwa [IoRun.queued, hrest]
      order := ⟨rest, hposted.symm⟩
      seqs := by rw [hnext]; exact h.seqs
      published := by
        dsimp only
        rw [hpub, h.published, map_set]
        rfl
      held := fun v job' hv => by
        rw [hholding] at hv
        split at hv
        · subst hv
          exact ⟨mem_append_right _ (mem_singleton_self _), hfin⟩
        · exact ⟨mem_append_left _ (h.held v job' hv).1, (h.held v job' hv).2⟩
      alone := fun v v' job₁ job₂ hv hv' heq => by
        rw [hholding] at hv hv'
        split at hv <;> split at hv'
        · rw [‹v = w›, ‹v' = w›]
        · subst hv
          exact absurd heq.symm (hnew job₂ (h.held v' job₂ hv').1)
        · subst hv'
          exact absurd heq (hnew job₁ (h.held v job₁ hv).1)
        · exact h.alone v v' job₁ job₂ hv hv' heq
      settled := fun job' hj' => by
        rw [mem_append, mem_singleton] at hj'
        rcases hj' with hold | rfl
        · refine (h.settled job' hold).imp_right fun ⟨v, hv⟩ => ⟨v, (hholding v job').mpr ?_⟩
          have hvw : v ≠ w := by
            rintro rfl
            rw [IoRun.Holding, hw] at hv
            cases hv
          rwa [if_neg hvw]
        · exact .inr ⟨w, (hholding w job').mpr (by rw [if_pos rfl])⟩
      finished := fun seq hseq => by
        obtain ⟨job', htaken, hret⟩ := h.finished seq hseq
        exact ⟨job', mem_append_left _ htaken, hret⟩
      freeing := fun v job' hv => h.freeing v job' ((pc_of_set hv).resolve_left (by simp))
      ran := fun v job' hv => h.ran v job' ((pc_of_set hv).resolve_left (by simp))
      retired_le := by rw [hretired, hnext]; exact h.retired_le
      retired_lt_held := fun v job' hv => by
        rw [hholding] at hv
        rw [hretired]
        split at hv
        · exact hv ▸ hlt
        · exact h.retired_lt_held v job' hv
      retired_lt_queued := fun job' hj' => by
        rw [IoRun.queued, hrest] at hj'
        rw [hretired]
        exact h.retired_lt_queued job' (by rw [hqueued]; exact mem_cons_of_mem _ hj')
      drained := fun _ hfree =>
        absurd ((hholding w job).mpr (by rw [if_pos rfl])) (hfree w job) }

theorem IoInv.setIdle_published (h : IoInv s) :
    (s.queue.setIdle w).workerSeq = (s.workers.set w .waiting).map WorkerPc.seq := by
  rw [IoQueue.setIdle, map_set, ← h.published]
  rfl

theorem IoInv.minInflight_le_held (h : IoInv s) {v : ℕ} (hvw : v ≠ w) (hv : s.Holding v job) :
    (s.queue.setIdle w).minInflight ≤ WithTop.some job.seq := by
  refine (le_minInflight.mp le_rfl).2 _ ?_
  obtain ⟨pc, hpc, hjob⟩ := Option.bind_eq_some_iff.mp hv
  have hmem : pc ∈ s.workers.set w .waiting :=
    mem_of_getElem? ((getElem?_set_ne hvw.symm).trans hpc)
  rw [h.setIdle_published, mem_map]
  exact ⟨pc, hmem, by rw [WorkerPc.seq, hjob]; rfl⟩

theorem IoInv.minInflight_le_queued (h : IoInv s) (hj : job ∈ s.queued) :
    (s.queue.setIdle w).minInflight ≤ WithTop.some job.seq := by
  obtain ⟨first, rest, hqueued⟩ := exists_cons_of_ne_nil (ne_nil_of_mem hj)
  have hring := h.ring
  rw [hqueued] at hring
  have hlt : s.queue.tail < s.queue.head := by
    rw [hring.head_eq, length_cons]
    omega
  have hfront : (s.queue.setIdle w).minInflight ≤ WithTop.some (s.queue.seqAt s.queue.tail) :=
    (le_minInflight.mp le_rfl).1 hlt
  rw [IoQueue.seqAt, hring.front] at hfront
  exact hfront.trans (WithTop.coe_le_coe.mpr (h.front_le hqueued hj))

theorem IoInv.minInflight_eq_top (h : IoInv s) (hempty : s.queued = [])
    (hfree : ∀ v job, v ≠ w → ¬ s.Holding v job) : (s.queue.setIdle w).minInflight = ⊤ := by
  refine top_le_iff.mp (le_minInflight.mpr ⟨fun hlt => ?_, fun seq hseq => ?_⟩)
  · exact absurd (h.ring.empty_iff.mpr hempty) (Nat.ne_of_gt hlt)
  · rw [h.setIdle_published, mem_map] at hseq
    obtain ⟨pc, hpc, rfl⟩ := hseq
    obtain ⟨v, hv⟩ := mem_iff_getElem?.mp hpc
    rcases pc_of_set hv with rfl | hold
    · exact le_rfl
    · cases hjob : pc.job with
      | none => rw [WorkerPc.seq, hjob]; exact le_rfl
      | some job =>
        have hvw : v = w := by
          by_contra hvw
          exact hfree v job hvw (holding_of_pc hold hjob)
        subst hvw
        rw [getElem?_set_self (List.getElem?_eq_some_iff.mp hold).1, Option.some_inj] at hv
        subst hv
        exact le_rfl

theorem IoInv.finish (h : IoInv s) (hw : s.workers[w]? = some (.ran job)) :
    IoInv { s with queue := workerFinish s.queue w, workers := s.workers.set w .waiting,
                   finished := s.finished ++ [job.seq] } := by
  have hmine : s.Holding w job := holding_of_pc hw rfl
  have hholding : ∀ v (job' : IoJob J),
      IoRun.Holding { s with queue := workerFinish s.queue w, workers := s.workers.set w .waiting,
                             finished := s.finished ++ [job.seq] } v job' ↔
        v ≠ w ∧ s.Holding v job' := by
    intro v job'
    rw [IoRun.Holding, bind_job_set hw]
    split
    · exact ⟨fun hv => (by cases hv), fun hv => absurd ‹v = w› hv.1⟩
    · exact ⟨fun hv => ⟨‹_›, hv⟩, And.right⟩
  have hfinish : workerFinish s.queue w =
      { s.queue.setIdle w with retiredSeq := (workerFinish s.queue w).retiredSeq } :=
    advanceRetired_eq _
  have hother : ∀ v job', v ≠ w → s.Holding v job' → job'.seq ≠ job.seq :=
    fun v job' hvw hv heq => hvw (h.alone v w job' job hv hmine heq)
  exact
    { ring := by rw [hfinish]; exact h.ring
      order := h.order
      seqs := by rw [hfinish]; exact h.seqs
      published := by rw [hfinish]; exact h.setIdle_published
      held := fun v job' hv => by
        obtain ⟨hvw, hv⟩ := (hholding v job').mp hv
        refine ⟨(h.held v job' hv).1, ?_⟩
        rw [mem_append, mem_singleton, not_or]
        exact ⟨(h.held v job' hv).2, hother v job' hvw hv⟩
      alone := fun v v' job₁ job₂ hv hv' =>
        h.alone v v' job₁ job₂ ((hholding v job₁).mp hv).2 ((hholding v' job₂).mp hv').2
      settled := fun job' hj' => by
        rw [mem_append, mem_singleton]
        rcases h.settled job' hj' with hfin | ⟨v, hv⟩
        · exact .inl (.inl hfin)
        · by_cases hvw : v = w
          · subst hvw
            exact .inl (.inr (congrArg IoJob.seq (Option.some_inj.mp (hv.symm.trans hmine))))
          · exact .inr ⟨v, (hholding v job').mpr ⟨hvw, hv⟩⟩
      finished := fun seq hseq => by
        rw [mem_append, mem_singleton] at hseq
        rcases hseq with hold | rfl
        · exact h.finished seq hold
        · exact ⟨job, (h.held w job hmine).1, rfl, h.ran w job hw⟩
      freeing := fun v job' hv => h.freeing v job' ((pc_of_set hv).resolve_left (by simp))
      ran := fun v job' hv => h.ran v job' ((pc_of_set hv).resolve_left (by simp))
      retired_le := by
        have hnext : (workerFinish s.queue w).nextSeq = s.queue.nextSeq := by rw [hfinish]; rfl
        rw [hnext]
        refine advanceRetired_le h.retired_le ?_
        by_cases hlive : ∃ job' ∈ s.posted, (s.queue.setIdle w).minInflight ≤ WithTop.some job'.seq
        · obtain ⟨job', hj', hle⟩ := hlive
          exact .inr (hle.trans (WithTop.coe_le_coe.mpr (h.mem_posted_seq hj').2))
        · refine .inl (h.minInflight_eq_top (eq_nil_iff_forall_not_mem.mpr ?_) ?_)
          · exact fun job' hj' => hlive
              ⟨job', mem_of_mem_drop hj', h.minInflight_le_queued hj'⟩
          · exact fun v job' hvw hv => hlive
              ⟨job', h.order.subset (h.held v job' hv).1, h.minInflight_le_held hvw hv⟩
      retired_lt_held := fun v job' hv => by
        obtain ⟨hvw, hv⟩ := (hholding v job').mp hv
        exact advanceRetired_lt (h.retired_lt_held v job' hv) (h.minInflight_le_held hvw hv)
      retired_lt_queued := fun job' hj' =>
        advanceRetired_lt (h.retired_lt_queued job' hj') (h.minInflight_le_queued hj')
      drained := fun hempty hfree => by
        have hnext : (workerFinish s.queue w).nextSeq = s.queue.nextSeq := by rw [hfinish]; rfl
        rw [hnext]
        exact advanceRetired_drained h.retired_le (h.minInflight_eq_top hempty
          fun v job' hvw hv => hfree v job' ((hholding v job').mpr ⟨hvw, hv⟩)) }

end Worker

inductive IoMove (s : IoRun J) : IoAct J → IoRun J → Prop
  | postFails (ctx : J) (ctxFree growOk : Bool) : IoMove s (.post ctx ctxFree growOk) s
  | post (ctx : J) (ctxFree growOk : Bool) (q : IoQueue J)
      (hq : ioQueuePost s.queue ctx ctxFree growOk = some q) :
      IoMove s (.post ctx ctxFree growOk)
        { s with queue := q, posted := s.posted ++ [⟨ctx, ctxFree, q.nextSeq⟩] }
  | take (w : ℕ) (job : IoJob J) (q : IoQueue J) (hw : s.workers[w]? = some .waiting)
      (hq : workerTake s.queue w = some (job, q)) :
      IoMove s (.take w) { s with queue := q, workers := s.workers.set w (.running job),
                                  taken := s.taken ++ [job] }
  | fnReturns (w : ℕ) (job : IoJob J) (hw : s.workers[w]? = some (.running job)) :
      IoMove s (.fnReturns w)
        { s with workers := s.workers.set w (if job.ctxFree then .freeing job else .ran job),
                 fnReturned := s.fnReturned ++ [job.seq] }
  | freeReturns (w : ℕ) (job : IoJob J) (hw : s.workers[w]? = some (.freeing job)) :
      IoMove s (.freeReturns w)
        { s with workers := s.workers.set w (.ran job), freed := s.freed ++ [job.seq] }
  | finish (w : ℕ) (job : IoJob J) (hw : s.workers[w]? = some (.ran job)) :
      IoMove s (.finish w) { s with queue := workerFinish s.queue w,
                                    workers := s.workers.set w .waiting,
                                    finished := s.finished ++ [job.seq] }
  | shutdown : IoMove s .shutdown { s with queue := { s.queue with shutdown := true } }
  | exit (w : ℕ) (hw : s.workers[w]? = some .waiting) :
      IoMove s (.exit w) { s with workers := s.workers.set w .exited }

theorem ioStep_move {act : IoAct J} (hstep : ioStep s act = some s') : IoMove s act s' := by
  cases act with
  | post ctx ctxFree growOk =>
    rw [ioStep] at hstep
    split at hstep <;> cases hstep
    · exact .postFails ctx ctxFree growOk
    · exact .post ctx ctxFree growOk _ ‹_›
  | take w =>
    rw [ioStep] at hstep
    split at hstep
    · obtain ⟨⟨job, q⟩, hq, rfl⟩ := Option.map_eq_some_iff.mp hstep
      exact .take w job q ‹_› hq
    · cases hstep
  | fnReturns w =>
    rw [ioStep] at hstep
    split at hstep <;> cases hstep
    exact .fnReturns w _ ‹_›
  | freeReturns w =>
    rw [ioStep] at hstep
    split at hstep <;> cases hstep
    exact .freeReturns w _ ‹_›
  | finish w =>
    rw [ioStep] at hstep
    split at hstep <;> cases hstep
    exact .finish w _ ‹_›
  | shutdown =>
    cases hstep
    exact .shutdown
  | exit w =>
    rw [ioStep] at hstep
    split at hstep
    · split at hstep <;> cases hstep
      exact .exit w ‹_›
    · cases hstep

theorem IoInv.step (h : IoInv s) {act : IoAct J} (hstep : ioStep s act = some s') : IoInv s' := by
  cases ioStep_move hstep with
  | postFails => exact h
  | post ctx ctxFree growOk q hq => exact h.post hq
  | take w job q hw hq => exact h.take hw hq
  | fnReturns w job hw =>
    refine h.progress hw _ (by split <;> rfl) (subset_append_left _ _) (List.Subset.refl _)
      (fun job' hpc => ?_) fun job' hpc => ?_
    · split at hpc <;> cases hpc
      exact mem_append_right _ (mem_singleton_self _)
    · split at hpc <;> cases hpc
      exact ⟨mem_append_right _ (mem_singleton_self _), fun hfree => absurd hfree ‹_›⟩
  | freeReturns w job hw =>
    refine h.progress hw (.ran job) rfl (List.Subset.refl _) (subset_append_left _ _)
      (fun job' hpc => nomatch hpc) fun job' hpc => ?_
    cases hpc
    exact ⟨h.freeing w job hw, fun _ => mem_append_right _ (mem_singleton_self _)⟩
  | finish w job hw => exact h.finish hw
  | shutdown => exact { h with }
  | exit w hw =>
    exact h.progress hw .exited rfl (List.Subset.refl _) (List.Subset.refl _)
      (fun _ hpc => nomatch hpc) fun _ hpc => nomatch hpc

theorem ioStep_retired_le {act : IoAct J} (hstep : ioStep s act = some s') (h : IoInv s) :
    s.queue.retiredSeq ≤ s'.queue.retiredSeq := by
  cases ioStep_move hstep with
  | post ctx ctxFree growOk q hq => exact (ioQueuePost_spec h.ring hq).2.2.1.ge
  | take w job q hw hq =>
    obtain ⟨-, -, -, -, hretired, -⟩ := workerTake_spec h.ring hq
    exact hretired.ge
  | finish w job hw => exact le_advanceRetired (s.queue.setIdle w)
  | postFails | fnReturns | freeReturns | shutdown | exit => exact le_rfl

/-! ## Every job runs once -/

/-- No function and no `ctx_free` returns twice for a job, and none before its job was taken. -/
structure RunsOnce (s : IoRun J) : Prop where
  fn_nodup : s.fnReturned.Nodup
  free_nodup : s.freed.Nodup
  fn_taken : ∀ seq ∈ s.fnReturned, ∃ job ∈ s.taken, job.seq = seq
  free_taken : ∀ seq ∈ s.freed, ∃ job ∈ s.taken, job.seq = seq
  running : ∀ (w : ℕ) (job : IoJob J), s.workers[w]? = some (.running job) →
    job.seq ∉ s.fnReturned ∧ job.seq ∉ s.freed
  freeing : ∀ (w : ℕ) (job : IoJob J), s.workers[w]? = some (.freeing job) →
    job.ctxFree = true ∧ job.seq ∉ s.freed

theorem ioInit_runsOnce (nthreads : ℕ) : RunsOnce (ioInit nthreads : IoRun J) where
  fn_nodup := nodup_nil
  free_nodup := nodup_nil
  fn_taken := by simp [ioInit]
  free_taken := by simp [ioInit]
  running w job hw := by cases eq_of_mem_replicate (mem_of_getElem? hw)
  freeing w job hw := by cases eq_of_mem_replicate (mem_of_getElem? hw)

section RunsOnce

variable {w : ℕ} {job : IoJob J}

theorem IoInv.seq_ne (h : IoInv s) {v : ℕ} {job' : IoJob J} (hw : s.Holding w job)
    (hv : s.Holding v job') (hvw : v ≠ w) : job'.seq ≠ job.seq :=
  fun heq => hvw (h.alone v w job' job hv hw heq)

theorem RunsOnce.take (hr : RunsOnce s) (h : IoInv s) {q : IoQueue J}
    (hq : workerTake s.queue w = some (job, q)) :
    RunsOnce { s with queue := q, workers := s.workers.set w (.running job),
                      taken := s.taken ++ [job] } := by
  obtain ⟨rest, hqueued, -⟩ := workerTake_spec h.ring hq
  have hmem : job ∈ s.queued := hqueued ▸ mem_cons_self
  exact
    { fn_nodup := hr.fn_nodup
      free_nodup := hr.free_nodup
      fn_taken := fun seq hseq => by
        obtain ⟨job', hj', heq⟩ := hr.fn_taken seq hseq
        exact ⟨job', mem_append_left _ hj', heq⟩
      free_taken := fun seq hseq => by
        obtain ⟨job', hj', heq⟩ := hr.free_taken seq hseq
        exact ⟨job', mem_append_left _ hj', heq⟩
      running := fun v job' hv => by
        rcases pc_of_set hv with hnew | hold
        · cases hnew
          refine ⟨fun hseq => ?_, fun hseq => ?_⟩
          · obtain ⟨job', hj', heq⟩ := hr.fn_taken _ hseq
            exact h.queued_ne_taken hmem hj' heq
          · obtain ⟨job', hj', heq⟩ := hr.free_taken _ hseq
            exact h.queued_ne_taken hmem hj' heq
        · exact hr.running v job' hold
      freeing := fun v job' hv => hr.freeing v job' ((pc_of_set hv).resolve_left (by simp)) }

theorem RunsOnce.fnReturns (hr : RunsOnce s) (h : IoInv s)
    (hw : s.workers[w]? = some (.running job)) :
    RunsOnce { s with workers := s.workers.set w (if job.ctxFree then .freeing job else .ran job),
                      fnReturned := s.fnReturned ++ [job.seq] } := by
  have hmine : s.Holding w job := holding_of_pc hw rfl
  have hlt := (List.getElem?_eq_some_iff.mp hw).1
  have hother : ∀ (v : ℕ) (pc : WorkerPc J), v ≠ w →
      (s.workers.set w (if job.ctxFree then .freeing job else .ran job))[v]? = some pc →
      s.workers[v]? = some pc := fun v pc hvw hv => by rwa [getElem?_set_ne hvw.symm] at hv
  exact
    { fn_nodup := nodup_append.mpr ⟨hr.fn_nodup, nodup_singleton _, fun a ha b hb => by
        rw [mem_singleton.mp hb]
        exact fun heq => (hr.running w job hw).1 (heq ▸ ha)⟩
      free_nodup := hr.free_nodup
      fn_taken := fun seq hseq => by
        rw [mem_append, mem_singleton] at hseq
        rcases hseq with hold | rfl
        · exact hr.fn_taken seq hold
        · exact ⟨job, (h.held w job hmine).1, rfl⟩
      free_taken := hr.free_taken
      running := fun v job' hv => by
        have hvw : v ≠ w := by
          rintro rfl
          rw [getElem?_set_self hlt] at hv
          split at hv <;> cases hv
        have hold := hother v _ hvw hv
        rw [mem_append, mem_singleton, not_or]
        exact ⟨⟨(hr.running v job' hold).1, h.seq_ne hmine (holding_of_pc hold rfl) hvw⟩,
          (hr.running v job' hold).2⟩
      freeing := fun v job' hv => by
        by_cases hvw : v = w
        · subst hvw
          rw [getElem?_set_self hlt] at hv
          split at hv <;> cases hv
          exact ⟨‹_›, (hr.running v job hw).2⟩
        · exact hr.freeing v job' (hother v _ hvw hv) }

theorem RunsOnce.freeReturns (hr : RunsOnce s) (h : IoInv s)
    (hw : s.workers[w]? = some (.freeing job)) :
    RunsOnce { s with workers := s.workers.set w (.ran job), freed := s.freed ++ [job.seq] } := by
  have hmine : s.Holding w job := holding_of_pc hw rfl
  have hlt := (List.getElem?_eq_some_iff.mp hw).1
  have hother : ∀ (v : ℕ) (job' : IoJob J), s.Holding v job' → v ≠ w → job'.seq ∉ s.freed →
      job'.seq ∉ s.freed ++ [job.seq] := fun v job' hv hvw hfree => by
    rw [mem_append, mem_singleton, not_or]
    exact ⟨hfree, h.seq_ne hmine hv hvw⟩
  have hne : ∀ (v : ℕ) (pc : WorkerPc J), (s.workers.set w (.ran job))[v]? = some pc →
      pc ≠ .ran job → v ≠ w := by
    rintro v pc hv hpc rfl
    rw [getElem?_set_self hlt] at hv
    exact hpc (Option.some_inj.mp hv).symm
  exact
    { fn_nodup := hr.fn_nodup
      free_nodup := nodup_append.mpr ⟨hr.free_nodup, nodup_singleton _,
        fun a ha b hb => by
          rw [mem_singleton.mp hb]
          exact fun heq => (hr.freeing w job hw).2 (heq ▸ ha)⟩
      fn_taken := hr.fn_taken
      free_taken := fun seq hseq => by
        rw [mem_append, mem_singleton] at hseq
        rcases hseq with hold | rfl
        · exact hr.free_taken seq hold
        · exact ⟨job, (h.held w job hmine).1, rfl⟩
      running := fun v job' hv => by
        have hold := (pc_of_set hv).resolve_left (by simp)
        exact ⟨(hr.running v job' hold).1, hother v job' (holding_of_pc hold rfl)
          (hne v _ hv (by simp)) (hr.running v job' hold).2⟩
      freeing := fun v job' hv => by
        have hold := (pc_of_set hv).resolve_left (by simp)
        exact ⟨(hr.freeing v job' hold).1, hother v job' (holding_of_pc hold rfl)
          (hne v _ hv (by simp)) (hr.freeing v job' hold).2⟩ }

theorem RunsOnce.set_free (hr : RunsOnce s) {pc : WorkerPc J} (hpc : pc.job = none)
    {queue : IoQueue J} {finished : List ℕ} :
    RunsOnce { s with queue, workers := s.workers.set w pc, finished } where
  fn_nodup := hr.fn_nodup
  free_nodup := hr.free_nodup
  fn_taken := hr.fn_taken
  free_taken := hr.free_taken
  running v job hv := hr.running v job
    ((pc_of_set hv).resolve_left (by rintro rfl; cases hpc))
  freeing v job hv := hr.freeing v job
    ((pc_of_set hv).resolve_left (by rintro rfl; cases hpc))

theorem RunsOnce.step (hr : RunsOnce s) (h : IoInv s) {act : IoAct J}
    (hstep : ioStep s act = some s') : RunsOnce s' := by
  cases ioStep_move hstep with
  | postFails => exact hr
  | post => exact { hr with }
  | take w job q hw hq => exact hr.take h hq
  | fnReturns w job hw => exact hr.fnReturns h hw
  | freeReturns w job hw => exact hr.freeReturns h hw
  | finish w job hw => exact hr.set_free rfl
  | shutdown => exact { hr with }
  | exit w hw => exact hr.set_free rfl

theorem RunsOnce.finished_or_ran (hr : RunsOnce s) (h : IoInv s) (hj : job ∈ s.posted)
    (hret : s.Returned job) :
    job.seq ∈ s.finished ∨ ∃ w : ℕ, s.workers[w]? = some (.ran job) := by
  refine or_iff_not_imp_left.mpr fun hfin => ?_
  rcases h.live hj hfin with hqueued | ⟨w, hw⟩
  · obtain ⟨job', hj', heq⟩ := hr.fn_taken _ hret.1
    exact absurd heq (h.queued_ne_taken hqueued hj')
  · obtain ⟨pc, hpc, hjob⟩ := Option.bind_eq_some_iff.mp hw
    cases pc with
    | waiting | exited => cases hjob
    | running job' =>
      cases hjob
      exact absurd hret.1 (hr.running w job hpc).1
    | freeing job' =>
      cases hjob
      have ⟨hfree, hnot⟩ := hr.freeing w job hpc
      exact absurd (hret.2 hfree) hnot
    | ran job' =>
      cases hjob
      exact ⟨w, hpc⟩

end RunsOnce

/-! ## Runs -/

theorem ioRun_inv {acts : List (IoAct J)} (h : IoInv s) (hr : RunsOnce s)
    (hrun : ioRun s acts = some s') : IoInv s' ∧ RunsOnce s' := by
  induction acts generalizing s with
  | nil =>
    cases hrun
    exact ⟨h, hr⟩
  | cons act acts ih =>
    obtain ⟨next, hstep, hrest⟩ := Option.bind_eq_some_iff.mp hrun
    exact ih (h.step hstep) (hr.step h hstep) hrest

/-- What the users of the queue rely on, in a state between two critical sections. -/
structure IoContract (s : IoRun J) : Prop where
  /-- jobs are taken in the order in which they were posted -/
  inOrder : s.taken <+: s.posted
  /-- numbers are given in posting order, so no job is taken twice -/
  numbered : s.posted.map IoJob.seq = List.range' 1 s.queue.nextSeq
  /-- the ring has every job that was not taken -/
  kept : s.queue.head = s.queue.tail ↔ s.taken = s.posted
  /-- a worker that looks for a job gets the next one -/
  next : ∀ w : ℕ, s.workers[w]? = some .waiting → s.queue.head ≠ s.queue.tail →
    ∃ job s', ioStep s (.take w) = some s' ∧ s'.taken = s.taken ++ [job] ∧ s'.taken <+: s.posted
  /-- no job's function and no `ctx_free` runs twice -/
  once : s.fnReturned.Nodup ∧ s.freed.Nodup
  monotone : ∀ act s', ioStep s act = some s' → s.queue.retiredSeq ≤ s'.queue.retiredSeq
  le_next : s.queue.retiredSeq ≤ s.queue.nextSeq
  /-- what `retired_seq` reached has run to its end, on no worker any more -/
  retired : ∀ job ∈ s.posted, job.seq ≤ s.queue.retiredSeq →
    s.Returned job ∧ ∀ w, ¬ s.Holding w job
  /-- a job that ran to its end is finished as soon as its worker has the mutex -/
  recorded : ∀ job ∈ s.posted, s.Returned job → job.seq ∈ s.finished ∨
    ∃ w s', ioStep s (.finish w) = some s' ∧ s'.finished = s.finished ++ [job.seq]
  drained : (∀ job ∈ s.posted, job.seq ∈ s.finished) → s.queue.retiredSeq = s.queue.nextSeq

/-- **The queue keeps its contract in every run**: for any number of workers, in any interleaving of
posts, ring growth and the workers' steps, jobs are taken in posting order, each once, `retired_seq`
only grows, stays within `next_seq`, reaches a number only after all jobs up to it ran to their end,
and equals `next_seq` once all posted jobs are finished. -/
theorem ioQueue_contract (nthreads : ℕ) (acts : List (IoAct J)) (s : IoRun J)
    (hrun : ioRun (ioInit nthreads) acts = some s) : IoContract s := by
  have ⟨h, hr⟩ := ioRun_inv (ioInit_inv nthreads) (ioInit_runsOnce nthreads) hrun
  exact
    { inOrder := h.order
      numbered := h.seqs
      kept := by
        rw [h.ring.empty_iff]
        refine ⟨fun hempty => ?_, fun heq => ?_⟩
        · rw [h.posted_eq, hempty, append_nil]
        · rw [IoRun.queued, heq, drop_length]
      next := fun w hw hne => by
        obtain ⟨job, q, hq⟩ := workerTake_ne_none (w := w) h.ring hne
        have hstep : ioStep s (.take w) = some { s with
            queue := q, workers := s.workers.set w (.running job), taken := s.taken ++ [job] } := by
          rw [ioStep, hw, hq]
          rfl
        exact ⟨job, _, hstep, rfl, (h.step hstep).order⟩
      once := ⟨hr.fn_nodup, hr.free_nodup⟩
      monotone := fun act s' hstep => ioStep_retired_le hstep h
      le_next := h.retired_le
      retired := fun job hj hle => by
        refine ⟨h.returned_of_finished hj (h.finished_of_retired hj hle), fun w hw => ?_⟩
        exact absurd (h.retired_lt_held w job hw) (not_lt.mpr hle)
      recorded := fun job hj hret => by
        refine (hr.finished_or_ran h hj hret).imp_right fun ⟨w, hw⟩ => ?_
        have hstep : ioStep s (.finish w) = some { s with
            queue := workerFinish s.queue w, workers := s.workers.set w .waiting,
            finished := s.finished ++ [job.seq] } := by
          rw [ioStep, hw]
        exact ⟨w, _, hstep, rfl⟩
      drained := fun hall => by
        refine h.drained (eq_nil_iff_forall_not_mem.mpr fun job hj => ?_) fun w job hw => ?_
        · have hposted := mem_of_mem_drop hj
          obtain ⟨job', hj', heq, -⟩ := h.finished _ (hall job hposted)
          exact h.queued_ne_taken hj hj' heq
        · have ⟨htaken, hfin⟩ := h.held w job hw
          exact hfin (hall job (h.order.subset htaken)) }

/-- Two workers finish in the opposite order: the first to finish retires nothing, the second one
both jobs. -/
theorem ioQueue_contract_reversed :
    ∃ s : IoRun Unit, ioRun (ioInit 2) [.post () true true, .post () false true, .take 0, .take 1,
        .fnReturns 1, .finish 1, .fnReturns 0, .freeReturns 0, .finish 0] = some s ∧
      s.finished = [2, 1] ∧ s.queue.retiredSeq = 2 ∧ IoContract s := by
  refine ⟨(ioRun (ioInit 2) [.post () true true, .post () false true, .take 0, .take 1,
    .fnReturns 1, .finish 1, .fnReturns 0, .freeReturns 0, .finish 0]).get (by decide +kernel),
    (Option.some_get _).symm, by decide +kernel, by decide +kernel,
    ioQueue_contract 2 _ _ (Option.some_get _).symm⟩

end Damacy

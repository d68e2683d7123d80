import Mathlib.Algebra.Order.BigOperators.Group.List
import Damacy.Store.FsSubmit

/-!
# What a submission promises

`FsInv` counts the references to every submission's state: one for the caller, one for a job that is
about to be posted, and one for each posted job that has not been freed. The state is freed by the
drop that brings the count to zero, and by no other, because the pool bounds the number of jobs and
with it the 32-bit count. Its status is `io` exactly when the open or read of one of the jobs failed.
An event number is at least that of every job of its submission, so by the queue's invariant it is
retired only when all of them are finished.
-/

open List

namespace Damacy

/-! ## References -/

/-- The state of a submission to which there are `n` references. -/
structure FsSubmitState.Counted (st : FsSubmitState) (n : ℕ) : Prop where
  refs : st.refs = u32 n
  frees : st.frees = if n = 0 then 1 else 0

section Counted

variable {st : FsSubmitState} {n : ℕ}

theorem FsSubmitState.Counted.ref (h : st.Counted n) (hn : n ≠ 0) :
    (fsSubmitStateRef st).Counted (n + 1) where
  refs := by
    rw [fsSubmitStateRef, h.refs]
    exact Nat.mod_add_mod n (2 ^ 32) 1
  frees := by
    rw [if_neg (Nat.succ_ne_zero n), fsSubmitStateRef, h.frees, if_neg hn]

theorem FsSubmitState.Counted.drop (h : st.Counted (n + 1)) (hn : n < 2 ^ 32) :
    (fsSubmitStateDrop st).Counted n where
  refs := by
    rw [fsSubmitStateDrop, h.refs, u32Pred, u32]
    dsimp only
    split <;> unfold u32 <;> omega
  frees := by
    have hlast : u32 (n + 1) = 1 ↔ n = 0 := by
      unfold u32
      omega
    simp only [fsSubmitStateDrop, h.refs, h.frees, hlast, Nat.succ_ne_zero, if_false, Nat.zero_add]

@[simp] theorem fsReadJobFn_refs (o : ReadOutcome) (st : FsSubmitState) :
    (fsReadJobFn o st).refs = st.refs := by
  unfold fsReadJobFn fsSubmitStateFail
  split
  · rfl
  · split <;> rfl

@[simp] theorem fsReadJobFn_frees (o : ReadOutcome) (st : FsSubmitState) :
    (fsReadJobFn o st).frees = st.frees := by
  unfold fsReadJobFn fsSubmitStateFail
  split
  · rfl
  · split <;> rfl

theorem fsReadJobFn_status (o : ReadOutcome) (st : FsSubmitState) :
    (fsReadJobFn o st).status = if o.failed then .io else st.status := by
  unfold fsReadJobFn ReadOutcome.failed fsSubmitStateFail
  cases o.opened
  · rfl
  · by_cases hn : o.nRead < 0 <;> simp [hn]

end Counted

/-! ## The invariant -/

def FsRun.jobsOf (s : FsRun) (k : ℕ) : List (IoJob FsReadJob) :=
  s.io.posted.filter fun job => job.ctx.state = k

def FsRun.unfreed (s : FsRun) : List (IoJob FsReadJob) :=
  s.io.posted.filter fun job => job.seq ∉ s.io.freed

def FsRun.live (s : FsRun) (k : ℕ) : ℕ := s.unfreed.countP fun job => job.ctx.state = k

def FsRun.failed (s : FsRun) (k : ℕ) : Bool :=
  s.outcomes.any fun p => decide (p.1.ctx.state = k) && p.2.failed

structure SubView where
  jobs : List (IoJob FsReadJob)
  live : ℕ
  retired : ℕ
  failed : Bool

def FsRun.view (s : FsRun) (k : ℕ) : SubView where
  jobs := s.jobsOf k
  live := s.live k
  retired := s.io.queue.retiredSeq
  failed := s.failed k

def SubView.reads (v : SubView) : List StoreRead := v.jobs.map fun job => job.ctx.read

/-- A submission has taken a job from the pool that it has not posted or given back. -/
def SubmitPc.pending : SubmitPc → ℕ
  | .ref _ | .post _ | .unposted => 1
  | _ => 0

def SubmitPc.pendingRefs : SubmitPc → ℕ
  | .post _ | .unposted => 1
  | _ => 0

def FsSubmission.callerRefs (sub : FsSubmission) : ℕ :=
  match sub.pc, sub.event with
  | .returned .ok _, .held => 1
  | .returned _ _, _ => 0
  | _, _ => 1

/-- What is posted and retired at each point of `fs_submit`. -/
def SubmitPc.Spec (v : SubView) (reads : List StoreRead) : SubmitPc → Prop
  | .alloc i => v.reads = reads.take i ∧ i ≤ reads.length
  | .ref i | .post i => v.reads = reads.take i ∧ i < reads.length
  | .unposted => True
  | .record => v.reads = reads
  | .drain status => status ≠ .ok
  | .drainWait status seq => status ≠ .ok ∧ ∀ job ∈ v.jobs, job.seq ≤ seq
  | .drainDrop status => status ≠ .ok ∧ ∀ job ∈ v.jobs, job.seq ≤ v.retired
  | .returned status seq =>
    if status = .ok then v.reads = reads ∧ ∀ job ∈ v.jobs, job.seq ≤ seq
    else ∀ job ∈ v.jobs, job.seq ≤ v.retired

structure SubInv (v : SubView) (sub : FsSubmission) : Prop where
  spec : sub.pc.Spec v sub.reads
  counted : ∀ st ∈ sub.state, st.Counted (sub.callerRefs + sub.pc.pendingRefs + v.live)
  status : ∀ st ∈ sub.state, st.status = if v.failed then .io else .ok
  stateless : sub.state = none → v.jobs = [] ∧ sub.pc.pending = 0 ∧
    (sub.pc = .record ∨ ∃ status seq, sub.pc = .returned status seq)
  consumed : sub.event ≠ .held → ∃ seq, sub.pc = .returned .ok seq
  reported : ∀ status, sub.event = .reported status →
    (∀ job ∈ v.jobs, job.seq ≤ v.retired) ∧ status = if v.failed then .io else .ok

structure FsInv (s : FsRun) : Prop where
  io : IoInv s.io
  once : RunsOnce s.io
  inUse_le : s.inUse ≤ s.capacity
  capacity_le : s.capacity ≤ uint32Max
  inUse : s.inUse = (s.subs.map fun sub => sub.pc.pending).sum + s.unfreed.length
  owned : ∀ job ∈ s.io.posted, job.ctxFree = true ∧ job.ctx.state < s.subs.length
  logged : s.outcomes.map (fun p => p.1.seq) = s.io.fnReturned
  outcomes : ∀ p ∈ s.outcomes, p.1 ∈ s.io.posted
  subs : ∀ (k : ℕ) (sub : FsSubmission), s.subs[k]? = some sub → SubInv (s.view k) sub

/-! ## Steps of one submission -/

def SubmitPc.isReturned : SubmitPc → Bool
  | .returned _ _ => true
  | _ => false

theorem FsSubmission.callerRefs_eq_one {sub : FsSubmission} (h : sub.pc.isReturned = false) :
    sub.callerRefs = 1 := by
  unfold FsSubmission.callerRefs
  split <;> simp_all [SubmitPc.isReturned]

section Submission

variable {v : SubView} {reads : List StoreRead} {state : Option FsSubmitState} {pc : SubmitPc}
  {event : EventUse}

theorem SubmitPc.Spec.mono {v' : SubView} (h : pc.Spec v reads) (hjobs : v'.jobs = v.jobs)
    (hretired : v.retired ≤ v'.retired) : pc.Spec v' reads := by
  have hreads : v'.reads = v.reads := by rw [SubView.reads, hjobs, SubView.reads]
  have hdone : (∀ job ∈ v.jobs, job.seq ≤ v.retired) → ∀ job ∈ v'.jobs, job.seq ≤ v'.retired :=
    fun hall job hj => (hall job (hjobs ▸ hj)).trans hretired
  cases pc with
  | alloc | ref | post => exact ⟨hreads.trans h.1, h.2⟩
  | unposted => trivial
  | record => exact hreads.trans h
  | drain => exact h
  | drainWait => exact ⟨h.1, hjobs ▸ h.2⟩
  | drainDrop => exact ⟨h.1, hdone h.2⟩
  | returned status seq =>
    simp only [SubmitPc.Spec] at h ⊢
    split at h
    · rw [if_pos ‹_›, hreads, hjobs]
      exact h
    · rw [if_neg ‹_›]
      exact hdone h

theorem SubInv.retire {sub : FsSubmission} (h : SubInv v sub) {retired : ℕ}
    (hle : v.retired ≤ retired) : SubInv { v with retired } sub where
  spec := h.spec.mono rfl hle
  counted := h.counted
  status := h.status
  stateless := h.stateless
  consumed := h.consumed
  reported status he :=
    ⟨fun job hj => ((h.reported status he).1 job hj).trans hle, (h.reported status he).2⟩

theorem SubInv.fnReturns (h : SubInv v ⟨reads, state, pc, event⟩) {job : IoJob FsReadJob}
    (hj : job ∈ v.jobs) (hlt : v.retired < job.seq) (o : ReadOutcome) :
    SubInv { v with failed := v.failed || o.failed }
      ⟨reads, state.map (fsReadJobFn o), pc, event⟩ where
  spec := h.spec.mono rfl le_rfl
  counted st' hst' := by
    obtain ⟨st, hst, rfl⟩ := Option.mem_map.mp hst'
    have hold := h.counted st hst
    exact ⟨(fsReadJobFn_refs o st).trans hold.refs, (fsReadJobFn_frees o st).trans hold.frees⟩
  status st' hst' := by
    obtain ⟨st, hst, rfl⟩ := Option.mem_map.mp hst'
    rw [fsReadJobFn_status, h.status st hst]
    cases v.failed <;> cases o.failed <;> rfl
  stateless hnone := h.stateless (Option.map_eq_none_iff.mp hnone)
  consumed := h.consumed
  reported status he := absurd ((h.reported status he).1 job hj) (not_le.mpr hlt)

theorem SubInv.freeReturns {live : ℕ} (h : SubInv v ⟨reads, state, pc, event⟩)
    (hlive : v.live = live + 1)
    (hbound : FsSubmission.callerRefs ⟨reads, state, pc, event⟩ + pc.pendingRefs + live < 2 ^ 32) :
    SubInv { v with live } ⟨reads, state.map fsSubmitStateDrop, pc, event⟩ where
  spec := h.spec.mono rfl le_rfl
  counted st' hst' := by
    obtain ⟨st, hst, rfl⟩ := Option.mem_map.mp hst'
    have hold := h.counted st hst
    rw [hlive, ← Nat.add_assoc] at hold
    exact hold.drop hbound
  status st' hst' := by
    obtain ⟨st, hst, rfl⟩ := Option.mem_map.mp hst'
    exact h.status st hst
  stateless hnone := h.stateless (Option.map_eq_none_iff.mp hnone)
  consumed := h.consumed
  reported := h.reported

theorem SubInv.advance (h : SubInv v ⟨reads, state, pc, event⟩) (pc' : SubmitPc)
    (f : FsSubmitState → FsSubmitState) (hpc : pc.isReturned = false) (hrecord : pc ≠ .record)
    (hpc' : pc'.isReturned = false) (hspec : pc'.Spec v reads)
    (hstatus : ∀ st, (f st).status = st.status)
    (hf : ∀ st, st.Counted (1 + pc.pendingRefs + v.live) →
      (f st).Counted (1 + pc'.pendingRefs + v.live)) :
    SubInv v ⟨reads, state.map f, pc', event⟩ where
  spec := hspec
  counted st' hst' := by
    obtain ⟨st, hst, rfl⟩ := Option.mem_map.mp hst'
    rw [FsSubmission.callerRefs_eq_one hpc']
    refine hf st ?_
    have hold := h.counted st hst
    rwa [FsSubmission.callerRefs_eq_one hpc] at hold
  status st' hst' := by
    obtain ⟨st, hst, rfl⟩ := Option.mem_map.mp hst'
    exact (hstatus st).trans (h.status st hst)
  stateless hnone := by
    obtain ⟨-, -, hrec | ⟨status, seq, hret⟩⟩ := h.stateless (Option.map_eq_none_iff.mp hnone)
    · exact absurd hrec hrecord
    · cases hret
      cases hpc
  consumed he := by
    obtain ⟨seq, hret⟩ := h.consumed he
    cases hret
    cases hpc
  reported := h.reported

theorem SubInv.goto (h : SubInv v ⟨reads, state, pc, event⟩) {pc' : SubmitPc}
    (hpc : pc.isReturned = false) (hrecord : pc ≠ .record) (hpc' : pc'.isReturned = false)
    (hspec : pc'.Spec v reads) (hrefs : pc'.pendingRefs = pc.pendingRefs) :
    SubInv v ⟨reads, state, pc', event⟩ := by
  have hstep := h.advance pc' id hpc hrecord hpc' hspec (fun _ => rfl)
    fun st hst => by rwa [hrefs]
  rwa [Option.map_id] at hstep

theorem SubInv.record (h : SubInv v ⟨reads, state, .record, event⟩) {seq : ℕ}
    (hseq : ∀ job ∈ v.jobs, job.seq ≤ seq) :
    SubInv v ⟨reads, state, .returned .ok seq, event⟩ where
  spec := ⟨h.spec, hseq⟩
  counted st hst := by
    cases event with
    | held => exact h.counted st hst
    | reported | discarded =>
      obtain ⟨seq, hret⟩ := h.consumed (by simp)
      cases hret
  status := h.status
  stateless hnone := ⟨(h.stateless hnone).1, rfl, .inr ⟨_, _, rfl⟩⟩
  consumed _ := ⟨seq, rfl⟩
  reported := h.reported

theorem SubInv.release (h : SubInv v ⟨reads, state, pc, event⟩)
    (hcaller : FsSubmission.callerRefs ⟨reads, state, pc, event⟩ + pc.pendingRefs = 1)
    {status : Status} {seq : ℕ} {event' : EventUse}
    (hcaller' : FsSubmission.callerRefs
      ⟨reads, state.map fsSubmitStateDrop, .returned status seq, event'⟩ = 0)
    (hlive : v.live < 2 ^ 32) (hspec : (SubmitPc.returned status seq).Spec v reads)
    (hconsumed : event' ≠ .held → status = .ok)
    (hreported : ∀ status, event' = .reported status →
      (∀ job ∈ v.jobs, job.seq ≤ v.retired) ∧ status = if v.failed then .io else .ok) :
    SubInv v ⟨reads, state.map fsSubmitStateDrop, .returned status seq, event'⟩ where
  spec := hspec
  counted st' hst' := by
    obtain ⟨st, hst, rfl⟩ := Option.mem_map.mp hst'
    have hold := h.counted st hst
    have hnone : FsSubmission.callerRefs
        ⟨reads, state.map fsSubmitStateDrop, .returned status seq, event'⟩ +
        (SubmitPc.returned status seq).pendingRefs = 0 := hcaller'
    rw [hcaller, Nat.add_comm] at hold
    rw [hnone, Nat.zero_add]
    exact hold.drop hlive
  status st' hst' := by
    obtain ⟨st, hst, rfl⟩ := Option.mem_map.mp hst'
    exact h.status st hst
  stateless hnone := ⟨(h.stateless (Option.map_eq_none_iff.mp hnone)).1, rfl, .inr ⟨_, _, rfl⟩⟩
  consumed he := ⟨seq, by rw [hconsumed he]⟩
  reported := hreported

theorem SubInv.drainDrop {status : Status} (h : SubInv v ⟨reads, state, .drainDrop status, event⟩)
    (hlive : v.live < 2 ^ 32) :
    SubInv v ⟨reads, state.map fsSubmitStateDrop, .returned status 0, event⟩ := by
  have ⟨hstatus, hretired⟩ := h.spec
  have hheld : event = .held := by
    by_contra he
    obtain ⟨seq, hret⟩ := h.consumed he
    cases hret
  subst hheld
  refine h.release rfl ?_ hlive ((if_neg hstatus).mpr hretired) (absurd rfl) h.reported
  unfold FsSubmission.callerRefs
  split <;> simp_all

theorem SubInv.consume {seq : ℕ} (h : SubInv v ⟨reads, state, .returned .ok seq, .held⟩)
    (hlive : v.live < 2 ^ 32) {event : EventUse} (hevent : event ≠ .held)
    (hreported : ∀ status, event = .reported status →
      (∀ job ∈ v.jobs, job.seq ≤ v.retired) ∧ status = if v.failed then .io else .ok) :
    SubInv v ⟨reads, state.map fsSubmitStateDrop, .returned .ok seq, event⟩ := by
  refine h.release rfl ?_ hlive h.spec (fun _ => rfl) hreported
  unfold FsSubmission.callerRefs
  split <;> simp_all

end Submission

/-! ## Steps of the store -/

section Lists

variable {α : Type*}

theorem sum_map_set (f : α → ℕ) {l : List α} {k : ℕ} {x : α} (hk : l[k]? = some x) (y : α) :
    ((l.set k y).map f).sum + f x = (l.map f).sum + f y := by
  induction l generalizing k with
  | nil => cases hk
  | cons z l ih =>
    cases k with
    | zero =>
      cases hk
      simp only [set_cons_zero, map_cons, sum_cons]
      omega
    | succ k =>
      have := ih hk
      simp only [set_cons_succ, map_cons, sum_cons]
      omega

theorem le_sum_map (f : α → ℕ) {l : List α} {k : ℕ} {x : α} (hk : l[k]? = some x) :
    f x ≤ (l.map f).sum :=
  le_sum_of_mem (mem_map_of_mem (mem_of_getElem? hk))

theorem countP_strike {f : α → ℕ} {l : List α} (hnodup : (l.map f).Nodup) {struck : List ℕ} {x : α}
    (hx : x ∈ l) (hnew : f x ∉ struck) (p : α → Bool) :
    (l.filter fun y => f y ∉ struck).countP p =
      (l.filter fun y => f y ∉ struck ++ [f x]).countP p + if p x then 1 else 0 := by
  induction l with
  | nil => cases hx
  | cons y l ih =>
    rw [map_cons, nodup_cons] at hnodup
    rcases mem_cons.mp hx with rfl | hx
    · -- no later element has the key
      have hrest : (l.filter fun y => f y ∉ struck ++ [f x]) = l.filter fun y => f y ∉ struck := by
        refine filter_congr fun y hy => ?_
        have hne : f y ≠ f x := fun heq => hnodup.1 (heq ▸ mem_map_of_mem hy)
        simp [hne]
      rw [filter_cons_of_pos (by simpa using hnew), filter_cons_of_neg (by simp), hrest,
        countP_cons]
    · have hne : f y ≠ f x := fun heq => hnodup.1 (heq ▸ mem_map_of_mem hx)
      have ih := ih hnodup.2 hx
      by_cases hy : f y ∈ struck
      · rw [filter_cons_of_neg (by simpa using hy), filter_cons_of_neg (by simp [hy]), ih]
      · rw [filter_cons_of_pos (by simpa using hy),
          filter_cons_of_pos (by simpa [hne] using hy), countP_cons, countP_cons, ih]
        omega

end Lists

section Store

variable {s s' : FsRun} {k : ℕ} {sub : FsSubmission}

theorem FsRun.mem_jobsOf {job : IoJob FsReadJob} :
    job ∈ s.jobsOf k ↔ job ∈ s.io.posted ∧ job.ctx.state = k := by
  simp [FsRun.jobsOf]

theorem FsInv.pending_add_live (h : FsInv s) (hk : s.subs[k]? = some sub) :
    sub.pc.pending + s.live k < 2 ^ 32 := by
  have hpending : sub.pc.pending ≤ (s.subs.map fun sub => sub.pc.pending).sum :=
    le_sum_map (fun sub => sub.pc.pending) hk
  have hlive : s.live k ≤ s.unfreed.length := countP_le_length
  have hinUse := h.inUse
  have hle := h.inUse_le
  have hcap := h.capacity_le
  unfold uint32Max at hcap
  omega

theorem FsInv.live_lt (h : FsInv s) (hk : s.subs[k]? = some sub) : (s.view k).live < 2 ^ 32 :=
  (Nat.le_add_left _ _).trans_lt (h.pending_add_live hk)

theorem FsInv.update (h : FsInv s) (hk : s.subs[k]? = some sub) {sub' : FsSubmission}
    (hsubs : s'.subs = s.subs.set k sub') (hio : IoInv s'.io) (honce : RunsOnce s'.io)
    (hcap : s'.capacity = s.capacity) (hle : s'.inUse ≤ s.capacity)
    (hcount : s'.inUse + sub.pc.pending + s.unfreed.length =
      s.inUse + sub'.pc.pending + s'.unfreed.length)
    (howned : ∀ job ∈ s'.io.posted, job.ctxFree = true ∧ job.ctx.state < s.subs.length)
    (hlogged : s'.outcomes.map (fun p => p.1.seq) = s'.io.fnReturned)
    (houtcomes : ∀ p ∈ s'.outcomes, p.1 ∈ s'.io.posted)
    (hself : SubInv (s'.view k) sub')
    (hother : ∀ j sub, j ≠ k → SubInv (s.view j) sub → SubInv (s'.view j) sub) : FsInv s' where
  io := hio
  once := honce
  inUse_le := hle.trans hcap.ge
  capacity_le := hcap.le.trans h.capacity_le
  inUse := by
    have hsum := sum_map_set (fun sub => sub.pc.pending) hk sub'
    have hold := h.inUse
    rw [hsubs]
    omega
  owned job hj := by
    rw [hsubs, length_set]
    exact howned job hj
  logged := hlogged
  outcomes := houtcomes
  subs j sub'' hj := by
    rw [hsubs, getElem?_set] at hj
    split at hj
    · subst j
      split at hj
      · cases hj
        exact hself
      · cases hj
    · exact hother j sub'' (Ne.symm ‹_›) (h.subs j sub'' hj)

theorem FsInv.setSub (h : FsInv s) (hk : s.subs[k]? = some sub) {sub' : FsSubmission} {inUse : ℕ}
    (hsub : SubInv (s.view k) sub')
    (hcount : inUse + sub.pc.pending = s.inUse + sub'.pc.pending) (hle : inUse ≤ s.capacity) :
    FsInv ({ s with inUse }.setSub k sub') :=
  h.update hk rfl h.io h.once rfl hle (congrArg (· + s.unfreed.length) hcount) h.owned h.logged
    h.outcomes hsub fun _ _ _ hsub => hsub

theorem FsInv.setSub_same (h : FsInv s) (hk : s.subs[k]? = some sub) {sub' : FsSubmission}
    (hsub : SubInv (s.view k) sub') (hcount : sub'.pc.pending = sub.pc.pending) :
    FsInv (s.setSub k sub') :=
  h.setSub hk hsub (by rw [hcount]) h.inUse_le

theorem FsInv.submit (h : FsInv s) (reads : List StoreRead) (allocOk : Bool) :
    FsInv { s with subs := s.subs ++ [fsSubmit reads allocOk] } := by
  have hnojobs : ∀ j, s.subs.length ≤ j → s.jobsOf j = [] := by
    intro j hj
    refine filter_eq_nil_iff.mpr fun job hjob => ?_
    have := (h.owned job hjob).2
    simp only [decide_eq_true_eq]
    omega
  have hlive : s.live s.subs.length = 0 := by
    refine countP_eq_zero.mpr fun job hjob => ?_
    have := (h.owned job (mem_of_mem_filter hjob)).2
    simp only [decide_eq_true_eq]
    omega
  have hfailed : s.failed s.subs.length = false := by
    refine any_eq_false.mpr fun p hp => ?_
    have := (h.owned p.1 (h.outcomes p hp)).2
    have hne : p.1.ctx.state ≠ s.subs.length := by omega
    simp [hne]
  have hpending : (fsSubmit reads allocOk).pc.pending = 0 := by
    unfold fsSubmit
    split
    · rfl
    · split <;> rfl
  have hsub : SubInv (s.view s.subs.length) (fsSubmit reads allocOk) := by
    have hjobs := hnojobs s.subs.length le_rfl
    unfold fsSubmit
    split
    · rename_i hreads
      subst hreads
      exact
        { spec := by simp [SubmitPc.Spec, SubView.reads, FsRun.view, hjobs]
          counted := by simp
          status := by simp
          stateless := fun _ => ⟨hjobs, rfl, .inl rfl⟩
          consumed := absurd rfl
          reported := by simp }
    · split
      · exact
          { spec := by simp [SubmitPc.Spec, SubView.reads, FsRun.view, hjobs]
            counted := fun st hst => by
              cases hst
              rw [FsRun.view, hlive]
              exact ⟨rfl, rfl⟩
            status := fun st hst => by
              cases hst
              rw [FsRun.view, hfailed]
              rfl
            stateless := by simp
            consumed := absurd rfl
            reported := by simp }
      · exact
          { spec := by simp [SubmitPc.Spec, FsRun.view, hjobs]
            counted := by simp
            status := by simp
            stateless := fun _ => ⟨hjobs, rfl, .inr ⟨_, _, rfl⟩⟩
            consumed := absurd rfl
            reported := by simp }
  exact
    { io := h.io
      once := h.once
      inUse_le := h.inUse_le
      capacity_le := h.capacity_le
      inUse := by
        rw [map_append, sum_append, map_singleton, sum_singleton, hpending]
        exact h.inUse
      owned := fun job hj => by
        rw [length_append]
        exact ⟨(h.owned job hj).1, Nat.lt_add_right _ (h.owned job hj).2⟩
      logged := h.logged
      outcomes := h.outcomes
      subs := fun j sub hj => by
        rw [getElem?_append] at hj
        split at hj
        · exact h.subs j sub hj
        · have hlast : j = s.subs.length := by
            have := (List.getElem?_eq_some_iff.mp hj).1
            rw [length_singleton] at this
            omega
          subst hlast
          rw [Nat.sub_self, getElem?_cons_zero, Option.some_inj] at hj
          subst hj
          exact hsub }

theorem FsInv.nextSeq_not_freed (h : FsInv s) : s.io.queue.nextSeq + 1 ∉ s.io.freed := by
  intro hmem
  obtain ⟨job, htaken, hseq⟩ := h.once.free_taken _ hmem
  have := (h.io.mem_posted_seq (h.io.order.subset htaken)).2
  omega

theorem FsInv.post (h : FsInv s) {reads : List StoreRead} {state : Option FsSubmitState} {i : ℕ}
    {event : EventUse} {read : StoreRead} {growOk : Bool} {q : IoQueue FsReadJob}
    (hk : s.subs[k]? = some ⟨reads, state, .post i, event⟩) (hread : reads[i]? = some read)
    (hq : ioQueuePost s.io.queue ⟨k, read⟩ true growOk = some q) :
    FsInv (FsRun.setSub { s with io := { s.io with
        queue := q, posted := s.io.posted ++ [⟨⟨k, read⟩, true, q.nextSeq⟩] } } k
      ⟨reads, state, .alloc (i + 1), event⟩) := by
  obtain ⟨-, hnext, hretired, -⟩ := ioQueuePost_spec h.io.ring hq
  have hsub := h.subs k _ hk
  have hunfreed : (s.io.posted ++ [(⟨⟨k, read⟩, true, q.nextSeq⟩ : IoJob FsReadJob)]).filter
      (fun job => job.seq ∉ s.io.freed) = s.unfreed ++ [⟨⟨k, read⟩, true, q.nextSeq⟩] := by
    rw [filter_append, FsRun.unfreed, filter_singleton, hnext]
    simp [h.nextSeq_not_freed]
  have hheld : event = .held := by
    by_contra he
    obtain ⟨seq, hret⟩ := hsub.consumed he
    cases hret
  have hview : ∀ j, FsRun.view (FsRun.setSub { s with io := { s.io with
        queue := q, posted := s.io.posted ++ [⟨⟨k, read⟩, true, q.nextSeq⟩] } } k
      ⟨reads, state, .alloc (i + 1), event⟩) j =
      { jobs := s.jobsOf j ++ if k = j then [⟨⟨k, read⟩, true, q.nextSeq⟩] else []
        live := s.live j + if k = j then 1 else 0
        retired := s.io.queue.retiredSeq
        failed := s.failed j } := by
    intro j
    dsimp only [FsRun.view, FsRun.setSub, FsRun.jobsOf, FsRun.live, FsRun.unfreed]
    rw [hunfreed, filter_append, filter_singleton, countP_append,
      countP_singleton, hretired]
    simp only [decide_eq_true_eq, Bool.cond_decide]
    rfl
  refine h.update hk rfl (h.io.post hq) { h.once with } rfl h.inUse_le ?_ ?_ h.logged
    (fun p hp => mem_append_left _ (h.outcomes p hp)) ?_ ?_
  · have hlength := congrArg List.length hunfreed
    rw [length_append, length_singleton] at hlength
    have hpost : (SubmitPc.post i).pending = 1 := rfl
    have halloc : (SubmitPc.alloc (i + 1)).pending = 0 := rfl
    dsimp only [FsRun.setSub, FsRun.unfreed] at hlength ⊢
    omega
  · intro job hj
    dsimp only [FsRun.setSub] at hj
    rcases mem_append.mp hj with hj | hj
    · exact h.owned job hj
    · cases mem_singleton.mp hj
      exact ⟨rfl, (List.getElem?_eq_some_iff.mp hk).1⟩
  · rw [hview k, if_pos rfl, if_pos rfl]
    subst hheld
    have ⟨hreads, hi⟩ := hsub.spec
    exact
      { spec := by
          refine ⟨?_, hi⟩
          rw [SubView.reads, map_append, take_add_one, hread]
          exact congrArg (· ++ [read]) hreads
        counted := fun st hst => by
          have hold : st.Counted (1 + 1 + s.live k) := hsub.counted st hst
          have hcount : 1 + 1 + s.live k = 1 + 0 + (s.live k + 1) := by omega
          exact hcount ▸ hold
        status := hsub.status
        stateless := fun hnone => by
          obtain ⟨-, hpending, -⟩ := hsub.stateless hnone
          cases hpending
        consumed := absurd rfl
        reported := by simp }
  · intro j sub hj hsub
    rw [hview j, if_neg (Ne.symm hj), if_neg (Ne.symm hj), append_nil]
    exact hsub

theorem FsInv.submitStep (h : FsInv s) (hk : s.subs[k]? = some sub) {ok : Bool}
    (hstep : fsSubmitStep s k sub ok = some s') : FsInv s' := by
  have hsub := h.subs k sub hk
  obtain ⟨reads, state, pc, event⟩ := sub
  have hnext : ∀ job ∈ (s.view k).jobs, job.seq ≤ s.io.queue.nextSeq := fun job hj =>
    (h.io.mem_posted_seq (FsRun.mem_jobsOf.mp hj).1).2
  cases pc with
  | alloc i =>
    dsimp only [fsSubmitStep] at hstep
    split at hstep
    · split at hstep
      · cases hstep
        exact h.setSub hk (hsub.goto rfl (by simp) rfl ⟨hsub.spec.1, ‹_›⟩ rfl) rfl (And.right ‹_›)
      · cases hstep
        exact h.setSub_same hk (hsub.goto rfl (by simp) rfl (by simp [SubmitPc.Spec]) rfl) rfl
    · cases hstep
      refine h.setSub_same hk (hsub.goto rfl (by simp) rfl ?_ rfl) rfl
      exact hsub.spec.1.trans (take_of_length_le (not_lt.mp ‹_›))
  | ref i =>
    cases hstep
    refine h.setSub_same hk (hsub.advance (.post i) fsSubmitStateRef rfl (by simp) rfl hsub.spec
      (fun _ => rfl) fun st hst => ?_) rfl
    have hcount : 1 + 0 + (s.view k).live + 1 = 1 + 1 + (s.view k).live := by omega
    exact hcount ▸ hst.ref (by omega)
  | post i =>
    dsimp only [fsSubmitStep] at hstep
    split at hstep
    · cases hstep
    · rename_i read hread
      split at hstep
      · cases hstep
        exact h.setSub_same hk (hsub.goto rfl (by simp) rfl trivial rfl) rfl
      · rename_i q hq
        obtain ⟨io, hio, rfl⟩ := Option.map_eq_some_iff.mp hstep
        rw [ioStep, hq, Option.some_inj] at hio
        subst hio
        exact h.post hk hread hq
  | unposted =>
    cases hstep
    have hbound : 1 + s.live k < 2 ^ 32 := h.pending_add_live hk
    have hpos : 1 ≤ s.inUse := by
      have hle : 1 ≤ (s.subs.map fun sub => sub.pc.pending).sum :=
        le_sum_map (fun sub => sub.pc.pending) hk
      have hinUse := h.inUse
      omega
    have hgiven : s.inUse - 1 + SubmitPc.unposted.pending =
        s.inUse + (SubmitPc.drain .io).pending := Nat.sub_add_cancel hpos
    refine h.setSub hk (hsub.advance (.drain .io) fsSubmitStateDrop rfl (by simp) rfl
      (by simp [SubmitPc.Spec]) (fun _ => rfl) fun st hst => ?_) hgiven
      ((Nat.sub_le _ _).trans h.inUse_le)
    have hcount : 1 + 1 + s.live k = 1 + 0 + s.live k + 1 := by omega
    have hold : st.Counted (1 + 1 + s.live k) := hst
    exact FsSubmitState.Counted.drop (hcount ▸ hold) hbound
  | record =>
    cases hstep
    exact h.setSub_same hk (hsub.record hnext) rfl
  | drain status =>
    cases hstep
    exact h.setSub_same hk (hsub.goto rfl (by simp) rfl ⟨hsub.spec, hnext⟩ rfl) rfl
  | drainWait status seq =>
    dsimp only [fsSubmitStep] at hstep
    split at hstep
    · rename_i hretired
      cases hstep
      have hle : seq ≤ s.io.queue.retiredSeq := of_decide_eq_true hretired
      obtain ⟨hstatus, hseq⟩ := hsub.spec
      exact h.setSub_same hk (hsub.goto rfl (by simp) rfl
        ⟨hstatus, fun job hj => (hseq job hj).trans hle⟩ rfl) rfl
    · cases hstep
  | drainDrop status =>
    cases hstep
    exact h.setSub_same hk (hsub.drainDrop (h.live_lt hk)) rfl
  | returned status seq => cases hstep

theorem FsInv.workerStep (h : FsInv s) {act : IoAct FsReadJob} {io : IoRun FsReadJob}
    (hio : ioStep s.io act = some io) (hposted : io.posted = s.io.posted)
    (hfn : io.fnReturned = s.io.fnReturned) (hfreed : io.freed = s.io.freed) :
    FsInv { s with io } := by
  have hview : ∀ j, FsRun.view { s with io } j =
      { s.view j with retired := io.queue.retiredSeq } := by
    intro j
    simp only [FsRun.view, FsRun.jobsOf, FsRun.live, FsRun.unfreed, FsRun.failed, hposted, hfreed]
  exact
    { io := h.io.step hio
      once := h.once.step h.io hio
      inUse_le := h.inUse_le
      capacity_le := h.capacity_le
      inUse := by
        simp only [FsRun.unfreed, hposted, hfreed]
        exact h.inUse
      owned := fun job hj => h.owned job (hposted ▸ hj)
      logged := h.logged.trans hfn.symm
      outcomes := fun p hp => hposted ▸ h.outcomes p hp
      subs := fun j sub hj => by
        rw [hview j]
        exact (h.subs j sub hj).retire (ioStep_retired_le hio h.io) }

theorem modify_eq_set {α : Type*} {l : List α} {x : α} (hk : l[k]? = some x) (f : α → α) :
    l.modify k f = l.set k (f x) := by
  apply ext_getElem?
  intro j
  rw [getElem?_modify, getElem?_set]
  split
  · subst j
    rw [hk, if_pos (List.getElem?_eq_some_iff.mp hk).1]
    rfl
  · exact Option.map_id'

variable {w : ℕ} {job : IoJob FsReadJob}

theorem FsInv.holding (h : FsInv s) (hw : s.io.Holding w job) :
    job ∈ s.io.posted ∧ ∃ sub, s.subs[job.ctx.state]? = some sub := by
  have hj := h.io.order.subset (h.io.held w job hw).1
  exact ⟨hj, _, getElem?_eq_getElem (h.owned job hj).2⟩

theorem FsInv.fnReturns (h : FsInv s) (hw : s.io.workers[w]? = some (.running job)) (o : ReadOutcome)
    {io : IoRun FsReadJob} (hio : ioStep s.io (.fnReturns w) = some io) :
    FsInv { s with
      io
      subs := s.subs.modify job.ctx.state fun sub =>
        { sub with state := sub.state.map (fsReadJobFn o) }
      outcomes := s.outcomes ++ [(job, o)] } := by
  have hholding : s.io.Holding w job := holding_of_pc hw rfl
  have ⟨hj, sub, hk⟩ := h.holding hholding
  have hinv := h.io.step hio
  have honce := h.once.step h.io hio
  rw [ioStep, hw, Option.some_inj] at hio
  subst hio
  have hview : ∀ (subs : List FsSubmission) (io : IoRun FsReadJob),
      io.posted = s.io.posted → io.freed = s.io.freed → io.queue = s.io.queue → ∀ j,
      FsRun.view { s with io, subs, outcomes := s.outcomes ++ [(job, o)] } j =
        { s.view j with
          failed := s.failed j || (decide (job.ctx.state = j) && o.failed) } := by
    intro subs io hposted hfreed hqueue j
    simp only [FsRun.view, FsRun.jobsOf, FsRun.live, FsRun.unfreed, FsRun.failed, hposted, hfreed,
      hqueue, any_append, any_cons, any_nil, Bool.or_false]
  have hsub := h.subs _ sub hk
  obtain ⟨reads, state, pc, event⟩ := sub
  refine h.update hk (modify_eq_set hk _) hinv honce rfl h.inUse_le rfl h.owned ?_ ?_ ?_ ?_
  · rw [map_append, h.logged]
    rfl
  · intro p hp
    rcases mem_append.mp hp with hp | hp
    · exact h.outcomes p hp
    · cases mem_singleton.mp hp
      exact hj
  · rw [hview, decide_eq_true rfl, Bool.true_and]
    · exact hsub.fnReturns (FsRun.mem_jobsOf.mpr ⟨hj, rfl⟩)
        (h.io.retired_lt_held w job hholding) o
    all_goals rfl
  · intro j sub hne hsub
    rw [hview, decide_eq_false (Ne.symm hne), Bool.false_and, Bool.or_false]
    · exact hsub
    all_goals rfl

theorem FsInv.freeReturns (h : FsInv s) (hw : s.io.workers[w]? = some (.freeing job))
    {io : IoRun FsReadJob} (hio : ioStep s.io (.freeReturns w) = some io) :
    FsInv { s with
      io
      subs := s.subs.modify job.ctx.state fun sub =>
        { sub with state := sub.state.map fsSubmitStateDrop }
      inUse := s.inUse - 1 } := by
  have ⟨hj, sub, hk⟩ := h.holding (holding_of_pc hw rfl)
  have hinv := h.io.step hio
  have honce := h.once.step h.io hio
  rw [ioStep, hw, Option.some_inj] at hio
  subst hio
  have hstrike := countP_strike h.io.nodup hj (h.once.freeing w job hw).2
  have hlive : ∀ j, s.live j =
      (s.io.posted.filter fun job' => job'.seq ∉ s.io.freed ++ [job.seq]).countP
        (fun job' => job'.ctx.state = j) + if job.ctx.state = j then 1 else 0 := by
    intro j
    have hcount := hstrike fun job => decide (job.ctx.state = j)
    simp only [decide_eq_true_eq] at hcount
    exact hcount
  have hlength : s.unfreed.length =
      (s.io.posted.filter fun job' => job'.seq ∉ s.io.freed ++ [job.seq]).length + 1 := by
    have hcount := hstrike fun _ => true
    rwa [countP_true, if_pos rfl] at hcount
  have hsub := h.subs _ sub hk
  have hbound := h.pending_add_live hk
  have hinUse := h.inUse
  obtain ⟨reads, state, pc, event⟩ := sub
  refine h.update hk (modify_eq_set hk _) hinv honce rfl ((Nat.sub_le _ _).trans h.inUse_le) ?_
    h.owned h.logged h.outcomes ?_ ?_
  · dsimp only [FsRun.unfreed] at hlength hinUse ⊢
    omega
  · have hmine := hlive job.ctx.state
    rw [if_pos rfl] at hmine
    refine hsub.freeReturns hmine ?_
    have hcaller : FsSubmission.callerRefs ⟨reads, state, pc, event⟩ ≤ 1 := by
      unfold FsSubmission.callerRefs
      split <;> simp
    have hpending : pc.pendingRefs ≤ pc.pending := by
      cases pc <;> simp [SubmitPc.pendingRefs, SubmitPc.pending]
    dsimp only [FsRun.live, FsRun.unfreed] at hbound hmine ⊢
    omega
  · intro j sub hne hsub
    have hother := hlive j
    rw [if_neg (Ne.symm hne), Nat.add_zero] at hother
    dsimp only [FsRun.view] at hsub
    rw [hother] at hsub
    exact hsub

theorem FsInv.consume (h : FsInv s) (hk : s.subs[k]? = some sub) {seq : ℕ}
    (hheld : sub.heldEvent = some seq) {event : EventUse} (hevent : event ≠ .held)
    (hreport : ∀ status, event = .reported status →
      ioEventQuery s.io.queue seq = true ∧ status = fsSubmitStateFinish sub.state) :
    FsInv (s.setSub k (sub.consume event)) := by
  have hsub := h.subs k sub hk
  obtain ⟨reads, state, pc, event₀⟩ := sub
  have hpc : pc = .returned .ok seq ∧ event₀ = .held := by
    unfold FsSubmission.heldEvent at hheld
    split at hheld <;> simp_all
  obtain ⟨rfl, rfl⟩ := hpc
  refine h.setSub_same hk (hsub.consume (h.live_lt hk) hevent fun status he => ?_) rfl
  obtain ⟨hready, rfl⟩ := hreport status he
  have hle : seq ≤ s.io.queue.retiredSeq := of_decide_eq_true hready
  refine ⟨fun job hj => (hsub.spec.2 job hj).trans hle, ?_⟩
  cases state with
  | some st => exact hsub.status st rfl
  | none =>
    -- without a state there are no jobs, hence no failures
    have hnojobs : s.jobsOf k = [] := (hsub.stateless rfl).1
    have hfailed : (s.view k).failed = false := by
      refine any_eq_false.mpr fun p hp => ?_
      have hne : p.1.ctx.state ≠ k := fun heq =>
        not_mem_nil (hnojobs ▸ FsRun.mem_jobsOf.mpr ⟨h.outcomes p hp, heq⟩)
      simp [hne]
    rw [hfailed]
    rfl

theorem FsInv.step (h : FsInv s) {act : FsAct} (hstep : fsStep s act = some s') : FsInv s' := by
  cases act with
  | submit reads allocOk =>
    cases hstep
    exact h.submit reads allocOk
  | submitStep k ok =>
    obtain ⟨sub, hk, hstep⟩ := Option.bind_eq_some_iff.mp hstep
    exact h.submitStep hk hstep
  | take w =>
    obtain ⟨io, hio, rfl⟩ := Option.map_eq_some_iff.mp hstep
    cases hmove : ioStep_move hio with
    | take => exact h.workerStep hio rfl rfl rfl
  | fnReturns w o =>
    rw [fsStep] at hstep
    split at hstep
    · obtain ⟨io, hio, rfl⟩ := Option.map_eq_some_iff.mp hstep
      exact h.fnReturns ‹_› o hio
    · cases hstep
  | freeReturns w =>
    rw [fsStep] at hstep
    split at hstep
    · obtain ⟨io, hio, rfl⟩ := Option.map_eq_some_iff.mp hstep
      exact h.freeReturns ‹_› hio
    · cases hstep
  | finish w =>
    obtain ⟨io, hio, rfl⟩ := Option.map_eq_some_iff.mp hstep
    cases hmove : ioStep_move hio with
    | finish => exact h.workerStep hio rfl rfl rfl
  | eventQuery k =>
    obtain ⟨sub, hk, hstep⟩ := Option.bind_eq_some_iff.mp hstep
    obtain ⟨seq, hheld, rfl⟩ := Option.map_eq_some_iff.mp hstep
    split
    · refine h.consume hk hheld (by simp) fun status he => ?_
      cases he
      exact ⟨‹_›, rfl⟩
    · exact h
  | eventWait k =>
    obtain ⟨sub, hk, hstep⟩ := Option.bind_eq_some_iff.mp hstep
    obtain ⟨seq, hheld, hstep⟩ := Option.bind_eq_some_iff.mp hstep
    split at hstep <;> cases hstep
    refine h.consume hk hheld (by simp) fun status he => ?_
    cases he
    exact ⟨‹_›, rfl⟩
  | eventDiscard k =>
    obtain ⟨sub, hk, hstep⟩ := Option.bind_eq_some_iff.mp hstep
    obtain ⟨seq, hheld, rfl⟩ := Option.map_eq_some_iff.mp hstep
    exact h.consume hk hheld (by simp) fun status he => by cases he

theorem fsInit_inv (nthreads : ℕ) {capacity : ℕ} (hcap : capacity ≤ uint32Max) :
    FsInv (fsInit nthreads capacity) where
  io := ioInit_inv nthreads
  once := ioInit_runsOnce nthreads
  inUse_le := Nat.zero_le _
  capacity_le := hcap
  inUse := rfl
  owned := by simp [fsInit, ioInit]
  logged := rfl
  outcomes := by simp [fsInit]
  subs := by simp [fsInit]

theorem fsRun_inv {acts : List FsAct} (h : FsInv s) (hrun : fsRun s acts = some s') : FsInv s' := by
  induction acts generalizing s with
  | nil =>
    cases hrun
    exact h
  | cons act acts ih =>
    obtain ⟨next, hstep, hrest⟩ := Option.bind_eq_some_iff.mp hrun
    exact ih (h.step hstep) hrest

end Store

/-! ## The contract -/

def FsRun.Finished (s : FsRun) (job : IoJob FsReadJob) : Prop :=
  s.io.Returned job ∧ ∀ w, ¬ s.io.Holding w job

/-- The caller is done with the state: `fs_submit` returned an error, or the event is consumed. -/
def FsSubmission.released (sub : FsSubmission) : Bool :=
  match sub.pc with
  | .returned status _ => decide (status ≠ .ok) || decide (sub.event ≠ .held)
  | _ => false

/-- What the callers of `fs_submit` rely on. -/
structure FsContract (s : FsRun) : Prop where
  /-- an event is ready only after all reads of its submission -/
  ready : ∀ (k : ℕ) (sub : FsSubmission) (seq : ℕ), s.subs[k]? = some sub →
    sub.pc = .returned .ok seq → ioEventQuery s.io.queue seq = true →
    ((s.jobsOf k).map fun job => job.ctx.read) = sub.reads ∧ ∀ job ∈ s.jobsOf k, s.Finished job
  /-- the status that a query or a wait reported tells whether one of the opens or reads failed -/
  status : ∀ (k : ℕ) (sub : FsSubmission) (status : Status), s.subs[k]? = some sub →
    sub.event = .reported status →
    (∀ job ∈ s.jobsOf k, ∃ o, (job, o) ∈ s.outcomes) ∧ (status = .ok ∨ status = .io) ∧
      (status = .io ↔ ∃ p ∈ s.outcomes, p.1.ctx.state = k ∧ p.2.failed = true)
  /-- a submission that failed has no read under way -/
  refused : ∀ (k : ℕ) (sub : FsSubmission) (status : Status) (seq : ℕ), s.subs[k]? = some sub →
    sub.pc = .returned status seq → status ≠ .ok → ∀ job ∈ s.jobsOf k, s.Finished job
  /-- the state is freed when the caller and all jobs are done with it, and only once -/
  freed : ∀ (k : ℕ) (sub : FsSubmission) (st : FsSubmitState), s.subs[k]? = some sub →
    sub.state = some st →
    st.frees = if sub.released = true ∧ ∀ job ∈ s.jobsOf k, job.seq ∈ s.io.freed then 1 else 0
  /-- so it is freed at the latest when an error is returned or a status is reported -/
  freed_done : ∀ (k : ℕ) (sub : FsSubmission) (st : FsSubmitState), s.subs[k]? = some sub →
    sub.state = some st →
    ((∃ status seq, sub.pc = .returned status seq ∧ status ≠ .ok) ∨
      ∃ status, sub.event = .reported status) → st.frees = 1

section Contract

variable {s : FsRun} {k : ℕ} {sub : FsSubmission}

theorem FsInv.finished (h : FsInv s) {job : IoJob FsReadJob} (hj : job ∈ s.jobsOf k)
    (hle : job.seq ≤ s.io.queue.retiredSeq) : s.Finished job := by
  have hposted := (FsRun.mem_jobsOf.mp hj).1
  exact ⟨h.io.returned_of_finished hposted (h.io.finished_of_retired hposted hle),
    fun w hw => absurd (h.io.retired_lt_held w job hw) (not_lt.mpr hle)⟩

theorem FsRun.live_eq_zero :
    s.live k = 0 ↔ ∀ job ∈ s.jobsOf k, job.seq ∈ s.io.freed := by
  rw [FsRun.live, countP_eq_zero]
  refine ⟨fun hzero job hj => ?_, fun hall job hj hk => ?_⟩
  · have ⟨hposted, hk⟩ := FsRun.mem_jobsOf.mp hj
    by_contra hfree
    exact hzero job (mem_filter.mpr ⟨hposted, by simpa using hfree⟩) (by simpa using hk)
  · have ⟨hposted, hfree⟩ := mem_filter.mp hj
    exact absurd (hall job (FsRun.mem_jobsOf.mpr ⟨hposted, by simpa using hk⟩)) (by simpa using hfree)

theorem FsSubmission.refs_eq_zero (sub : FsSubmission) :
    sub.callerRefs + sub.pc.pendingRefs = 0 ↔ sub.released = true := by
  obtain ⟨reads, state, pc, event⟩ := sub
  cases pc with
  | returned status seq =>
    cases status <;> cases event <;>
      simp [FsSubmission.callerRefs, FsSubmission.released, SubmitPc.pendingRefs]
  | _ => simp [FsSubmission.callerRefs, FsSubmission.released]

theorem FsInv.frees (h : FsInv s) (hk : s.subs[k]? = some sub) {st : FsSubmitState}
    (hst : sub.state = some st) :
    st.frees = if sub.released = true ∧ ∀ job ∈ s.jobsOf k, job.seq ∈ s.io.freed then 1 else 0 := by
  have hcount := ((h.subs k sub hk).counted st hst).frees
  rw [hcount]
  refine if_congr ?_ rfl rfl
  rw [Nat.add_eq_zero_iff, sub.refs_eq_zero, ← FsRun.live_eq_zero]
  rfl

theorem FsInv.freed_of_retired (h : FsInv s)
    (hall : ∀ job ∈ s.jobsOf k, job.seq ≤ s.io.queue.retiredSeq) :
    ∀ job ∈ s.jobsOf k, job.seq ∈ s.io.freed := fun job hj =>
  (h.finished hj (hall job hj)).1.2 (h.owned job (FsRun.mem_jobsOf.mp hj).1).1

theorem FsRun.failed_iff :
    s.failed k = true ↔ ∃ p ∈ s.outcomes, p.1.ctx.state = k ∧ p.2.failed = true := by
  simp [FsRun.failed]

end Contract

/-- **Submissions keep their contract in every run**: whatever the opens and reads return and
whenever the pool or the queue is exhausted, an event is ready only after all reads of its submission,
its status is `io` exactly when one of them failed, a submission that returns an error has no read
under way, and the shared state is freed once. -/
theorem fsSubmit_contract (nthreads capacity : ℕ) (hcap : capacity ≤ uint32Max) (acts : List FsAct)
    (s : FsRun) (hrun : fsRun (fsInit nthreads capacity) acts = some s) : FsContract s := by
  have h := fsRun_inv (fsInit_inv nthreads hcap) hrun
  have hrefused : ∀ (k : ℕ) (sub : FsSubmission) (status : Status) (seq : ℕ),
      s.subs[k]? = some sub → sub.pc = .returned status seq → status ≠ .ok →
      ∀ job ∈ s.jobsOf k, job.seq ≤ s.io.queue.retiredSeq := by
    intro k sub status seq hk hpc hstatus
    have hspec := (h.subs k sub hk).spec
    rw [hpc] at hspec
    exact (if_neg hstatus).mp hspec
  exact
    { ready := fun k sub seq hk hpc hready => by
        have hspec := (h.subs k sub hk).spec
        rw [hpc] at hspec
        exact ⟨hspec.1, fun job hj =>
          h.finished hj ((hspec.2 job hj).trans (of_decide_eq_true hready))⟩
      status := fun k sub status hk he => by
        have ⟨hretired, hstatus⟩ := (h.subs k sub hk).reported status he
        refine ⟨fun job hj => ?_, ?_, ?_⟩
        · have hret := (h.finished hj (hretired job hj)).1.1
          rw [← h.logged] at hret
          obtain ⟨p, hp, hseq⟩ := mem_map.mp hret
          have heq := h.io.job_unique (h.outcomes p hp) (FsRun.mem_jobsOf.mp hj).1 hseq
          exact ⟨p.2, heq ▸ hp⟩
        · rw [hstatus]
          split <;> simp
        · rw [hstatus, ← FsRun.failed_iff]
          change (if s.failed k = true then Status.io else .ok) = .io ↔ _
          split <;> simp_all
      refused := fun k sub status seq hk hpc hstatus job hj =>
        h.finished hj (hrefused k sub status seq hk hpc hstatus job hj)
      freed := fun k sub st hk hst => h.frees hk hst
      freed_done := fun k sub st hk hst hdone => by
        rw [h.frees hk hst, if_pos]
        rcases hdone with ⟨status, seq, hpc, hstatus⟩ | ⟨status, he⟩
        · refine ⟨?_, h.freed_of_retired (hrefused k sub status seq hk hpc hstatus)⟩
          simp [FsSubmission.released, hpc, hstatus]
        · refine ⟨?_, h.freed_of_retired ((h.subs k sub hk).reported status he).1⟩
          obtain ⟨seq, hpc⟩ := (h.subs k sub hk).consumed (by simp [he])
          simp [FsSubmission.released, hpc, he] }

/-- With a pool of two jobs, a submission of three reads is refused and one of two reads, whose second
file cannot be opened, reports `io`; both states are freed. -/
theorem fsSubmit_contract_refused :
    let read : StoreRead := ⟨some [97], 0, 0, 8⟩
    let step (k : ℕ) : FsAct := .submitStep k true
    let work (o : ReadOutcome) : List FsAct := [.take 0, .fnReturns 0 o, .freeReturns 0, .finish 0]
    ∃ s, fsRun (fsInit 1 2) ([.submit [read, read, read] true] ++ List.replicate 8 (step 0) ++
        work ⟨true, 8⟩ ++ work ⟨true, 8⟩ ++ List.replicate 2 (step 0) ++
        [.submit [read, read] true] ++ List.replicate 8 (step 1) ++ work ⟨true, 8⟩ ++
        [.eventQuery 1] ++ work ⟨false, 0⟩ ++ [.eventQuery 1]) = some s ∧
      s.subs.map (fun sub => (sub.pc, sub.event, sub.state.map FsSubmitState.frees)) =
        [(.returned .again 0, .held, some 1), (.returned .ok 4, .reported .io, some 1)] ∧
      FsContract s := by
  intro read step work
  have hrun : (fsRun (fsInit 1 2) ([.submit [read, read, read] true] ++
        List.replicate 8 (step 0) ++ work ⟨true, 8⟩ ++ work ⟨true, 8⟩ ++ List.replicate 2 (step 0) ++
        [.submit [read, read] true] ++ List.replicate 8 (step 1) ++ work ⟨true, 8⟩ ++
        [.eventQuery 1] ++ work ⟨false, 0⟩ ++ [.eventQuery 1])).map (fun s => s.subs.map fun sub =>
          (sub.pc, sub.event, sub.state.map FsSubmitState.frees)) =
      some [(.returned .again 0, .held, some 1), (.returned .ok 4, .reported .io, some 1)] := by
    decide +kernel
  obtain ⟨s, hs, hsubs⟩ := Option.map_eq_some_iff.mp hrun
  exact ⟨s, hs, hsubs, fsSubmit_contract 1 2 (by decide) _ s hs⟩

end Damacy

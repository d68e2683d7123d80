import Mathlib.Order.WithBot
import Mathlib.Tactic.Ring
import Damacy.Lib.RingBuffer

/-!
# The I/O job queue

`io_queue` is a ring of posted jobs that worker threads take under one mutex. Every job carries a
sequence number, each worker publishes the number of the job it holds, and a worker that is done with
a job recomputes `retired_seq` from the published numbers and from the oldest queued job. An event is
the number of the last job posted before it was recorded; it is complete once `retired_seq` reaches
that number.

Each function below is one critical section of the source. Between two of them a worker runs its job
without the mutex: `WorkerPc` says how far it is. A run interleaves the critical sections of all
threads and the returns of the jobs' functions in any order.

The counters are natural numbers (they are incremented once per posted job) and `⊤` stands for
`UINT64_MAX`, the published number of an idle worker.
-/

open List

namespace Damacy

open RingBuffer

/-- `struct io_job`: the argument of the job's function, whether it has a `ctx_free`, and its
sequence number. -/
structure IoJob (J : Type) where
  ctx : J
  ctxFree : Bool
  seq : ℕ
deriving DecidableEq, Repr

/-- `struct io_queue`, as far as the mutex guards it. -/
structure IoQueue (J : Type) where
  workerSeq : List (WithTop ℕ)
  ring : List (Option (IoJob J))
  head : ℕ
  tail : ℕ
  nextSeq : ℕ
  retiredSeq : ℕ
  shutdown : Bool
deriving DecidableEq

variable {J : Type}

/-- `DAMACY_IO_QUEUE_INITIAL_CAP`. -/
def ioQueueInitialCap : ℕ := 512

def ioQueueCreate (nthreads : ℕ) : IoQueue J where
  workerSeq := List.replicate nthreads ⊤
  ring := List.replicate ioQueueInitialCap none
  head := 0
  tail := 0
  nextSeq := 0
  retiredSeq := 0
  shutdown := false

/-- The sequence number in the slot of a position; a slot that `calloc` left zero has number 0. -/
def IoQueue.seqAt (q : IoQueue J) (p : ℕ) : ℕ := ((cell q.ring p).map IoJob.seq).getD 0

def IoQueue.minInflight (q : IoQueue J) : WithTop ℕ :=
  q.workerSeq.foldl (fun least seq => if seq < least then seq else least)
    (if q.tail < q.head then WithTop.some (q.seqAt q.tail) else ⊤)

def advanceRetired (q : IoQueue J) : IoQueue J :=
  let newRetired := (q.minInflight.map (· - 1)).untopD q.nextSeq
  if q.retiredSeq < newRetired then { q with retiredSeq := newRetired } else q

/-- The first critical section of `worker_thread`: worker `w` copies the job at the tail and
publishes its number. -/
def workerTake (q : IoQueue J) (w : ℕ) : Option (IoJob J × IoQueue J) :=
  if q.head = q.tail then none
  else (cell q.ring q.tail).map fun job =>
    (job, { q with tail := q.tail + 1, workerSeq := q.workerSeq.set w (WithTop.some job.seq) })

def IoQueue.setIdle (q : IoQueue J) (w : ℕ) : IoQueue J :=
  { q with workerSeq := q.workerSeq.set w ⊤ }

/-- The second critical section of `worker_thread`. -/
def workerFinish (q : IoQueue J) (w : ℕ) : IoQueue J := advanceRetired (q.setIdle w)

/-- `ring_grow`, when its allocation succeeds. -/
def ringGrow (q : IoQueue J) : IoQueue J :=
  let newCap := q.ring.length * 2
  let count := q.head - q.tail
  { q with
    ring := (List.range count).map (fun i => cell q.ring (q.tail + i)) ++
      List.replicate (newCap - count) none
    head := count
    tail := 0 }

/-- `io_queue_post`; `growOk` is the outcome of the allocation in `ring_grow`, should it be needed,
and `none` the failing return. -/
def ioQueuePost (q : IoQueue J) (ctx : J) (ctxFree growOk : Bool) : Option (IoQueue J) :=
  let room :=
    if q.head - q.tail = q.ring.length then if growOk then some (ringGrow q) else none else some q
  room.map fun q =>
    { q with
      nextSeq := q.nextSeq + 1
      ring := q.ring.set (slot q.ring.length q.head) (some ⟨ctx, ctxFree, q.nextSeq + 1⟩)
      head := q.head + 1 }

def ioQueueRecord (q : IoQueue J) : ℕ := q.nextSeq

def ioEventQuery (q : IoQueue J) (seq : ℕ) : Bool := seq ≤ q.retiredSeq

/-- How far a worker is: waiting for a job, in the job's function, in its `ctx_free`, past both and
about to take the mutex, or gone. -/
inductive WorkerPc (J : Type) where
  | waiting
  | running (job : IoJob J)
  | freeing (job : IoJob J)
  | ran (job : IoJob J)
  | exited
deriving DecidableEq

def WorkerPc.job : WorkerPc J → Option (IoJob J)
  | .running job | .freeing job | .ran job => some job
  | .waiting | .exited => none

def WorkerPc.seq (pc : WorkerPc J) : WithTop ℕ := pc.job.elim ⊤ fun job => WithTop.some job.seq

/-- The queue with its workers, and the history of the run: the jobs posted and the jobs taken, in
order, and the numbers of the jobs whose function returned, whose `ctx_free` returned, and whose
worker recorded that it is done with them. -/
structure IoRun (J : Type) where
  queue : IoQueue J
  workers : List (WorkerPc J)
  posted : List (IoJob J)
  taken : List (IoJob J)
  fnReturned : List ℕ
  freed : List ℕ
  finished : List ℕ
deriving DecidableEq

inductive IoAct (J : Type) where
  | post (ctx : J) (ctxFree growOk : Bool)
  | take (w : ℕ)
  | fnReturns (w : ℕ)
  | freeReturns (w : ℕ)
  | finish (w : ℕ)
  | shutdown
  | exit (w : ℕ)

def ioInit (nthreads : ℕ) : IoRun J where
  queue := ioQueueCreate nthreads
  workers := List.replicate nthreads .waiting
  posted := []
  taken := []
  fnReturned := []
  freed := []
  finished := []

def ioStep (s : IoRun J) : IoAct J → Option (IoRun J)
  | .post ctx ctxFree growOk =>
    match ioQueuePost s.queue ctx ctxFree growOk with
    | none => some s
    | some q => some { s with queue := q, posted := s.posted ++ [⟨ctx, ctxFree, q.nextSeq⟩] }
  | .take w =>
    match s.workers[w]? with
    | some .waiting =>
      (workerTake s.queue w).map fun taken =>
        { s with queue := taken.2, workers := s.workers.set w (.running taken.1),
                 taken := s.taken ++ [taken.1] }
    | _ => none
  | .fnReturns w =>
    match s.workers[w]? with
    | some (.running job) =>
      some { s with workers := s.workers.set w (if job.ctxFree then .freeing job else .ran job),
                    fnReturned := s.fnReturned ++ [job.seq] }
    | _ => none
  | .freeReturns w =>
    match s.workers[w]? with
    | some (.freeing job) =>
      some { s with workers := s.workers.set w (.ran job), freed := s.freed ++ [job.seq] }
    | _ => none
  | .finish w =>
    match s.workers[w]? with
    | some (.ran job) =>
      some { s with queue := workerFinish s.queue w, workers := s.workers.set w .waiting,
                    finished := s.finished ++ [job.seq] }
    | _ => none
  | .shutdown => some { s with queue := { s.queue with shutdown := true } }
  | .exit w =>
    match s.workers[w]? with
    | some .waiting =>
      if s.queue.head = s.queue.tail ∧ s.queue.shutdown then
        some { s with workers := s.workers.set w .exited }
      else none
    | _ => none

def ioRun (s : IoRun J) : List (IoAct J) → Option (IoRun J)
  | [] => some s
  | act :: acts => (ioStep s act).bind fun s => ioRun s acts

/-! ## What each critical section does -/

section Sections

variable {q q' : IoQueue J}

theorem le_foldl_least {l : List (WithTop ℕ)} {init bound : WithTop ℕ} :
    bound ≤ l.foldl (fun least seq => if seq < least then seq else least) init ↔
      bound ≤ init ∧ ∀ seq ∈ l, bound ≤ seq := by
  induction l generalizing init with
  | nil => simp
  | cons seq l ih =>
    rw [foldl_cons, ih, forall_mem_cons, ← and_assoc]
    refine and_congr_left fun _ => ?_
    split
    · exact ⟨fun h => ⟨h.trans (le_of_lt ‹_›), h⟩, And.right⟩
    · exact ⟨fun h => ⟨h, h.trans (not_lt.mp ‹_›)⟩, And.left⟩

theorem le_minInflight {bound : WithTop ℕ} :
    bound ≤ q.minInflight ↔
      (q.tail < q.head → bound ≤ WithTop.some (q.seqAt q.tail)) ∧
        ∀ seq ∈ q.workerSeq, bound ≤ seq := by
  rw [IoQueue.minInflight, le_foldl_least]
  refine and_congr_left fun _ => ?_
  split <;> simp_all

theorem le_advanceRetired (q : IoQueue J) : q.retiredSeq ≤ (advanceRetired q).retiredSeq := by
  unfold advanceRetired
  dsimp only
  split
  · exact le_of_lt ‹_›
  · exact le_rfl

theorem advanceRetired_eq (q : IoQueue J) :
    advanceRetired q = { q with retiredSeq := (advanceRetired q).retiredSeq } := by
  unfold advanceRetired
  dsimp only
  split <;> rfl

theorem advanceRetired_lt {n : ℕ} (hn : q.retiredSeq < n) (hmin : q.minInflight ≤ WithTop.some n) :
    (advanceRetired q).retiredSeq < n := by
  obtain ⟨least, hleast, hle⟩ := WithTop.le_coe_iff.mp hmin
  unfold advanceRetired
  rw [hleast]
  dsimp only [WithTop.map_coe, WithTop.untopD_coe]
  split
  · dsimp only
    omega
  · exact hn

theorem advanceRetired_le (hle : q.retiredSeq ≤ q.nextSeq)
    (hmin : q.minInflight = ⊤ ∨ q.minInflight ≤ WithTop.some q.nextSeq) :
    (advanceRetired q).retiredSeq ≤ q.nextSeq := by
  unfold advanceRetired
  dsimp only
  split
  · dsimp only
    rcases hmin with htop | hle
    · rw [htop]
      rfl
    · obtain ⟨least, hleast, hle⟩ := WithTop.le_coe_iff.mp hle
      rw [hleast]
      exact (Nat.sub_le _ _).trans hle
  · exact hle

theorem advanceRetired_drained (hle : q.retiredSeq ≤ q.nextSeq) (htop : q.minInflight = ⊤) :
    (advanceRetired q).retiredSeq = q.nextSeq := by
  unfold advanceRetired
  rw [htop]
  dsimp only [WithTop.map_top, WithTop.untopD_top]
  split
  · rfl
  · exact le_antisymm hle (not_lt.mp ‹_›)

variable {queued : List (IoJob J)}

theorem ringGrow_holds (h : Holds q.ring q.head q.tail queued) :
    Holds (ringGrow q).ring (ringGrow q).head (ringGrow q).tail queued ∧
      queued.length < (ringGrow q).ring.length := by
  have hcount : q.head - q.tail = queued.length := by rw [h.head_eq, Nat.add_sub_cancel_left]
  have hpos := h.cap_pos
  have hfits := h.fits
  dsimp only [ringGrow]
  rw [h.map_cell, hcount]
  have hlen : (queued.map some ++ List.replicate (q.ring.length * 2 - queued.length)
      (none : Option (IoJob J))).length = 2 * q.ring.length := by
    rw [length_append, length_map, length_replicate]
    omega
  exact ⟨h.grow hlen, by omega⟩

theorem ioQueuePost_spec {ctx : J} {ctxFree growOk : Bool}
    (h : Holds q.ring q.head q.tail queued) (hq : ioQueuePost q ctx ctxFree growOk = some q') :
    Holds q'.ring q'.head q'.tail (queued ++ [⟨ctx, ctxFree, q'.nextSeq⟩]) ∧
      q'.nextSeq = q.nextSeq + 1 ∧ q'.retiredSeq = q.retiredSeq ∧ q'.workerSeq = q.workerSeq := by
  unfold ioQueuePost at hq
  dsimp only at hq
  split at hq
  · split at hq
    · rw [Option.map_some, Option.some_inj] at hq
      subst hq
      have ⟨hgrown, hroom⟩ := ringGrow_holds h
      exact ⟨hgrown.push hroom _, rfl, rfl, rfl⟩
    · cases hq
  · rename_i hfull
    rw [Option.map_some, Option.some_inj] at hq
    subst hq
    have hroom : queued.length < q.ring.length := by
      have := h.head_eq
      have := h.fits
      omega
    exact ⟨h.push hroom _, rfl, rfl, rfl⟩

theorem workerTake_spec {w : ℕ} {job : IoJob J} (h : Holds q.ring q.head q.tail queued)
    (hq : workerTake q w = some (job, q')) :
    ∃ rest, queued = job :: rest ∧ Holds q'.ring q'.head q'.tail rest ∧
      q'.nextSeq = q.nextSeq ∧ q'.retiredSeq = q.retiredSeq ∧
      q'.workerSeq = q.workerSeq.set w (WithTop.some job.seq) := by
  unfold workerTake at hq
  split at hq
  · cases hq
  · rename_i hempty
    obtain _ | ⟨first, rest⟩ := queued
    · exact absurd (h.empty_iff.mpr rfl) hempty
    · rw [h.front, Option.map_some, Option.some_inj, Prod.mk.injEq] at hq
      obtain ⟨rfl, rfl⟩ := hq
      exact ⟨rest, rfl, h.pop, rfl, rfl, rfl⟩

theorem workerTake_ne_none {w : ℕ} (h : Holds q.ring q.head q.tail queued)
    (hne : q.head ≠ q.tail) : ∃ job q', workerTake q w = some (job, q') := by
  obtain _ | ⟨first, rest⟩ := queued
  · exact absurd (h.empty_iff.mpr rfl) hne
  · rw [workerTake, if_neg hne, h.front]
    exact ⟨_, _, rfl⟩

end Sections

end Damacy

import Damacy.Types
import Damacy.IoQueue.Retired

/-!
# Submissions to the filesystem store (`store/store_fs.c`)

`fs_submit` posts one job per read to the I/O queue and returns an event: the sequence number of the
last job and a shared `fs_submit_state`, which counts its references and collects the status of the
reads. A job holds one reference, and so does the caller until it consumes the event. When the job
pool or the queue refuses a read, `fs_submit` waits for the jobs it has posted and returns an error.

A run interleaves the atomic steps of any number of submissions with the steps of the workers and the
callers' queries. The outcome of every open and read, and of every allocation, is arbitrary;
the run ends before the queue shuts down.
-/

namespace Damacy

/-! ## The shared state of a submission -/

/-- `struct fs_submit_state`, and how often it was freed. -/
structure FsSubmitState where
  refs : ℕ
  status : Status
  frees : ℕ
deriving DecidableEq, Repr

def fsSubmitStateNew : FsSubmitState where
  refs := 1
  status := .ok
  frees := 0

/-- `fs_submit_state_ref`; the count is an `atomic_uint`. -/
def fsSubmitStateRef (st : FsSubmitState) : FsSubmitState :=
  { st with refs := u32 (st.refs + 1) }

def fsSubmitStateDrop (st : FsSubmitState) : FsSubmitState :=
  { st with
    refs := u32Pred st.refs
    frees := if st.refs = 1 then st.frees + 1 else st.frees }

def fsSubmitStateFail (st : FsSubmitState) : FsSubmitState := { st with status := .io }

/-- The status that `fs_submit_state_finish` returns, before it drops the state. -/
def fsSubmitStateFinish : Option FsSubmitState → Status
  | none => .ok
  | some st => st.status

/-! ## Jobs -/

/-- `struct fs_read_job`: the submission whose state it refers to, and its read. -/
structure FsReadJob where
  state : ℕ
  read : StoreRead
deriving DecidableEq, Repr

/-- What the file system answers to a job: whether the file could be opened, and the result of
`platform_file_pread`. -/
structure ReadOutcome where
  opened : Bool
  nRead : ℤ
deriving DecidableEq, Repr

def ReadOutcome.failed (o : ReadOutcome) : Bool := !o.opened || decide (o.nRead < 0)

/-- `fs_read_job_fn`, as far as the submission's state is concerned. -/
def fsReadJobFn (o : ReadOutcome) (st : FsSubmitState) : FsSubmitState :=
  if !o.opened then fsSubmitStateFail st
  else if o.nRead < 0 then fsSubmitStateFail st
  else st

/-! ## Submissions -/

/-- How far `fs_submit` is: at `pool_alloc` for a read, at `fs_submit_state_ref`, at `io_queue_post`,
at the `fs_read_job_free` of a job that could not be posted, at `io_queue_record`; at the `Drain`
label, in its `io_event_wait`, at its last `fs_submit_state_drop`; or back at the caller. -/
inductive SubmitPc where
  | alloc (i : ℕ)
  | ref (i : ℕ)
  | post (i : ℕ)
  | unposted
  | record
  | drain (status : Status)
  | drainWait (status : Status) (seq : ℕ)
  | drainDrop (status : Status)
  | returned (status : Status) (seq : ℕ)
deriving DecidableEq, Repr

inductive EventUse where
  | held
  | reported (status : Status)
  | discarded
deriving DecidableEq, Repr

/-- One call of `fs_submit` and the event it returned. -/
structure FsSubmission where
  reads : List StoreRead
  state : Option FsSubmitState
  pc : SubmitPc
  event : EventUse
deriving DecidableEq, Repr

/-- The store: its queue, its job pool, all submissions so far, and the outcomes of the jobs whose
function returned. -/
structure FsRun where
  io : IoRun FsReadJob
  capacity : ℕ
  inUse : ℕ
  subs : List FsSubmission
  outcomes : List (IoJob FsReadJob × ReadOutcome)
deriving DecidableEq

/-- `store_fs_create`. -/
def fsInit (nthreads capacity : ℕ) : FsRun where
  io := ioInit nthreads
  capacity := capacity
  inUse := 0
  subs := []
  outcomes := []

def FsRun.setSub (s : FsRun) (k : ℕ) (sub : FsSubmission) : FsRun :=
  { s with subs := s.subs.set k sub }

/-- The start of `fs_submit`; `allocOk` is the outcome of the allocation in `fs_submit_state_new`. -/
def fsSubmit (reads : List StoreRead) (allocOk : Bool) : FsSubmission :=
  if reads = [] then ⟨reads, none, .record, .held⟩
  else if allocOk then ⟨reads, some fsSubmitStateNew, .alloc 0, .held⟩
  else ⟨reads, none, .returned .io 0, .held⟩

/-- The next atomic step of submission `k`; `ok` is the outcome of `pool_alloc`, as long as the pool
has a free job, and of the allocation in `io_queue_post`. -/
def fsSubmitStep (s : FsRun) (k : ℕ) (sub : FsSubmission) (ok : Bool) : Option FsRun :=
  match sub.pc with
  | .alloc i =>
    if i < sub.reads.length then
      if ok ∧ s.inUse < s.capacity then
        some ({ s with inUse := s.inUse + 1 }.setSub k { sub with pc := .ref i })
      else some (s.setSub k { sub with pc := .drain .again })
    else some (s.setSub k { sub with pc := .record })
  | .ref i =>
    some (s.setSub k { sub with state := sub.state.map fsSubmitStateRef, pc := .post i })
  | .post i =>
    match sub.reads[i]? with
    | none => none
    | some read =>
      match ioQueuePost s.io.queue ⟨k, read⟩ true ok with
      | none => some (s.setSub k { sub with pc := .unposted })
      | some _ =>
        (ioStep s.io (.post ⟨k, read⟩ true ok)).map fun io =>
          { s with io }.setSub k { sub with pc := .alloc (i + 1) }
  | .unposted =>
    some ({ s with inUse := s.inUse - 1 }.setSub k
      { sub with state := sub.state.map fsSubmitStateDrop, pc := .drain .io })
  | .record => some (s.setSub k { sub with pc := .returned .ok (ioQueueRecord s.io.queue) })
  | .drain status =>
    some (s.setSub k { sub with pc := .drainWait status (ioQueueRecord s.io.queue) })
  | .drainWait status seq =>
    -- `io_event_wait` returns once the jobs are retired
    if ioEventQuery s.io.queue seq then some (s.setSub k { sub with pc := .drainDrop status })
    else none
  | .drainDrop status =>
    some (s.setSub k
      { sub with state := sub.state.map fsSubmitStateDrop, pc := .returned status 0 })
  | .returned _ _ => none

inductive FsAct where
  | submit (reads : List StoreRead) (allocOk : Bool)
  | submitStep (k : ℕ) (ok : Bool)
  | take (w : ℕ)
  | fnReturns (w : ℕ) (o : ReadOutcome)
  | freeReturns (w : ℕ)
  | finish (w : ℕ)
  | eventQuery (k : ℕ)
  | eventWait (k : ℕ)
  | eventDiscard (k : ℕ)
deriving Repr

/-- The event of a submission that returned one, as long as the caller holds it. -/
def FsSubmission.heldEvent (sub : FsSubmission) : Option ℕ :=
  match sub.pc, sub.event with
  | .returned .ok seq, .held => some seq
  | _, _ => none

def FsSubmission.consume (sub : FsSubmission) (event : EventUse) : FsSubmission :=
  { sub with state := sub.state.map fsSubmitStateDrop, event }

/-- `fs_event_query`, or `fs_event_wait` at the moment it returns. -/
def fsEventFinish (s : FsRun) (k : ℕ) (sub : FsSubmission) : FsRun :=
  s.setSub k (sub.consume (.reported (fsSubmitStateFinish sub.state)))

def fsStep (s : FsRun) : FsAct → Option FsRun
  | .submit reads allocOk => some { s with subs := s.subs ++ [fsSubmit reads allocOk] }
  | .submitStep k ok => s.subs[k]?.bind fun sub => fsSubmitStep s k sub ok
  | .take w => (ioStep s.io (.take w)).map fun io => { s with io }
  | .fnReturns w o =>
    match s.io.workers[w]? with
    | some (.running job) =>
      (ioStep s.io (.fnReturns w)).map fun io =>
        { s with
          io
          subs := s.subs.modify job.ctx.state fun sub =>
            { sub with state := sub.state.map (fsReadJobFn o) }
          outcomes := s.outcomes ++ [(job, o)] }
    | _ => none
  | .freeReturns w =>
    -- `fs_read_job_free`
    match s.io.workers[w]? with
    | some (.freeing job) =>
      (ioStep s.io (.freeReturns w)).map fun io =>
        { s with
          io
          subs := s.subs.modify job.ctx.state fun sub =>
            { sub with state := sub.state.map fsSubmitStateDrop }
          inUse := s.inUse - 1 }
    | _ => none
  | .finish w => (ioStep s.io (.finish w)).map fun io => { s with io }
  | .eventQuery k =>
    s.subs[k]?.bind fun sub => sub.heldEvent.map fun seq =>
      if ioEventQuery s.io.queue seq then fsEventFinish s k sub else s
  | .eventWait k =>
    s.subs[k]?.bind fun sub => sub.heldEvent.bind fun seq =>
      if ioEventQuery s.io.queue seq then some (fsEventFinish s k sub) else none
  | .eventDiscard k =>
    s.subs[k]?.bind fun sub => sub.heldEvent.map fun _ => s.setSub k (sub.consume .discarded)

def fsRun (s : FsRun) : List FsAct → Option FsRun
  | [] => some s
  | act :: acts => (fsStep s act).bind fun s => fsRun s acts

end Damacy

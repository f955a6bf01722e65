import LuzServing.Machine
import LuzServing.Tickets
import Mathlib.Data.Fintype.Card

/-!
# The thread pool of the row store

`Pool::run` shares one lookup among the pool's workers: the caller publishes the
job under the mutex, everybody draws tickets (`drain`), and the caller waits until
nothing remains and no worker is still drawing. This file is the code: a step for
each mutex section, atomic operation, notification and wake-up, for any number of
callers `κ` and `n` workers.

The destructor is left out: `pool()` never destroys its instance, so `stop_`
stays false.
-/

namespace LuzServing

/-- The number of rows that a ticket stands for. -/
def kChunk : ℕ := 1

/-- The number of tickets of a job of `count` rows. -/
def chunksOf (count : ℕ) : ℕ := (count + kChunk - 1) / kChunk

/-- The rows that a ticket stands for: those `serve` is called with. -/
def chunkRows (count ticket : ℕ) : List ℕ :=
  let start := ticket * kChunk
  List.range' start (min (start + kChunk) count - start)

namespace Pool

/-- Where a caller of `run` is. -/
inductive CallerPc : Type where
  /-- not in `run` -/
  | idle
  /-- about to lock `caller_` -/
  | lockCaller (job : ℕ)
  /-- about to publish the job -/
  | publish (job : ℕ)
  /-- about to notify all workers -/
  | announce (job : ℕ)
  /-- in `drain` -/
  | drain (job : ℕ) (hand : Hand)
  /-- about to test the predicate of `done_.wait` -/
  | await (job : ℕ)
  /-- asleep in `done_.wait` -/
  | blocked (job : ℕ)
  /-- about to unlock `caller_` and return -/
  | unlockCaller (job : ℕ)

/-- The places in its loop where a worker can be. -/
inductive WorkerPc : Type where
  /-- about to test the predicate of `ready_.wait` -/
  | poll
  /-- asleep in `ready_.wait` -/
  | asleep
  /-- in `drain` -/
  | drain (job : ℕ) (hand : Hand)
  /-- about to count itself out -/
  | leave
  /-- returned from `loop` -/
  | exited

/-- The hand of a caller in `drain`. -/
def CallerPc.hand : CallerPc → Option Hand
  | drain _ d => some d
  | _ => none

/-- The hand of a worker in `drain`. -/
def WorkerPc.hand : WorkerPc → Option Hand
  | drain _ d => some d
  | _ => none

/-- Where `drain` goes on: in its loop or past it. -/
def CallerPc.resume (job : ℕ) : Option Hand → CallerPc
  | some d => drain job d
  | none => await job

/-- Where `drain` goes on: in its loop or past it. -/
def WorkerPc.resume (job : ℕ) : Option Hand → WorkerPc
  | some d => drain job d
  | none => leave

/-- The hands of callers and workers. -/
def handOf {κ : Type*} {n : ℕ} (caller : κ → CallerPc) (worker : Fin n → WorkerPc) :
    κ ⊕ Fin n → Option Hand
  | .inl c => (caller c).hand
  | .inr w => (worker w).hand

/-- The pool, its threads, and what became of the jobs. A job is named by its place
in the order of the calls of `run`. -/
structure State (κ : Type*) (n : ℕ) where
  /-- `job_` -/
  job : Option ℕ
  /-- `next_` -/
  next : ℕ
  /-- `remaining_` -/
  remaining : ℕ
  /-- `active_` -/
  active : ℕ
  /-- `chunks_` -/
  chunks : ℕ
  /-- `generation_` -/
  generation : ℕ
  /-- `stop_` -/
  stop : Bool
  /-- who holds `caller_` -/
  callerLock : Option κ
  /-- where each caller is -/
  caller : κ → CallerPc
  /-- where each worker is -/
  worker : Fin n → WorkerPc
  /-- each worker's `seen` -/
  seen : Fin n → ℕ
  /-- how many jobs were submitted -/
  submitted : ℕ
  /-- the rows of each job -/
  count : ℕ → ℕ
  /-- the tickets of each job that were served, oldest first -/
  tickets : ℕ → List ℕ
  /-- the jobs whose `run` returned -/
  returned : Finset ℕ

namespace State

variable {κ : Type*} {n : ℕ}

/-- The hands of all threads. -/
def hand (s : State κ n) : κ ⊕ Fin n → Option Hand := handOf s.caller s.worker

/-- The dispenser as a thread working on `job` sees it. -/
def view (s : State κ n) (job : ℕ) : Counters := ⟨s.next, s.remaining, s.tickets job⟩

/-- The rows of `job` that were passed to `serve`, oldest first. -/
def passed (s : State κ n) (job : ℕ) : List ℕ :=
  (s.tickets job).flatMap (chunkRows (s.count job))

/-- One step of `drain(job)`, as far as the shared counters go. -/
def draw (s : State κ n) (job : ℕ) (d : Hand) : State κ n :=
  let next := (drawStep s.chunks (s.view job) d).1
  { s with
    next := next.next
    remaining := next.remaining
    tickets := Function.update s.tickets job next.served }

end State

variable {κ : Type*} [DecidableEq κ] {n : ℕ}

/-- `done_.notify_one()`: one sleeping caller wakes up, if there is one. -/
def NotifyOne (caller caller' : κ → CallerPc) : Prop :=
  (∃ c j, caller c = .blocked j ∧ caller' = Function.update caller c (.await j)) ∨
    (∀ c j, caller c ≠ .blocked j) ∧ caller' = caller

/-- What the step from hand `d` notifies: `done_` after the last piece. -/
def Notify (d : Hand) (caller caller' : κ → CallerPc) : Prop :=
  if d = .signal then NotifyOne caller caller' else caller' = caller

/-- `ready_.notify_all()`: every sleeping worker wakes up. -/
def wakeAll (worker : Fin n → WorkerPc) (w : Fin n) : WorkerPc :=
  match worker w with
  | .asleep => .poll
  | p => p

/-- Which thread takes a step, or that a wake-up comes that nobody caused. -/
inductive Label (κ : Type*) (n : ℕ) where
  /-- somebody calls `run` -/
  | call (c : κ)
  /-- a caller goes on -/
  | caller (c : κ)
  /-- a worker goes on -/
  | worker (w : Fin n)
  /-- a wake-up that nobody caused -/
  | spurious

/-- **The steps of the pool.** -/
inductive Step : State κ n → Label κ n → State κ n → Prop where
  /-- `run` is called with a job of `rows` rows -/
  | call {s : State κ n} {c : κ} (rows : ℕ) (hc : s.caller c = .idle) :
    Step s (.call c)
      { s with
        submitted := s.submitted + 1
        count := Function.update s.count s.submitted rows
        caller := Function.update s.caller c (.lockCaller s.submitted) }
  /-- `caller_` is free and taken -/
  | lockCaller {s : State κ n} {c : κ} {j : ℕ} (hc : s.caller c = .lockCaller j)
    (hfree : s.callerLock = none) :
    Step s (.caller c)
      { s with
        callerLock := some c
        caller := Function.update s.caller c (.publish j) }
  /-- the section of `run` that resets the counters -/
  | publish {s : State κ n} {c : κ} {j : ℕ} (hc : s.caller c = .publish j) :
    Step s (.caller c)
      { s with
        job := some j
        next := 0
        chunks := chunksOf (s.count j)
        remaining := chunksOf (s.count j)
        generation := s.generation + 1
        caller := Function.update s.caller c (.announce j) }
  /-- `ready_.notify_all()` -/
  | announce {s : State κ n} {c : κ} {j : ℕ} (hc : s.caller c = .announce j) :
    Step s (.caller c)
      { s with
        worker := wakeAll s.worker
        caller := Function.update s.caller c (.drain j .claim) }
  /-- a step of the caller's own `drain` -/
  | callerDraw {s : State κ n} {c : κ} {j : ℕ} {d : Hand} {caller' : κ → CallerPc}
    (hc : s.caller c = .drain j d)
    (hnotify : Notify d (Function.update s.caller c
      (.resume j (drawStep s.chunks (s.view j) d).2)) caller') :
    Step s (.caller c) { s.draw j d with caller := caller' }
  /-- the predicate of `done_.wait` holds -/
  | pass {s : State κ n} {c : κ} {j : ℕ} (hc : s.caller c = .await j)
    (hdone : s.remaining = 0 ∧ s.active = 0) :
    Step s (.caller c)
      { s with
        job := none
        caller := Function.update s.caller c (.unlockCaller j) }
  /-- the predicate of `done_.wait` does not hold -/
  | block {s : State κ n} {c : κ} {j : ℕ} (hc : s.caller c = .await j)
    (hdone : ¬(s.remaining = 0 ∧ s.active = 0)) :
    Step s (.caller c) { s with caller := Function.update s.caller c (.blocked j) }
  /-- `run` returns -/
  | unlockCaller {s : State κ n} {c : κ} {j : ℕ} (hc : s.caller c = .unlockCaller j) :
    Step s (.caller c)
      { s with
        callerLock := none
        returned := insert j s.returned
        caller := Function.update s.caller c .idle }
  /-- a caller wakes up from `done_.wait` by itself -/
  | spuriousCaller {s : State κ n} {c : κ} {j : ℕ} (hc : s.caller c = .blocked j) :
    Step s .spurious { s with caller := Function.update s.caller c (.await j) }
  /-- `loop` returns -/
  | exit {s : State κ n} {w : Fin n} (hw : s.worker w = .poll) (hstop : s.stop = true) :
    Step s (.worker w) { s with worker := Function.update s.worker w .exited }
  /-- there is a new generation, and a job -/
  | take {s : State κ n} {w : Fin n} {j : ℕ} (hw : s.worker w = .poll) (hstop : s.stop = false)
    (hnew : s.generation ≠ s.seen w) (hjob : s.job = some j) :
    Step s (.worker w)
      { s with
        active := s.active + 1
        seen := Function.update s.seen w s.generation
        worker := Function.update s.worker w (.drain j .claim) }
  /-- there is a new generation, but its job is over -/
  | skip {s : State κ n} {w : Fin n} (hw : s.worker w = .poll) (hstop : s.stop = false)
    (hnew : s.generation ≠ s.seen w) (hjob : s.job = none) :
    Step s (.worker w) { s with seen := Function.update s.seen w s.generation }
  /-- there is no new generation -/
  | sleep {s : State κ n} {w : Fin n} (hw : s.worker w = .poll) (hstop : s.stop = false)
    (hold : s.generation = s.seen w) :
    Step s (.worker w) { s with worker := Function.update s.worker w .asleep }
  /-- a step of a worker's `drain` -/
  | workerDraw {s : State κ n} {w : Fin n} {j : ℕ} {d : Hand} {caller' : κ → CallerPc}
    (hw : s.worker w = .drain j d) (hnotify : Notify d s.caller caller') :
    Step s (.worker w)
      { s.draw j d with
        caller := caller'
        worker := Function.update s.worker w (.resume j (drawStep s.chunks (s.view j) d).2) }
  /-- a worker counts itself out -/
  | leave {s : State κ n} {w : Fin n} {caller' : κ → CallerPc} (hw : s.worker w = .leave)
    (hnotify : NotifyOne s.caller caller') :
    Step s (.worker w)
      { s with
        active := s.active - 1
        caller := caller'
        worker := Function.update s.worker w .poll }
  /-- a worker wakes up from `ready_.wait` by itself -/
  | spuriousWorker {s : State κ n} {w : Fin n} (hw : s.worker w = .asleep) :
    Step s .spurious { s with worker := Function.update s.worker w .poll }

/-- The pool before its first job: every worker is about to test `ready_.wait`. -/
def State.initial : State κ n where
  job := none
  next := 0
  remaining := 0
  active := 0
  chunks := 0
  generation := 0
  stop := false
  callerLock := none
  caller _ := .idle
  worker _ := .poll
  seen _ := 0
  submitted := 0
  count _ := 0
  tickets _ := []
  returned := ∅

/-- The pool as a machine. -/
def machine (κ : Type*) [DecidableEq κ] (n : ℕ) : Machine (State κ n) (Label κ n) where
  init s := s = State.initial
  step := Step

end Pool

end LuzServing

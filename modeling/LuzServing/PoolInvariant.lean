import LuzServing.Pool

/-!
# The invariant of the thread pool

What keeps the pool right is split by what it speaks of: who holds `caller_` and
what `job_` is meanwhile (`Owned`), which jobs are running (`Runs`), which
workers are counted in `active_` (`Crew`), and what became of the tickets
(`Account`, on top of the dispenser's `Fair`). Each part has a lemma for each kind
of move that matters to it; together they are `Inv`.
-/

namespace LuzServing
namespace Pool

variable {κ : Type*} {n : ℕ}

/-! ## What a caller's place says -/

/-- The job that a caller's `run` is for. -/
def CallerPc.run : CallerPc → Option ℕ
  | idle => none
  | lockCaller j | publish j | announce j | drain j _ | await j | blocked j | unlockCaller j =>
    some j

/-- The caller holds `caller_`. -/
def CallerPc.inside : CallerPc → Bool
  | idle | lockCaller _ => false
  | _ => true

/-- What `job_` is while the caller holds `caller_`. -/
def CallerPc.pointer : CallerPc → Option ℕ
  | announce j | drain j _ | await j | blocked j => some j
  | _ => none

/-- A worker counted in `active_`. -/
def WorkerPc.busy : WorkerPc → Bool
  | drain _ _ | leave => true
  | _ => false

@[simp] theorem WorkerPc.busy_drain (j : ℕ) (d : Hand) : (WorkerPc.drain j d).busy = true := rfl

@[simp] theorem WorkerPc.busy_leave : WorkerPc.leave.busy = true := rfl

@[simp] theorem WorkerPc.busy_poll : WorkerPc.poll.busy = false := rfl

theorem CallerPc.run_of_pointer {p : CallerPc} {j : ℕ} (h : p.pointer = some j) :
    p.run = some j := by
  cases p <;> simp_all [pointer, run]

@[simp] theorem CallerPc.hand_resume (j : ℕ) (o : Option Hand) :
    (CallerPc.resume j o).hand = o := by
  cases o <;> rfl

@[simp] theorem CallerPc.run_resume (j : ℕ) (o : Option Hand) :
    (CallerPc.resume j o).run = some j := by
  cases o <;> rfl

@[simp] theorem CallerPc.inside_resume (j : ℕ) (o : Option Hand) :
    (CallerPc.resume j o).inside = true := by
  cases o <;> rfl

@[simp] theorem CallerPc.pointer_resume (j : ℕ) (o : Option Hand) :
    (CallerPc.resume j o).pointer = some j := by
  cases o <;> rfl

@[simp] theorem WorkerPc.hand_resume (j : ℕ) (o : Option Hand) :
    (WorkerPc.resume j o).hand = o := by
  cases o <;> rfl

@[simp] theorem WorkerPc.busy_resume (j : ℕ) (o : Option Hand) :
    (WorkerPc.resume j o).busy = true := by
  cases o <;> rfl

/-- Nothing happened to a caller, or it was woken up. -/
def Roused (p p' : CallerPc) : Prop := p' = p ∨ ∃ j, p = .blocked j ∧ p' = .await j

theorem Roused.hand {p p' : CallerPc} (h : Roused p p') : p'.hand = p.hand := by
  rcases h with rfl | ⟨j, rfl, rfl⟩ <;> rfl

theorem Roused.run {p p' : CallerPc} (h : Roused p p') : p'.run = p.run := by
  rcases h with rfl | ⟨j, rfl, rfl⟩ <;> rfl

theorem Roused.inside {p p' : CallerPc} (h : Roused p p') : p'.inside = p.inside := by
  rcases h with rfl | ⟨j, rfl, rfl⟩ <;> rfl

theorem Roused.pointer {p p' : CallerPc} (h : Roused p p') : p'.pointer = p.pointer := by
  rcases h with rfl | ⟨j, rfl, rfl⟩ <;> rfl

theorem NotifyOne.roused [DecidableEq κ] {caller caller' : κ → CallerPc}
    (h : NotifyOne caller caller') (c : κ) :
    Roused (caller c) (caller' c) := by
  rcases h with ⟨c', j, hc', rfl⟩ | ⟨-, rfl⟩
  · by_cases hcc : c = c'
    · subst hcc
      exact .inr ⟨j, hc', Function.update_self ..⟩
    · exact .inl (Function.update_of_ne hcc ..)
  · exact .inl rfl

theorem Notify.roused [DecidableEq κ] {d : Hand} {caller caller' : κ → CallerPc}
    (h : Notify d caller caller')
    (c : κ) : Roused (caller c) (caller' c) := by
  unfold Notify at h
  split at h
  · exact h.roused c
  · exact .inl (by rw [h])

/-- There is always a way in which one waiting caller, if there is any, is notified. -/
theorem NotifyOne.exists [DecidableEq κ] (caller : κ → CallerPc) :
    ∃ caller', NotifyOne caller caller' := by
  by_cases h : ∃ c j, caller c = .blocked j
  · obtain ⟨c, j, hc⟩ := h
    exact ⟨_, .inl ⟨c, j, hc, rfl⟩⟩
  · exact ⟨caller, .inr ⟨fun c j hc => h ⟨c, j, hc⟩, rfl⟩⟩

theorem Notify.exists [DecidableEq κ] (d : Hand) (caller : κ → CallerPc) :
    ∃ caller', Notify d caller caller' := by
  unfold Notify
  split
  · exact NotifyOne.exists caller
  · exact ⟨caller, rfl⟩

/-- Updating a map at a place, with a value that looks the same there, does not change how the map
looks. -/
theorem update_same [DecidableEq κ] {α β : Type*} {f : κ → α} {g : α → β} {c : κ} {a : α}
    (h : g a = g (f c))
    (c' : κ) : g (Function.update f c a c') = g (f c') := by
  by_cases hcc : c' = c
  · subst hcc
    rw [Function.update_self, h]
  · rw [Function.update_of_ne hcc]

/-! ## Who holds the pool -/

/-- One caller at a time is between locking and unlocking `caller_`, and its
place says what `job_` is. -/
structure Owned (lock : Option κ) (job : Option ℕ) (caller : κ → CallerPc) : Prop where
  /-- who is inside holds the lock -/
  inside : ∀ c, (caller c).inside = true ↔ lock = some c
  /-- the holder's place says what `job_` is -/
  pointer : ∀ c, lock = some c → job = (caller c).pointer
  /-- `job_` is null while nobody is inside -/
  free : lock = none → job = none

namespace Owned

variable {lock : Option κ} {job : Option ℕ} {caller caller' : κ → CallerPc} {c : κ} {j : ℕ}

/-- The lock's part of the invariant is kept by steps that keep every caller's place and pointer. -/
theorem same (h : Owned lock job caller) (hin : ∀ c, (caller' c).inside = (caller c).inside)
    (hptr : ∀ c, (caller' c).pointer = (caller c).pointer) : Owned lock job caller' where
  inside c := by rw [hin, h.inside]
  pointer c hc := by rw [hptr, h.pointer c hc]
  free := h.free

/-- While a job is published, some caller holds the lock and the job is the one that it points
to. -/
theorem owner (h : Owned lock (some j) caller) :
    ∃ c, lock = some c ∧ (caller c).pointer = some j := by
  cases lock with
  | none => cases h.free rfl
  | some c => exact ⟨c, rfl, (h.pointer c rfl).symm⟩

/-- A caller past `publish` holds the lock, and the job is its own. -/
theorem job_eq (h : Owned lock job caller) (hptr : (caller c).pointer = some j) :
    lock = some c ∧ job = some j := by
  have hin : (caller c).inside = true := by
    generalize caller c = p at hptr
    cases p <;> simp_all [CallerPc.pointer, CallerPc.inside]
  have hlock := (h.inside c).mp hin
  exact ⟨hlock, by rw [h.pointer c hlock, hptr]⟩

/-- The lock's part of the invariant is kept when the holder moves on without leaving. -/
theorem move [DecidableEq κ] (h : Owned lock job caller) (hlock : lock = some c) (p : CallerPc)
    (hin : p.inside = true) : Owned lock p.pointer (Function.update caller c p) where
  inside c' := by
    rw [← h.inside c']
    by_cases hcc : c' = c
    · subst hcc
      rw [Function.update_self, hin, (h.inside _).mpr hlock]
    · rw [Function.update_of_ne hcc]
  pointer c' hc' := by
    obtain rfl : c = c' := Option.some.inj (hlock.symm.trans hc')
    rw [Function.update_self]
  free hnone := by rw [hlock] at hnone; cases hnone

/-- The lock's part of the invariant is kept when a caller takes the lock while it is free. -/
theorem acquire [DecidableEq κ] (h : Owned none job caller) {p : CallerPc} (hin : p.inside = true)
    (hptr : p.pointer = none) : Owned (some c) job (Function.update caller c p) where
  inside c' := by
    by_cases hcc : c' = c
    · subst hcc
      simp [hin]
    · rw [Function.update_of_ne hcc, h.inside c']
      simp [Ne.symm hcc]
  pointer c' hc' := by
    obtain rfl : c = c' := Option.some.inj hc'
    rw [Function.update_self, hptr, h.free rfl]
  free hnone := by cases hnone

/-- The lock's part of the invariant is kept when the holder leaves and gives the lock back. -/
theorem release [DecidableEq κ] (h : Owned lock none caller) (hlock : lock = some c) {p : CallerPc}
    (hout : p.inside = false) : Owned none none (Function.update caller c p) where
  inside c' := by
    by_cases hcc : c' = c
    · subst hcc
      simp [hout]
    · rw [Function.update_of_ne hcc, h.inside c', hlock]
      simp [Ne.symm hcc]
  pointer c' hc' := by cases hc'
  free _ := rfl

end Owned

/-! ## Which jobs are running -/

/-- Every running job was submitted, has not returned, and has one caller. -/
structure Runs (submitted : ℕ) (returned : Finset ℕ) (caller : κ → CallerPc) : Prop where
  /-- a running job was submitted -/
  lt : ∀ c j, (caller c).run = some j → j < submitted
  /-- a running job has not returned -/
  not_returned : ∀ c j, (caller c).run = some j → j ∉ returned
  /-- a job runs for one caller -/
  unique : ∀ c c' j, (caller c).run = some j → (caller c').run = some j → c = c'
  /-- a returned job was submitted -/
  returned_lt : ∀ j ∈ returned, j < submitted
  /-- a submitted job runs until it has returned -/
  running : ∀ j, j < submitted → j ∉ returned → ∃ c, (caller c).run = some j

namespace Runs

variable {submitted : ℕ} {returned : Finset ℕ} {caller caller' : κ → CallerPc} {c : κ} {j : ℕ}

/-- The account of the runs is kept by steps that keep every caller in the run that it is in. -/
theorem same (h : Runs submitted returned caller) (hrun : ∀ c, (caller' c).run = (caller c).run) :
    Runs submitted returned caller' where
  lt c j hc := h.lt c j (hrun c ▸ hc)
  not_returned c j hc := h.not_returned c j (hrun c ▸ hc)
  unique c c' j hc hc' := h.unique c c' j (hrun c ▸ hc) (hrun c' ▸ hc')
  returned_lt := h.returned_lt
  running j hj hnot := by
    obtain ⟨c, hc⟩ := h.running j hj hnot
    exact ⟨c, (hrun c).trans hc⟩

/-- The account of the runs is kept when an idle caller calls `run` and gets the next number. -/
theorem call [DecidableEq κ] (h : Runs submitted returned caller) {p : CallerPc}
    (hp : p.run = some submitted)
    (hidle : (caller c).run = none) :
    Runs (submitted + 1) returned (Function.update caller c p) := by
  have hcase : ∀ c' j, (Function.update caller c p c').run = some j →
      c' = c ∧ j = submitted ∨ (caller c').run = some j := by
    intro c' j hj
    by_cases hcc : c' = c
    · subst hcc
      rw [Function.update_self, hp] at hj
      exact .inl ⟨rfl, (Option.some.inj hj).symm⟩
    · rw [Function.update_of_ne hcc] at hj
      exact .inr hj
  constructor
  case lt =>
    intro c' j hj
    rcases hcase c' j hj with ⟨-, rfl⟩ | hj
    · exact Nat.lt_succ_self _
    · exact Nat.lt_succ_of_lt (h.lt c' j hj)
  case not_returned =>
    intro c' j hj
    rcases hcase c' j hj with ⟨-, rfl⟩ | hj
    · exact fun hmem => absurd (h.returned_lt _ hmem) (lt_irrefl _)
    · exact h.not_returned c' j hj
  case unique =>
    intro c₁ c₂ j h₁ h₂
    rcases hcase c₁ j h₁ with ⟨hc₁, hj₁⟩ | h₁
    · rcases hcase c₂ j h₂ with ⟨hc₂, -⟩ | h₂
      · rw [hc₁, hc₂]
      · exact absurd (h.lt c₂ j h₂) (by omega)
    · rcases hcase c₂ j h₂ with ⟨-, hj₂⟩ | h₂
      · exact absurd (h.lt c₁ j h₁) (by omega)
      · exact h.unique c₁ c₂ j h₁ h₂
  case returned_lt => exact fun j hj => Nat.lt_succ_of_lt (h.returned_lt j hj)
  case running =>
    intro j hj hnot
    by_cases hnew : j = submitted
    · exact ⟨c, by rw [Function.update_self, hp, hnew]⟩
    · obtain ⟨c', hc'⟩ := h.running j (by omega) hnot
      refine ⟨c', ?_⟩
      rw [Function.update_of_ne, hc']
      rintro rfl
      rw [hidle] at hc'
      cases hc'

/-- The account of the runs is kept when a caller's `run` returns and its number is put to those
returned. -/
theorem return_ [DecidableEq κ] (h : Runs submitted returned caller) (hc : (caller c).run = some j)
    :
    Runs submitted (insert j returned) (Function.update caller c .idle) := by
  have hcase : ∀ c' i, (Function.update caller c .idle c').run = some i →
      c' ≠ c ∧ (caller c').run = some i := by
    intro c' i hi
    by_cases hcc : c' = c
    · subst hcc
      rw [Function.update_self] at hi
      cases hi
    · rw [Function.update_of_ne hcc] at hi
      exact ⟨hcc, hi⟩
  constructor
  case lt => exact fun c' i hi => h.lt c' i (hcase c' i hi).2
  case not_returned =>
    intro c' i hi
    obtain ⟨hcc, hi⟩ := hcase c' i hi
    rw [Finset.mem_insert, not_or]
    refine ⟨?_, h.not_returned c' i hi⟩
    rintro rfl
    exact hcc (h.unique c' c _ hi hc)
  case unique =>
    exact fun c₁ c₂ i h₁ h₂ => h.unique c₁ c₂ i (hcase c₁ i h₁).2 (hcase c₂ i h₂).2
  case returned_lt =>
    intro i hi
    rcases Finset.mem_insert.mp hi with rfl | hi
    · exact h.lt c _ hc
    · exact h.returned_lt i hi
  case running =>
    intro i hi hnot
    rw [Finset.mem_insert, not_or] at hnot
    obtain ⟨c', hc'⟩ := h.running i hi hnot.2
    refine ⟨c', ?_⟩
    rw [Function.update_of_ne, hc']
    rintro rfl
    rw [hc] at hc'
    exact hnot.1 (Option.some.inj hc').symm

end Runs

/-! ## Which workers are counted -/

/-- A worker at work on a job works on `job_`, and `active_` counts those at work. -/
structure Crew (job : Option ℕ) (active : ℕ) (worker : Fin n → WorkerPc) : Prop where
  /-- nobody is at work without a job -/
  busy : ∀ w, (worker w).busy = true → job ≠ none
  /-- a worker in `drain` works on the job -/
  drains : ∀ w j d, worker w = .drain j d → job = some j
  /-- `active_` counts the workers at work -/
  active : active = (Finset.univ.filter fun w => (worker w).busy = true).card

namespace Crew

variable {job : Option ℕ} {active : ℕ} {worker : Fin n → WorkerPc} {w : Fin n}
  {p : WorkerPc} {j : ℕ}

/-- When nobody is at work the job may be exchanged for another one, or for none. -/
theorem change_job (h : Crew job active worker) (job' : Option ℕ) (hnone : active = 0) :
    Crew job' active worker := by
  have hidle : ∀ w, (worker w).busy ≠ true := by
    intro w hw
    have hcard := h.active
    rw [hnone, eq_comm, Finset.card_eq_zero, Finset.filter_eq_empty_iff] at hcard
    exact hcard (Finset.mem_univ w) hw
  refine ⟨fun w hw => absurd hw (hidle w), fun w j d hw => absurd ?_ (hidle w), h.active⟩
  rw [hw]
  rfl

/-- When there is no job, the number of workers at work is zero. -/
theorem none_active (h : Crew none active worker) : active = 0 := by
  rw [h.active, Finset.card_eq_zero, Finset.filter_eq_empty_iff]
  exact fun w _ hw => h.busy w hw rfl

/-- When `active_` is not zero, some worker is indeed at work on the job. -/
theorem exists_busy (h : Crew job active worker) (hpos : 0 < active) :
    ∃ w, (worker w).busy = true := by
  rw [h.active, Finset.card_pos] at hpos
  obtain ⟨w, hw⟩ := hpos
  exact ⟨w, (Finset.mem_filter.mp hw).2⟩

/-- The account of the workers is kept when one moves and is at work after it exactly when it was
before. -/
theorem move (h : Crew job active worker) (hbusy : p.busy = (worker w).busy)
    (hdrain : ∀ j d, p = .drain j d → job = some j) :
    Crew job active (Function.update worker w p) where
  busy w' hw' := by
    rw [update_same hbusy] at hw'
    exact h.busy w' hw'
  drains w' j d hw' := by
    by_cases hww : w' = w
    · subst hww
      rw [Function.update_self] at hw'
      exact hdrain j d hw'
    · rw [Function.update_of_ne hww] at hw'
      exact h.drains w' j d hw'
  active := by
    rw [h.active]
    congr 1
    refine Finset.filter_congr fun w' _ => ?_
    rw [update_same hbusy]

/-- The account of the workers is kept when one that was not at work counts itself in. -/
theorem enter (h : Crew (some j) active worker) (hout : (worker w).busy = false) (d : Hand) :
    Crew (some j) (active + 1) (Function.update worker w (.drain j d)) where
  busy _ _ := by simp
  drains w' i d' hw' := by
    by_cases hww : w' = w
    · subst hww
      rw [Function.update_self] at hw'
      cases hw'
      rfl
    · rw [Function.update_of_ne hww] at hw'
      exact h.drains w' i d' hw'
  active := by
    have hset : (Finset.univ.filter fun w' =>
        (Function.update worker w (.drain j d) w').busy = true) =
        insert w (Finset.univ.filter fun w' => (worker w').busy = true) := by
      ext w'
      by_cases hww : w' = w
      · subst hww
        simp
      · simp [hww]
    rw [hset, Finset.card_insert_of_notMem (by simp [hout]), h.active]

/-- The account of the workers is kept when one that is done counts itself out. -/
theorem leave (h : Crew job active worker) (hw : worker w = .leave) :
    Crew job (active - 1) (Function.update worker w .poll) where
  busy w' hw' := by
    by_cases hww : w' = w
    · subst hww
      rw [Function.update_self] at hw'
      cases hw'
    · rw [Function.update_of_ne hww] at hw'
      exact h.busy w' hw'
  drains w' i d' hw' := by
    by_cases hww : w' = w
    · subst hww
      rw [Function.update_self] at hw'
      cases hw'
    · rw [Function.update_of_ne hww] at hw'
      exact h.drains w' i d' hw'
  active := by
    have hset : (Finset.univ.filter fun w' =>
        (Function.update worker w .poll w').busy = true) =
        (Finset.univ.filter fun w' => (worker w').busy = true).erase w := by
      ext w'
      by_cases hww : w' = w
      · subst hww
        simp
      · simp [hww]
    have hmem : w ∈ Finset.univ.filter fun w' => (worker w').busy = true := by
      simp [hw]
    rw [hset, Finset.card_erase_of_mem hmem, h.active]

/-- Waking all the workers up puts none of them to work, so the account of them is kept. -/
theorem wakeAll (h : Crew job active worker) : Crew job active (wakeAll worker) := by
  have hbusy : ∀ w, (Pool.wakeAll worker w).busy = (worker w).busy := by
    intro w
    unfold Pool.wakeAll
    split
    next hw => rw [hw]; rfl
    next => rfl
  refine ⟨fun w hw => h.busy w (hbusy w ▸ hw), fun w j d hw => h.drains w j d ?_, ?_⟩
  · unfold Pool.wakeAll at hw
    split at hw
    · cases hw
    · exact hw
  · rw [h.active]
    congr 1
    refine Finset.filter_congr fun w _ => ?_
    rw [hbusy]

end Crew

/-! ## What became of the tickets -/

/-- Each ticket of a job was served once, and no other number was. -/
def State.Complete (s : State κ n) (j : ℕ) : Prop :=
  ∀ k, (s.tickets j).count k = if k < chunksOf (s.count j) then 1 else 0

/-- The dispenser is fair to the job it is for, and the other jobs are either not
begun or complete. -/
structure Account (s : State κ n) : Prop where
  /-- the published job has its number of tickets -/
  chunks : ∀ j, s.job = some j → s.chunks = chunksOf (s.count j)
  /-- its tickets are shared fairly -/
  fair : ∀ j, s.job = some j → ∃ done, Fair s.chunks (s.view j) s.hand done
  /-- a caller waits only once every ticket is drawn -/
  drawn : ∀ c j, s.caller c = .await j ∨ s.caller c = .blocked j → s.chunks ≤ s.next
  /-- jobs to come have no ticket served -/
  unborn : ∀ j, s.submitted ≤ j → s.tickets j = []
  /-- jobs not yet published have no ticket served -/
  queued : ∀ c j, s.caller c = .lockCaller j ∨ s.caller c = .publish j → s.tickets j = []
  /-- a job about to return is complete -/
  leaving : ∀ c j, s.caller c = .unlockCaller j → s.Complete j
  /-- a job that returned is complete -/
  complete : ∀ j ∈ s.returned, s.Complete j

/-- **The pool's invariant**: the lock, the runs, the workers and the tickets are all accounted
for. -/
structure Inv (s : State κ n) : Prop where
  /-- who holds the pool -/
  owned : Owned s.callerLock s.job s.caller
  /-- which jobs are running -/
  runs : Runs s.submitted s.returned s.caller
  /-- which workers are counted -/
  crew : Crew s.job s.active s.worker
  /-- what became of the tickets -/
  account : Account s

/-- When every thread has the same hand in two states, the hands as a whole are the same. -/
theorem handOf_congr {caller caller' : κ → CallerPc} {worker worker' : Fin n → WorkerPc}
    (hc : ∀ c, (caller' c).hand = (caller c).hand)
    (hw : ∀ w, (worker' w).hand = (worker w).hand) :
    handOf caller' worker' = handOf caller worker := by
  funext t
  cases t with
  | inl c => exact hc c
  | inr w => exact hw w

/-- A move of a caller changes, for the dispenser, the hand of this caller and no other hand. -/
theorem handOf_caller [DecidableEq κ] (caller : κ → CallerPc) (worker : Fin n → WorkerPc) (c : κ)
    (p : CallerPc) : handOf (Function.update caller c p) worker =
      Function.update (handOf caller worker) (.inl c) p.hand := by
  funext t
  cases t with
  | inl c' =>
    by_cases hcc : c' = c
    · subst hcc
      simp [handOf]
    · simp [handOf, hcc]
  | inr w => simp [handOf]

/-- A move of a worker changes, for the dispenser, the hand of this worker and no other hand. -/
theorem handOf_worker [DecidableEq κ] (caller : κ → CallerPc) (worker : Fin n → WorkerPc)
    (w : Fin n) (p : WorkerPc) : handOf caller (Function.update worker w p) =
      Function.update (handOf caller worker) (.inr w) p.hand := by
  funext t
  cases t with
  | inl c => simp [handOf]
  | inr w' =>
    by_cases hww : w' = w
    · subst hww
      simp [handOf]
    · simp [handOf, hww]

end Pool
end LuzServing

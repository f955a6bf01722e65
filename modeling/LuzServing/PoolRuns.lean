import LuzServing.PoolSteps

/-!
# The thread pool over whole runs

A caller sleeps only while some worker is still counted, and the last one to leave
wakes it (`awake_reach`), so somebody can always go on (`progress`). With the
invariant this is what the pool owes a lookup (`pool_exact`): each row is served
exactly once before `run` returns, nothing of a job is touched afterwards, and no
run hangs.
-/

namespace LuzServing
namespace Pool

variable {κ : Type*} {n : ℕ}

/-! ## Nobody sleeps for ever -/

/-- The hands are empty when no worker is counted and the holder of the pool is not
in `drain`. -/
theorem Inv.no_hand [DecidableEq κ] {s : State κ n} (h : Inv s) {c : κ}
    (hlock : s.callerLock = some c) (hc : (s.caller c).hand = none) (hactive : s.active = 0)
    (t : κ ⊕ Fin n) :
    s.hand t = none := by
  cases t with
  | inl c' =>
    by_cases hcc : c' = c
    · subst hcc
      exact hc
    · simp only [State.hand, handOf]
      cases hp : s.caller c' with
      | drain j d =>
        have hin := (h.owned.inside c').mp (by rw [hp]; rfl)
        exact absurd (Option.some.inj (hin.symm.trans hlock)) hcc
      | _ => rfl
  | inr w =>
    simp only [State.hand, handOf]
    cases hp : s.worker w with
    | drain j d =>
      have hcrew := h.crew.change_job none hactive
      exact absurd (hcrew.drains w j d hp) (by simp)
    | _ => rfl

/-- A caller goes to sleep only while a worker is counted. -/
theorem Inv.block_active [DecidableEq κ] {s : State κ n} (h : Inv s) {c : κ} {j : ℕ}
    (hc : s.caller c = .await j)
    (hdone : ¬(s.remaining = 0 ∧ s.active = 0)) : 0 < s.active := by
  rw [Nat.pos_iff_ne_zero]
  intro hactive
  obtain ⟨hlock, hjob⟩ := h.owned.job_eq (c := c) (j := j) (by rw [hc]; rfl)
  obtain ⟨done, hfair⟩ := h.account.fair j hjob
  have hnone := h.no_hand hlock (by rw [hc]; rfl) hactive
  exact hdone ⟨hfair.remaining_eq_zero (h.account.drawn c j (.inl hc)) hnone, hactive⟩

/-- A caller is asleep only while somebody is at work, who will wake it up. -/
def State.Awake (s : State κ n) : Prop := ∀ c j, s.caller c = .blocked j → 0 < s.active

/-- A caller that moves anywhere but to sleep leaves the others as they were. -/
theorem State.Awake.update [DecidableEq κ] {s s' : State κ n} (h : s.Awake) {c : κ} {p : CallerPc}
    (hcaller : ∀ c', Roused (Function.update s.caller c p c') (s'.caller c'))
    (hp : ∀ j, p ≠ .blocked j) (hactive : s'.active = s.active) : s'.Awake := by
  intro c' j hc'
  rw [hactive]
  rcases hcaller c' with hsame | ⟨i, -, hawait⟩
  · by_cases hcc : c' = c
    · subst hcc
      rw [Function.update_self, hc'] at hsame
      exact absurd hsame.symm (hp j)
    · rw [Function.update_of_ne hcc, hc'] at hsame
      exact h c' j hsame.symm
  · rw [hc'] at hawait
    cases hawait

/-- While a caller sleeps, a worker is counted; the last one to leave wakes it. -/
theorem Inv.awake_step [DecidableEq κ] {s s' : State κ n} {a : Label κ n} (h : Inv s)
    (haw : s.Awake)
    (hst : Step s a s') : s'.Awake := by
  cases hst with
  | call rows hc => exact haw.update (fun _ => .inl rfl) (by simp) rfl
  | lockCaller hc hfree => exact haw.update (fun _ => .inl rfl) (by simp) rfl
  | publish hc => exact haw.update (fun _ => .inl rfl) (by simp) rfl
  | announce hc => exact haw.update (fun _ => .inl rfl) (by simp) rfl
  | @callerDraw c j d caller' hc hnotify =>
    refine haw.update hnotify.roused (fun i => ?_) rfl
    cases (drawStep s.chunks (s.view j) d).2 <;> simp [CallerPc.resume]
  | pass hc hdone => exact haw.update (fun _ => .inl rfl) (by simp) rfl
  | block hc hdone => exact fun _ _ _ => h.block_active hc hdone
  | unlockCaller hc => exact haw.update (fun _ => .inl rfl) (by simp) rfl
  | spuriousCaller hc => exact haw.update (fun _ => .inl rfl) (by simp) rfl
  | exit hw hstop => exact haw
  | take hw hstop hnew hjob => exact fun _ _ _ => Nat.succ_pos _
  | skip hw hstop hnew hjob => exact haw
  | sleep hw hstop hold => exact haw
  | workerDraw hw hnotify =>
    intro c' j hc'
    rcases hnotify.roused c' with hsame | ⟨i, -, hawait⟩
    · exact haw c' j (hsame.symm.trans hc')
    · cases hc'.symm.trans hawait
  | @leave w caller' hw hnotify =>
    -- only the holder of the pool can be asleep, and it is the one notified
    intro c' j hc'
    rcases hnotify with ⟨c, i, hc, rfl⟩ | ⟨hnone, rfl⟩
    · by_cases hcc : c' = c
      · subst hcc
        simp at hc'
      · simp only [Function.update_of_ne hcc] at hc'
        have h₁ := (h.owned.inside c').mp (by rw [hc']; rfl)
        have h₂ := (h.owned.inside c).mp (by rw [hc]; rfl)
        exact absurd (Option.some.inj (h₁.symm.trans h₂)) hcc
    · exact absurd hc' (hnone c' j)
  | spuriousWorker hw => exact haw

/-- In every state that a run reaches, a caller sleeps only while a worker is
counted. -/
theorem awake_reach [DecidableEq κ] {s : State κ n} (h : (machine κ n).Reach s) : s.Awake := by
  refine h.invariant (I := State.Awake) ?_ fun s a s' hr hi hst => (inv_reach hr).awake_step hi hst
  rintro s rfl c j hc
  cases hc

/-- A step that a thread takes by itself. -/
def State.CanGoOn [DecidableEq κ] (s : State κ n) : Prop :=
  ∃ s', (∃ c, Step s (.caller c) s') ∨ ∃ w, Step s (.worker w) s'

/-- A worker that is at work on a job never has to wait, so the pool can go on. -/
theorem busy_canGoOn [DecidableEq κ] {s : State κ n} {w : Fin n} (hw : (s.worker w).busy = true) :
    s.CanGoOn := by
  cases hp : s.worker w with
  | drain j d =>
    obtain ⟨caller', hnotify⟩ := Notify.exists d s.caller
    exact ⟨_, .inr ⟨w, .workerDraw hp hnotify⟩⟩
  | leave =>
    obtain ⟨caller', hnotify⟩ := NotifyOne.exists s.caller
    exact ⟨_, .inr ⟨w, .leave hp hnotify⟩⟩
  | poll => rw [hp] at hw; cases hw
  | asleep => rw [hp] at hw; cases hw
  | exited => rw [hp] at hw; cases hw

/-- The holder of the pool, or a worker it sleeps for, can go on. -/
theorem holder_canGoOn [DecidableEq κ] {s : State κ n} (h : Inv s) (haw : s.Awake) {c : κ}
    (hin : (s.caller c).inside = true) : s.CanGoOn := by
  cases hp : s.caller c with
  | idle => rw [hp] at hin; cases hin
  | lockCaller j => rw [hp] at hin; cases hin
  | publish j => exact ⟨_, .inl ⟨c, .publish hp⟩⟩
  | announce j => exact ⟨_, .inl ⟨c, .announce hp⟩⟩
  | drain j d =>
    obtain ⟨caller', hnotify⟩ := Notify.exists d
      (Function.update s.caller c (.resume j (drawStep s.chunks (s.view j) d).2))
    exact ⟨_, .inl ⟨c, .callerDraw hp hnotify⟩⟩
  | await j =>
    by_cases hdone : s.remaining = 0 ∧ s.active = 0
    · exact ⟨_, .inl ⟨c, .pass hp hdone⟩⟩
    · exact ⟨_, .inl ⟨c, .block hp hdone⟩⟩
  | blocked j =>
    obtain ⟨w, hw⟩ := h.crew.exists_busy (haw c j hp)
    exact busy_canGoOn hw
  | unlockCaller j => exact ⟨_, .inl ⟨c, .unlockCaller hp⟩⟩

/-- **No deadlock**: while a job runs, some thread can go on. -/
theorem progress [DecidableEq κ] {s : State κ n} (h : Inv s) (haw : s.Awake) {j : ℕ}
    (hj : j < s.submitted) (hnot : j ∉ s.returned) : s.CanGoOn := by
  obtain ⟨c, hc⟩ := h.runs.running j hj hnot
  cases hlock : s.callerLock with
  | some c' => exact holder_canGoOn h haw ((h.owned.inside c').mpr hlock)
  | none =>
    have hout : (s.caller c).inside ≠ true := by
      intro hin
      rw [(h.owned.inside c).mp hin] at hlock
      cases hlock
    cases hp : s.caller c with
    | lockCaller i => exact ⟨_, .inl ⟨c, .lockCaller hp hlock⟩⟩
    | idle => rw [hp] at hc; cases hc
    | _ => rw [hp] at hout; exact absurd rfl hout

/-! ## What the pool does for a lookup -/

/-- A row of the job is in the chunk of exactly one ticket, the quotient of its number by the chunk
size. -/
theorem count_chunkRows (rows k i : ℕ) :
    (chunkRows rows k).count i = if k = i / kChunk ∧ i < rows then 1 else 0 := by
  have hpos : 0 < kChunk := Nat.one_pos
  have hmem : i ∈ chunkRows rows k ↔ k = i / kChunk ∧ i < rows := by
    simp only [chunkRows, List.mem_range'_1]
    rw [eq_comm, Nat.div_eq_iff hpos, Nat.mul_comm]
    omega
  have hnodup : (chunkRows rows k).Nodup := List.nodup_range'
  split
  next h => exact List.count_eq_one_of_mem hnodup (hmem.mpr h)
  next h => exact List.count_eq_zero_of_not_mem fun hi => h (hmem.mp hi)

/-- The ticket of a row of the job is one of the job's. -/
theorem div_lt_chunksOf {rows i : ℕ} (hi : i < rows) : i / kChunk < chunksOf rows := by
  have hpos : 0 < kChunk := Nat.one_pos
  rw [chunksOf, Nat.lt_iff_add_one_le, Nat.le_div_iff_mul_le hpos, Nat.add_one_mul]
  have := Nat.div_mul_le_self i kChunk
  omega

/-- A row is passed over a list of tickets as often as the ticket of its chunk is in the list. -/
theorem count_passed (rows i : ℕ) (tickets : List ℕ) :
    (tickets.flatMap (chunkRows rows)).count i =
      if i < rows then tickets.count (i / kChunk) else 0 := by
  induction tickets with
  | nil => simp
  | cons k tickets ih =>
    rw [List.flatMap_cons, List.count_append, ih, count_chunkRows, List.count_cons]
    by_cases hi : i < rows
    · simp only [hi, and_true, if_true, beq_iff_eq]
      omega
    · simp only [hi, and_false, if_false]

/-- A complete job passed each of its rows to `serve` exactly once. -/
theorem State.Complete.passed {s : State κ n} {j : ℕ} (h : s.Complete j) :
    (s.passed j).Perm (List.range (s.count j)) := by
  rw [List.perm_iff_count]
  intro i
  rw [State.passed, count_passed, h, List.count_range]
  by_cases hi : i < s.count j
  · rw [if_pos hi, if_pos (div_lt_chunksOf hi), if_pos hi]
  · rw [if_neg hi, if_neg hi]

/-- What a thread's next step touches of a job: a thread in `drain` reads the
number of tickets and the rows of its job, a worker about to test `ready_.wait`
reads `job_`. -/
def State.Touches (s : State κ n) (j : ℕ) : Label κ n → Prop
  | .caller c => ∃ d, s.caller c = .drain j d
  | .worker w => (∃ d, s.worker w = .drain j d) ∨ s.worker w = .poll ∧ s.job = some j
  | _ => False

/-- The job that a step touches is the one that is published at that time. -/
theorem Inv.touched {s : State κ n} (h : Inv s) {j : ℕ} {a : Label κ n} (ht : s.Touches j a) :
    s.job = some j := by
  cases a with
  | call c => exact ht.elim
  | spurious => exact ht.elim
  | caller c =>
    obtain ⟨d, hc⟩ := ht
    exact (h.owned.job_eq (c := c) (by rw [hc]; rfl)).2
  | worker w =>
    rcases ht with ⟨d, hw⟩ | ⟨-, hjob⟩
    · exact h.crew.drains w j d hw
    · exact hjob

/-- While a job is published, no caller stands before publishing another one. -/
theorem Inv.not_publishing {s : State κ n} (h : Inv s) {j : ℕ} (hjob : s.job = some j) (c : κ)
    (i : ℕ) : s.caller c ≠ .publish i := by
  intro hc
  have hlock := (h.owned.inside c).mp (by rw [hc]; rfl)
  have hptr := h.owned.pointer c hlock
  rw [hjob, hc] at hptr
  cases hptr

/-- **The pool is exact.** In every state that any interleaving reaches: a job whose
`run` has returned had each of its rows served exactly once; what any thread is
about to touch of a job, the job has not returned, its counters are the ones in
place, and nobody is about to reset them; and while a job runs, some thread can go
on. -/
theorem pool_exact [DecidableEq κ] {s : State κ n} (h : (machine κ n).Reach s) :
    (∀ j ∈ s.returned, (s.passed j).Perm (List.range (s.count j))) ∧
      (∀ j a, s.Touches j a → j ∉ s.returned ∧ s.job = some j ∧
        s.chunks = chunksOf (s.count j) ∧ ∀ c i, s.caller c ≠ .publish i) ∧
      ∀ j, j < s.submitted → j ∉ s.returned → s.CanGoOn := by
  have hinv := inv_reach h
  refine ⟨fun j hj => (hinv.account.complete j hj).passed, fun j a ht => ?_, fun j hj hnot => ?_⟩
  · have hjob := hinv.touched ht
    exact ⟨(hinv.published hjob).2.1, hjob, hinv.account.chunks j hjob, hinv.not_publishing hjob⟩
  · exact progress hinv (awake_reach h) hj hnot

/-- A run of the pool with one caller and one worker: a job of two rows, of which
the worker serves the second. -/
theorem pool_exact_twoRows : ∃ s : State Unit 1, (machine Unit 1).Reach s ∧
    0 ∈ s.returned ∧ s.tickets 0 = [1, 0] ∧
    (s.passed 0).Perm (List.range 2) := by
  have h0 : (machine Unit 1).Reach State.initial := .init rfl
  have h1 := h0.step (Step.call (c := ()) 2 rfl)
  have h2 := h1.step (Step.lockCaller (c := ()) rfl rfl)
  have h3 := h2.step (Step.publish (c := ()) rfl)
  have h4 := h3.step (Step.announce (c := ()) rfl)
  have h5 := h4.step (Step.take (w := 0) rfl rfl (by decide) rfl)
  have h6 := h5.step (Step.callerDraw (c := ()) rfl rfl)
  have h7 := h6.step (Step.workerDraw (w := 0) rfl rfl)
  have h8 := h7.step (Step.workerDraw (w := 0) rfl rfl)
  have h9 := h8.step (Step.workerDraw (w := 0) rfl rfl)
  have h10 := h9.step (Step.workerDraw (w := 0) rfl rfl)
  have h11 := h10.step (Step.workerDraw (w := 0) rfl rfl)
  have h12 := h11.step (Step.workerDraw (w := 0) rfl rfl)
  have h13 := h12.step (Step.leave (w := 0) rfl (.inr ⟨by rintro ⟨⟩ j ⟨⟩, rfl⟩))
  have h14 := h13.step (Step.callerDraw (c := ()) rfl rfl)
  have h15 := h14.step (Step.callerDraw (c := ()) rfl rfl)
  have h16 := h15.step (Step.callerDraw (c := ()) rfl rfl)
  have h17 := h16.step (Step.callerDraw (c := ()) rfl (.inr ⟨by rintro ⟨⟩ j ⟨⟩, rfl⟩))
  have h18 := h17.step (Step.callerDraw (c := ()) rfl rfl)
  have h19 := h18.step (Step.callerDraw (c := ()) rfl rfl)
  have h20 := h19.step (Step.pass (c := ()) rfl ⟨rfl, rfl⟩)
  have h21 := h20.step (Step.unlockCaller (c := ()) rfl)
  exact ⟨_, h21, Finset.mem_insert_self .., rfl,
    (pool_exact h21).1 0 (Finset.mem_insert_self ..)⟩

end Pool
end LuzServing

import LuzServing.PoolInvariant

/-!
# The steps of the thread pool keep its invariant

The tickets move only in `drain`, which is a step of the dispenser whoever takes
it (`Inv.draw`); publishing starts a new dispenser, which is safe because nobody
holds a ticket by then (`Inv.publish`). The other steps draw no ticket
(`Account.frame`). Together: every step of every thread keeps the invariant
(`Inv.step`), so every run does (`inv_reach`).
-/

namespace LuzServing
namespace Pool

variable {κ : Type*} {n : ℕ}

/-! ## The steps keep the account -/

/-- The published job is submitted, has not returned, and nobody is about to
publish it or to return from it. -/
theorem Inv.published {s : State κ n} (h : Inv s) {j : ℕ} (hjob : s.job = some j) :
    j < s.submitted ∧ j ∉ s.returned ∧
      ∀ c, s.caller c ≠ .lockCaller j ∧ s.caller c ≠ .publish j ∧
        s.caller c ≠ .unlockCaller j := by
  have howned := h.owned
  rw [hjob] at howned
  obtain ⟨c, -, hptr⟩ := howned.owner
  have hrun := CallerPc.run_of_pointer hptr
  refine ⟨h.runs.lt c j hrun, h.runs.not_returned c j hrun, fun c' => ?_⟩
  refine ⟨?_, ?_, ?_⟩ <;> intro hc' <;>
    · obtain rfl := h.runs.unique c' c j (by rw [hc']; rfl) hrun
      rw [hc'] at hptr
      cases hptr

/-- Waking callers up, however many, keeps the invariant of the pool. -/
theorem Inv.roused {s : State κ n} (h : Inv s) {caller' : κ → CallerPc}
    (hr : ∀ c, Roused (s.caller c) (caller' c)) : Inv { s with caller := caller' } where
  owned := h.owned.same (fun c => (hr c).inside) fun c => (hr c).pointer
  runs := h.runs.same fun c => (hr c).run
  crew := h.crew
  account := by
    have ha := h.account
    have hhand : State.hand { s with caller := caller' } = s.hand :=
      handOf_congr (fun c => (hr c).hand) fun _ => rfl
    have hback : ∀ {c p}, caller' c = p → (∀ j, p ≠ .await j) → s.caller c = p := by
      intro c p hc hp
      rcases hr c with hsame | ⟨j, -, hawait⟩
      · rw [← hsame, hc]
      · exact absurd (hc.symm.trans hawait) (hp j)
    constructor
    case chunks => exact ha.chunks
    case fair =>
      rw [hhand]
      exact ha.fair
    case drawn =>
      intro c j hc
      rcases hr c with hsame | ⟨i, hblocked, -⟩
      · exact ha.drawn c j (hsame ▸ hc)
      · exact ha.drawn c i (.inr hblocked)
    case unborn => exact ha.unborn
    case queued =>
      exact fun c j hc => ha.queued c j (hc.imp (hback · (by simp)) (hback · (by simp)))
    case leaving => exact fun c j hc => ha.leaving c j (hback hc (by simp))
    case complete => exact ha.complete

/-- A step of `drain` on one job leaves the tickets of every other job as they were. -/
theorem draw_tickets (s : State κ n) {i j : ℕ} (d : Hand) (hij : i ≠ j) :
    (s.draw j d).tickets i = s.tickets i := by
  unfold State.draw
  exact Function.update_of_ne hij ..

/-- A step of `drain` is, for the job's ticket dispenser, one of the dispenser's own steps. -/
theorem draw_view (s : State κ n) (j : ℕ) (d : Hand) :
    (s.draw j d).view j = (drawStep s.chunks (s.view j) d).1 := by
  simp [State.draw, State.view]

/-- The next ticket of a job only moves forward in a step of `drain`. -/
theorem draw_next (s : State κ n) (j : ℕ) (d : Hand) : s.next ≤ (s.draw j d).next := by
  cases d <;> simp [State.draw, State.view, drawStep]

/-- A step of `drain`, by whichever thread, keeps the account of the tickets. -/
theorem Inv.draw [DecidableEq κ] {s : State κ n} (h : Inv s) {j : ℕ} {d : Hand}
    (hjob : s.job = some j) {t : κ ⊕ Fin n} (ht : s.hand t = some d) {caller' : κ → CallerPc}
    {worker' : Fin n → WorkerPc}
    (hhand : State.hand { s.draw j d with caller := caller', worker := worker' } =
      Function.update s.hand t (drawStep s.chunks (s.view j) d).2)
    (hcaller : ∀ c, caller' c = s.caller c ∨
      caller' c = .resume j (drawStep s.chunks (s.view j) d).2) :
    Account { s.draw j d with caller := caller', worker := worker' } := by
  have ha := h.account
  obtain ⟨hlt, hnot, hplace⟩ := h.published hjob
  obtain ⟨done, hfair⟩ := ha.fair j hjob
  have hback : ∀ {c p}, caller' c = p → (∀ i, p ≠ .await i) → (∀ i h, p ≠ .drain i h) →
      s.caller c = p := by
    intro c p hc hawait hdrain
    rcases hcaller c with hsame | hresume
    · rw [← hsame, hc]
    · rw [hc] at hresume
      cases hnext : (drawStep s.chunks (s.view j) d).2 with
      | none =>
        rw [hnext] at hresume
        exact absurd hresume (hawait j)
      | some d' =>
        rw [hnext] at hresume
        exact absurd hresume (hdrain j d')
  constructor
  case chunks => exact ha.chunks
  case fair =>
    intro i hi
    obtain rfl : j = i := Option.some.inj (hjob.symm.trans hi)
    obtain ⟨done', hfair'⟩ := hfair.step ht
    refine ⟨done', ?_⟩
    rw [hhand]
    have hview := draw_view s j d
    simp only [State.view] at hview ⊢
    rw [hview]
    exact hfair'
  case drawn =>
    intro c i hc
    refine le_trans ?_ (draw_next s j d)
    rcases hcaller c with hsame | hresume
    · exact ha.drawn c i (hsame ▸ hc)
    · refine hfair.drawn_all ht ?_
      cases hnext : (drawStep s.chunks (s.view j) d).2 with
      | none => rfl
      | some d' =>
        rw [hnext] at hresume
        simp only [hresume] at hc
        rcases hc with hc | hc <;> cases hc
  case unborn =>
    intro i hi
    rw [← ha.unborn i hi]
    exact draw_tickets s d (by rintro rfl; exact absurd hlt (not_lt.mpr hi))
  case queued =>
    intro c i hc
    have hc' : s.caller c = .lockCaller i ∨ s.caller c = .publish i :=
      hc.imp (hback · (by simp) (by simp)) (hback · (by simp) (by simp))
    rw [← ha.queued c i hc']
    refine draw_tickets s d ?_
    rintro rfl
    exact hc'.elim (hplace c).1 (hplace c).2.1
  case leaving =>
    intro c i hc k
    have hc' : s.caller c = .unlockCaller i := hback hc (by simp) (by simp)
    have hij : i ≠ j := by
      rintro rfl
      exact (hplace c).2.2 hc'
    rw [show (s.draw j d).tickets i = s.tickets i from draw_tickets s d hij]
    exact ha.leaving c i hc' k
  case complete =>
    intro i hi k
    have hij : i ≠ j := by
      rintro rfl
      exact hnot hi
    rw [show (s.draw j d).tickets i = s.tickets i from draw_tickets s d hij]
    exact ha.complete i hi k

/-- Steps that draw no ticket: the hands stay fair, the job stays or is over, and
a caller that moves goes where it may. -/
theorem Account.frame {s s' : State κ n} (ha : Account s) (hchunks : s'.chunks = s.chunks)
    (hnext : s'.next = s.next) (hremaining : s'.remaining = s.remaining)
    (htickets : s'.tickets = s.tickets) (hcount : s'.count = s.count)
    (hsub : s'.submitted = s.submitted) (hret : s'.returned = s.returned)
    (hjob : s'.job = s.job ∨ s'.job = none)
    (hfair : ∀ j done, s.job = some j → Fair s.chunks (s.view j) s.hand done →
      Fair s.chunks (s.view j) s'.hand done)
    (hcaller : ∀ c, s'.caller c = s.caller c ∨
      (∀ j, s'.caller c = .await j ∨ s'.caller c = .blocked j → s.chunks ≤ s.next) ∧
      (∀ j, s'.caller c = .lockCaller j ∨ s'.caller c = .publish j → s.tickets j = []) ∧
      ∀ j, s'.caller c = .unlockCaller j → s.Complete j) : Account s' := by
  have hview : ∀ j, s'.view j = s.view j := by
    intro j
    simp only [State.view, hnext, hremaining, htickets]
  have hcomplete : ∀ j, s.Complete j → s'.Complete j := by
    intro j hj k
    rw [htickets, hcount]
    exact hj k
  have hsome : ∀ {j}, s'.job = some j → s.job = some j := by
    intro j hj
    rcases hjob with hsame | hnone
    · rw [← hsame, hj]
    · rw [hnone] at hj
      cases hj
  constructor
  case chunks =>
    intro j hj
    rw [hchunks, hcount]
    exact ha.chunks j (hsome hj)
  case fair =>
    intro j hj
    obtain ⟨done, hd⟩ := ha.fair j (hsome hj)
    rw [hchunks, hview]
    exact ⟨done, hfair j done (hsome hj) hd⟩
  case drawn =>
    intro c j hc
    rw [hchunks, hnext]
    rcases hcaller c with hsame | ⟨hawait, -, -⟩
    · exact ha.drawn c j (hsame ▸ hc)
    · exact hawait j hc
  case unborn =>
    rw [hsub, htickets]
    exact ha.unborn
  case queued =>
    intro c j hc
    rw [htickets]
    rcases hcaller c with hsame | ⟨-, hqueued, -⟩
    · exact ha.queued c j (hsame ▸ hc)
    · exact hqueued j hc
  case leaving =>
    intro c j hc
    refine hcomplete j ?_
    rcases hcaller c with hsame | ⟨-, -, hleaving⟩
    · exact ha.leaving c j (hsame ▸ hc)
    · exact hleaving j hc
  case complete =>
    intro j hj
    rw [hret] at hj
    exact hcomplete j (ha.complete j hj)

/-- A caller's move that draws no ticket, to a place where it may be. -/
theorem Account.move_caller [DecidableEq κ] {s s' : State κ n} (ha : Account s) (c : κ)
    (p : CallerPc) (hcaller : s'.caller = Function.update s.caller c p)
    (hhand : (s.caller c).hand = none) (hp : p.hand = none ∨ p.hand = some .claim)
    (hworker : ∀ w, (s'.worker w).hand = (s.worker w).hand)
    (hchunks : s'.chunks = s.chunks) (hnext : s'.next = s.next)
    (hremaining : s'.remaining = s.remaining) (htickets : s'.tickets = s.tickets)
    (hcount : s'.count = s.count) (hsub : s'.submitted = s.submitted)
    (hret : s'.returned = s.returned) (hjob : s'.job = s.job ∨ s'.job = none)
    (hawait : ∀ j, p = .await j ∨ p = .blocked j → s.chunks ≤ s.next)
    (hqueued : ∀ j, p = .lockCaller j ∨ p = .publish j → s.tickets j = [])
    (hleaving : ∀ j, p = .unlockCaller j → s.Complete j) : Account s' := by
  refine ha.frame hchunks hnext hremaining htickets hcount hsub hret hjob ?_ ?_
  · intro j done _ hf
    have hsame : s'.hand = Function.update s.hand (.inl c) p.hand := by
      rw [State.hand, hcaller, handOf_congr (fun _ => rfl) hworker, handOf_caller]
      rfl
    rw [hsame]
    rcases hp with hp | hp
    · rw [hp, ← hhand, show (s.caller c).hand = s.hand (.inl c) from rfl,
        Function.update_eq_self]
      exact hf
    · rw [hp]
      exact hf.enter hhand
  · intro c'
    rw [hcaller]
    by_cases hcc : c' = c
    · subst hcc
      rw [Function.update_self]
      exact .inr ⟨hawait, hqueued, hleaving⟩
    · exact .inl (Function.update_of_ne hcc ..)

/-- A worker's move that draws no ticket keeps the account, when it had no ticket in its hand. -/
theorem Account.move_worker [DecidableEq κ] {s s' : State κ n} (ha : Account s) (w : Fin n)
    (p : WorkerPc) (hworker : s'.worker = Function.update s.worker w p)
    (hhand : (s.worker w).hand = none) (hp : p.hand = none ∨ p.hand = some .claim)
    (hcaller : s'.caller = s.caller)
    (hchunks : s'.chunks = s.chunks) (hnext : s'.next = s.next)
    (hremaining : s'.remaining = s.remaining) (htickets : s'.tickets = s.tickets)
    (hcount : s'.count = s.count) (hsub : s'.submitted = s.submitted)
    (hret : s'.returned = s.returned) (hjob : s'.job = s.job) : Account s' := by
  refine ha.frame hchunks hnext hremaining htickets hcount hsub hret (.inl hjob) ?_
    (fun c => .inl (by rw [hcaller]))
  intro j done _ hf
  rw [State.hand, hcaller, hworker, handOf_worker]
  rcases hp with hp | hp
  · rw [hp, ← hhand, show (s.worker w).hand = handOf s.caller s.worker (.inr w) from rfl,
      Function.update_eq_self]
    exact hf
  · rw [hp]
    exact hf.enter hhand

/-- A call of `run` by an idle caller, which opens a new job, keeps the invariant. -/
theorem Inv.call [DecidableEq κ] {s : State κ n} (h : Inv s) {c : κ} (hc : s.caller c = .idle)
    (rows : ℕ) :
    Inv { s with
      submitted := s.submitted + 1
      count := Function.update s.count s.submitted rows
      caller := Function.update s.caller c (.lockCaller s.submitted) } where
  owned := h.owned.same (update_same (by rw [hc]; rfl)) (update_same (by rw [hc]; rfl))
  runs := h.runs.call rfl (by rw [hc]; rfl)
  crew := h.crew
  account := by
    have ha := h.account
    have hhand : State.hand { s with
        submitted := s.submitted + 1
        count := Function.update s.count s.submitted rows
        caller := Function.update s.caller c (.lockCaller s.submitted) } = s.hand :=
      handOf_congr (update_same (by rw [hc]; rfl)) fun _ => rfl
    have hback : ∀ {c' p}, Function.update s.caller c (.lockCaller s.submitted) c' = p →
        p ≠ .lockCaller s.submitted → s.caller c' = p := by
      intro c' p hc' hp
      by_cases hcc : c' = c
      · subst hcc
        rw [Function.update_self] at hc'
        exact absurd hc'.symm hp
      · rwa [Function.update_of_ne hcc] at hc'
    have hkept : ∀ j, j < s.submitted →
        Function.update s.count s.submitted rows j = s.count j := fun j hj =>
      Function.update_of_ne (Nat.ne_of_lt hj) ..
    constructor
    case chunks =>
      intro j hj
      simp only [hkept j (h.published hj).1]
      exact ha.chunks j hj
    case fair =>
      rw [hhand]
      exact ha.fair
    case drawn =>
      exact fun c' j hc' => ha.drawn c' j (hc'.imp (hback · (by simp)) (hback · (by simp)))
    case unborn => exact fun j hj => ha.unborn j (Nat.le_of_succ_le hj)
    case queued =>
      intro c' j hc'
      by_cases hj : j = s.submitted
      · exact ha.unborn j hj.ge
      · exact ha.queued c' j (hc'.imp (hback · (by simpa using hj)) (hback · (by simp)))
    case leaving =>
      intro c' j hc' k
      have hc'' : s.caller c' = .unlockCaller j := hback hc' (by simp)
      simp only [hkept j (h.runs.lt c' j (by rw [hc'']; rfl))]
      exact ha.leaving c' j hc'' k
    case complete =>
      intro j hj k
      simp only [hkept j (h.runs.returned_lt j hj)]
      exact ha.complete j hj k

/-- Publishing starts a fair dispenser: nobody holds a ticket of an earlier job. -/
theorem Inv.publish [DecidableEq κ] {s : State κ n} (h : Inv s) {c : κ} {j : ℕ}
    (hc : s.caller c = .publish j) :
    Inv { s with
      job := some j
      next := 0
      chunks := chunksOf (s.count j)
      remaining := chunksOf (s.count j)
      generation := s.generation + 1
      caller := Function.update s.caller c (.announce j) } := by
  have hlock : s.callerLock = some c := (h.owned.inside c).mp (by rw [hc]; rfl)
  have hjob : s.job = none := by rw [h.owned.pointer c hlock, hc]; rfl
  have hcrew := h.crew
  rw [hjob] at hcrew
  have hother : ∀ {c'}, c' ≠ c → (s.caller c').inside = false := by
    intro c' hcc
    rw [Bool.eq_false_iff]
    intro hin
    exact hcc (Option.some.inj (((h.owned.inside c').mp hin).symm.trans hlock))
  have hplace : ∀ {c' p}, Function.update s.caller c (.announce j) c' = p → p.inside = true →
      p = .announce j := by
    intro c' p hc' hp
    by_cases hcc : c' = c
    · subst hcc
      rw [← hc', Function.update_self]
    · rw [Function.update_of_ne hcc] at hc'
      rw [← hc', hother hcc] at hp
      cases hp
  refine ⟨h.owned.move hlock (.announce j) rfl, h.runs.same (update_same (by rw [hc]; rfl)),
    hcrew.change_job _ hcrew.none_active, ?_⟩
  have ha := h.account
  constructor
  case chunks =>
    rintro i ⟨⟩
    rfl
  case fair =>
    rintro i ⟨⟩
    refine ⟨∅, ?_⟩
    have hstart : State.view { s with
        job := some j
        next := 0
        chunks := chunksOf (s.count j)
        remaining := chunksOf (s.count j)
        generation := s.generation + 1
        caller := Function.update s.caller c (.announce j) } j =
        Counters.start (chunksOf (s.count j)) := by
      simp only [State.view, Counters.start, ha.queued c j (.inr hc)]
    rw [hstart]
    refine Fair.start _ ?_
    rintro (c' | w)
    · simp only [State.hand, handOf]
      cases hp : Function.update s.caller c (.announce j) c' with
      | drain i d => cases hplace hp rfl
      | _ => rfl
    · simp only [State.hand, handOf]
      cases hp : s.worker w with
      | drain i d => exact absurd (hcrew.drains w i d hp) (by simp)
      | _ => rfl
  case drawn =>
    rintro c' i (hc' | hc')
    · cases hplace hc' rfl
    · cases hplace hc' rfl
  case unborn => exact ha.unborn
  case queued =>
    rintro c' i (hc' | hc')
    · refine ha.queued c' i (.inl ?_)
      by_cases hcc : c' = c
      · subst hcc
        simp at hc'
      · simpa only [Function.update_of_ne hcc] using hc'
    · cases hplace hc' rfl
  case leaving =>
    intro c' i hc'
    cases hplace hc' rfl
  case complete => exact ha.complete

/-- The return of `run`, which gives the callers' lock back, keeps the invariant. -/
theorem Inv.unlockCaller [DecidableEq κ] {s : State κ n} (h : Inv s) {c : κ} {j : ℕ}
    (hc : s.caller c = .unlockCaller j) :
    Inv { s with
      callerLock := none
      returned := insert j s.returned
      caller := Function.update s.caller c .idle } := by
  have hlock : s.callerLock = some c := (h.owned.inside c).mp (by rw [hc]; rfl)
  have hjob : s.job = none := by rw [h.owned.pointer c hlock, hc]; rfl
  have howned := h.owned
  rw [hjob] at howned
  refine ⟨?_, h.runs.return_ (by rw [hc]; rfl), h.crew, ?_⟩
  · simp only [hjob]
    exact howned.release hlock rfl
  · have ha := h.account
    have hback : ∀ {c' p}, Function.update s.caller c .idle c' = p → p ≠ .idle →
        s.caller c' = p := by
      intro c' p hc' hp
      by_cases hcc : c' = c
      · subst hcc
        rw [Function.update_self] at hc'
        exact absurd hc'.symm hp
      · rwa [Function.update_of_ne hcc] at hc'
    constructor
    case chunks => exact ha.chunks
    case fair =>
      intro i hi
      rw [hjob] at hi
      cases hi
    case drawn =>
      exact fun c' i hc' => ha.drawn c' i (hc'.imp (hback · (by simp)) (hback · (by simp)))
    case unborn => exact ha.unborn
    case queued =>
      exact fun c' i hc' => ha.queued c' i (hc'.imp (hback · (by simp)) (hback · (by simp)))
    case leaving => exact fun c' i hc' => ha.leaving c' i (hback hc' (by simp))
    case complete =>
      intro i hi
      rcases Finset.mem_insert.mp hi with rfl | hi
      · exact ha.leaving c _ hc
      · exact ha.complete i hi

/-- A step of the `drain` that a caller runs itself keeps the invariant. -/
theorem Inv.callerDraw [DecidableEq κ] {s : State κ n} (h : Inv s) {c : κ} {j : ℕ} {d : Hand}
    (hc : s.caller c = .drain j d) :
    Inv { s.draw j d with
      caller := Function.update s.caller c (.resume j (drawStep s.chunks (s.view j) d).2) } := by
  have hjob : s.job = some j := (h.owned.job_eq (c := c) (by rw [hc]; rfl)).2
  constructor
  case owned =>
    exact h.owned.same (update_same (by rw [hc, CallerPc.inside_resume]; rfl))
      (update_same (by rw [hc, CallerPc.pointer_resume]; rfl))
  case runs => exact h.runs.same (update_same (by rw [hc, CallerPc.run_resume]; rfl))
  case crew => exact h.crew
  case account =>
    refine h.draw hjob (t := .inl c) (by simp only [State.hand, handOf, hc, CallerPc.hand]) ?_ ?_
    · simp only [State.hand, State.draw]
      rw [handOf_caller, CallerPc.hand_resume]
    · intro c'
      by_cases hcc : c' = c
      · subst hcc
        exact .inr (Function.update_self ..)
      · exact .inl (Function.update_of_ne hcc ..)

/-- A step of the `drain` that a worker runs keeps the invariant. -/
theorem Inv.workerDraw [DecidableEq κ] {s : State κ n} (h : Inv s) {w : Fin n} {j : ℕ} {d : Hand}
    (hw : s.worker w = .drain j d) :
    Inv { s.draw j d with
      worker := Function.update s.worker w (.resume j (drawStep s.chunks (s.view j) d).2) } := by
  have hjob : s.job = some j := h.crew.drains w j d hw
  constructor
  case owned => exact h.owned
  case runs => exact h.runs
  case crew =>
    refine h.crew.move (by rw [hw, WorkerPc.busy_resume]; rfl) fun i d' hi => ?_
    cases hnext : (drawStep s.chunks (s.view j) d).2 with
    | none =>
      rw [hnext] at hi
      cases hi
    | some d'' =>
      rw [hnext] at hi
      cases hi
      exact hjob
  case account =>
    refine h.draw hjob (t := .inr w) (by simp only [State.hand, handOf, hw, WorkerPc.hand]) ?_
      fun c => .inl rfl
    simp only [State.hand, State.draw]
    rw [handOf_worker, WorkerPc.hand_resume]

/-- **The step lemma**: every step of every thread keeps the invariant. -/
theorem Inv.step [DecidableEq κ] {s s' : State κ n} {a : Label κ n} (h : Inv s)
    (hst : Step s a s') :
    Inv s' := by
  cases hst with
  | call rows hc => exact h.call hc rows
  | @lockCaller c j hc hfree =>
    have howned := h.owned
    rw [hfree] at howned
    refine ⟨howned.acquire rfl rfl, h.runs.same (update_same (by rw [hc]; rfl)), h.crew, ?_⟩
    refine h.account.move_caller c (.publish j) rfl (by rw [hc]; rfl) (.inl rfl) (fun _ => rfl)
      rfl rfl rfl rfl rfl rfl rfl (.inl rfl) (by simp) ?_ (by simp)
    rintro i (hi | hi)
    · cases hi
    · cases hi
      exact h.account.queued c _ (.inl hc)
  | publish hc => exact h.publish hc
  | @announce c j hc =>
    refine ⟨h.owned.same (update_same (by rw [hc]; rfl)) (update_same (by rw [hc]; rfl)),
      h.runs.same (update_same (by rw [hc]; rfl)), h.crew.wakeAll, ?_⟩
    refine h.account.move_caller c (.drain j .claim) rfl (by rw [hc]; rfl) (.inr rfl) ?_
      rfl rfl rfl rfl rfl rfl rfl (.inl rfl) (by simp) (by simp) (by simp)
    intro w
    simp only [wakeAll]
    split
    next hw => rw [hw]; rfl
    next => rfl
  | callerDraw hc hnotify => exact (h.callerDraw hc).roused hnotify.roused
  | @pass c j hc hdone =>
    obtain ⟨hlock, hjob⟩ := h.owned.job_eq (c := c) (j := j) (by rw [hc]; rfl)
    refine ⟨h.owned.move hlock (.unlockCaller j) rfl, h.runs.same (update_same (by rw [hc]; rfl)),
      h.crew.change_job _ hdone.2, ?_⟩
    refine h.account.move_caller c (.unlockCaller j) rfl (by rw [hc]; rfl) (.inl rfl)
      (fun _ => rfl) rfl rfl rfl rfl rfl rfl rfl (.inr rfl) (by simp) (by simp) ?_
    rintro i ⟨⟩ k
    obtain ⟨done, hfair⟩ := h.account.fair j hjob
    rw [← h.account.chunks j hjob]
    exact hfair.served_once hdone.1 k
  | @block c j hc hdone =>
    refine ⟨h.owned.same (update_same (by rw [hc]; rfl)) (update_same (by rw [hc]; rfl)),
      h.runs.same (update_same (by rw [hc]; rfl)), h.crew, ?_⟩
    exact h.account.move_caller c (.blocked j) rfl (by rw [hc]; rfl) (.inl rfl) (fun _ => rfl)
      rfl rfl rfl rfl rfl rfl rfl (.inl rfl) (fun _ _ => h.account.drawn c j (.inl hc)) (by simp)
      (by simp)
  | unlockCaller hc => exact h.unlockCaller hc
  | @spuriousCaller c j hc =>
    refine h.roused fun c' => ?_
    by_cases hcc : c' = c
    · subst hcc
      exact .inr ⟨j, hc, Function.update_self ..⟩
    · exact .inl (Function.update_of_ne hcc ..)
  | @exit w hw hstop =>
    refine ⟨h.owned, h.runs, h.crew.move (by rw [hw]; rfl) (by simp), ?_⟩
    exact h.account.move_worker w .exited rfl (by rw [hw]; rfl) (.inl rfl) rfl rfl rfl rfl rfl rfl
      rfl rfl rfl
  | @take w j hw hstop hnew hjob =>
    have hcrew := h.crew
    rw [hjob] at hcrew
    refine ⟨h.owned, h.runs, ?_, ?_⟩
    · simp only [hjob]
      exact hcrew.enter (by rw [hw]; rfl) .claim
    · exact h.account.move_worker w (.drain j .claim) rfl (by rw [hw]; rfl) (.inr rfl) rfl rfl rfl
        rfl rfl rfl rfl rfl rfl
  | @skip w hw hstop hnew hjob =>
    exact ⟨h.owned, h.runs, h.crew, ⟨h.account.chunks, h.account.fair, h.account.drawn,
      h.account.unborn, h.account.queued, h.account.leaving, h.account.complete⟩⟩
  | @sleep w hw hstop hold =>
    refine ⟨h.owned, h.runs, h.crew.move (by rw [hw]; rfl) (by simp), ?_⟩
    exact h.account.move_worker w .asleep rfl (by rw [hw]; rfl) (.inl rfl) rfl rfl rfl rfl rfl rfl
      rfl rfl rfl
  | workerDraw hw hnotify => exact (h.workerDraw hw).roused hnotify.roused
  | @leave w caller' hw hnotify =>
    have hleft : Inv { s with
        active := s.active - 1
        worker := Function.update s.worker w .poll } :=
      ⟨h.owned, h.runs, h.crew.leave hw, h.account.move_worker w .poll rfl (by rw [hw]; rfl)
        (.inl rfl) rfl rfl rfl rfl rfl rfl rfl rfl rfl⟩
    exact hleft.roused hnotify.roused
  | @spuriousWorker w hw =>
    refine ⟨h.owned, h.runs, h.crew.move (by rw [hw]; rfl) (by simp), ?_⟩
    exact h.account.move_worker w .poll rfl (by rw [hw]; rfl) (.inl rfl) rfl rfl rfl rfl rfl rfl
      rfl rfl rfl

/-- The pool as it is before its first job satisfies the invariant. -/
theorem Inv.initial : Inv (State.initial : State κ n) where
  owned := ⟨by simp [State.initial, CallerPc.inside], by simp [State.initial],
    by simp [State.initial]⟩
  runs := by constructor <;> simp [State.initial, CallerPc.run]
  crew := ⟨by simp [State.initial], by simp [State.initial], by simp [State.initial]⟩
  account := by constructor <;> simp [State.initial]

/-- **The run lemma**: the invariant holds in every state that a run reaches. -/
theorem inv_reach [DecidableEq κ] {s : State κ n} (h : (machine κ n).Reach s) : Inv s := by
  refine Machine.Invariant.reach (I := Inv) ⟨?_, fun s a s' hi hst => hi.step hst⟩ h
  rintro s rfl
  exact Inv.initial

end Pool
end LuzServing

import LuzServing.RowStoreRuns
import LuzServing.Segments

/-!
# The cache of the row store, shared by threads

A fetch takes the set's lock to probe, lets go of it to read, and takes it again to fill. Any
number of threads do this at once, so two may miss on one id and both fill, each in the
place of another row. Whatever the order of their sections, a way holds a key of its own set
with the row of that key (`CacheOk`), so every fetch returns its row and no probe ever finds
another one, and the counters have counted every fetch that has its row (`cache_exact`).
-/

namespace LuzServing

/-! ## Counting -/

/-- When one place changes, the count of places that pass a test changes by what this place
contributes. -/
theorem countP_range_update {n i : ℕ} (hi : i < n) {p q : ℕ → Bool}
    (h : ∀ j, j ≠ i → q j = p j) :
    (List.range n).countP q + (p i).toNat = (List.range n).countP p + (q i).toNat := by
  induction n with
  | zero => exact absurd hi (Nat.not_lt_zero i)
  | succ n ih =>
    rw [List.range_succ, List.countP_append, List.countP_append, List.countP_singleton,
      List.countP_singleton]
    rcases Nat.lt_succ_iff_lt_or_eq.mp hi with hlt | rfl
    · rw [h n hlt.ne']
      have := ih hlt
      omega
    · have hsame : (List.range i).countP q = (List.range i).countP p :=
        List.countP_congr fun j hj => by rw [h j (List.mem_range.mp hj).ne]
      rw [hsame]
      cases p i <;> cases q i <;> simp

/-! ## How far a fetch is -/

/-- Whether the fetch of an id has returned. -/
def Phase.isDone : Phase → Bool
  | .done _ => true
  | _ => false

/-- The fetch has read its row, and counted the miss, and waits for the lock to fill. -/
def Phase.isHolding : Phase → Bool
  | .holding _ => true
  | _ => false

namespace Store

variable {ids : List ℤ} {s : Store} {phase : ℕ → Phase}

/-! ## The cache -/

/-- **The cache holds together**: an occupied way holds a key of its set, and the row of that
key; the cursor of a set is at one of its ways. -/
structure CacheOk (s : Store) : Prop where
  /-- a key is of its set -/
  key : ∀ set w id, set < s.sets → w < s.ways → s.keys (set * s.ways + w) = id + 1 →
    id % s.sets = set
  /-- beside it is its row -/
  row : ∀ set w id, set < s.sets → w < s.ways → s.keys (set * s.ways + w) = id + 1 →
    s.cache (set * s.ways + w) = s.table.row id
  /-- the cursor is at a way -/
  victim : ∀ set, set < s.sets → s.victim set < s.ways

/-- Filling a way of the id's set with its row keeps the cache. -/
theorem CacheOk.fill (hs : s.CacheOk) (id : ℕ) : (s.fill id (s.table.row id)).CacheOk := by
  by_cases hsets : s.sets = 0
  · rw [Store.fill, if_pos hsets]
    exact hs
  · have hset : s.set id = id % s.sets := if_neg hsets
    have hlt : id % s.sets < s.sets := Nat.mod_lt _ (Nat.pos_of_ne_zero hsets)
    have hw : s.victim (id % s.sets) % s.ways < s.ways := Nat.mod_lt _ s.ways_pos
    rw [Store.fill, if_neg hsets, hset]
    -- a way is the one that is filled, or holds what it held
    have hway : ∀ {set w}, w < s.ways →
        set * s.ways + w = id % s.sets * s.ways + s.victim (id % s.sets) % s.ways →
          set = id % s.sets := fun hw' heq => (mul_add_inj hw' hw heq).1
    refine ⟨fun set w id' hset' hw' hkey => ?_, fun set w id' hset' hw' hkey => ?_,
      fun set hset' => ?_⟩
    · simp only [Function.update_apply] at hkey
      split at hkey
      next heq =>
        obtain rfl := Nat.succ.inj hkey
        exact (hway hw' heq).symm
      next => exact hs.key set w id' hset' hw' hkey
    · simp only [Function.update_apply] at hkey ⊢
      split at hkey
      next heq =>
        obtain rfl := Nat.succ.inj hkey
        exact if_pos heq
      next heq =>
        rw [if_neg heq]
        exact hs.row set w id' hset' hw' hkey
    · simp only [Function.update_apply]
      split
      next => exact Nat.mod_lt _ s.ways_pos
      next => exact hs.victim set hset'

/-! ## The counters -/

/-- How many fetches of owned ids are in such a phase. -/
def fetches (ids : List ℤ) (s : Store) (phase : ℕ → Phase) (which : Phase → Bool) : ℕ :=
  (List.range ids.length).countP fun i => s.owns (ids.getD i 0) && which (phase i)

/-- When the thread of one index moves, the count changes by that index. -/
theorem fetches_update (s : Store) (phase : ℕ → Phase) (which : Phase → Bool) {i : ℕ} {id : ℤ}
    (hid : ids[i]? = some id) (p : Phase) :
    fetches ids s (Function.update phase i p) which + (s.owns id && which (phase i)).toNat =
      fetches ids s phase which + (s.owns id && which p).toNat := by
  obtain ⟨hi, hget⟩ := List.getElem?_eq_some_iff.mp hid
  have hgetD : ids.getD i 0 = id := by rw [List.getD_eq_getElem _ _ hi, hget]
  have hcount := countP_range_update hi
    (p := fun j => s.owns (ids.getD j 0) && which (phase j))
    (q := fun j => s.owns (ids.getD j 0) && which (Function.update phase i p j))
    fun j hj => by rw [Function.update_of_ne hj]
  rw [hgetD, Function.update_self] at hcount
  exact hcount

/-- A store that nothing was looked up in yet. -/
structure Unused (s : Store) : Prop where
  /-- all ways are free -/
  keys : ∀ slot, s.keys slot = 0
  /-- the cursors are at the first way -/
  victim : ∀ set, s.victim set = 0
  /-- no hit is counted -/
  hits : s.hits = 0
  /-- and no miss -/
  misses : s.misses = 0

/-- The fetch is under way: it has probed, and not returned. -/
def Phase.underWay : Phase → Bool
  | .missed => true
  | .holding _ => true
  | _ => false

/-- **The invariant of shared lookups**: threads hold what their phases say, the cache holds
together, and a fetch is counted once it has its row. -/
structure Shared (ids : List ℤ) (s₀ : Store) (st : Store × (ℕ → Phase)) : Prop where
  /-- a lookup in progress -/
  serving : Serving ids s₀ st
  /-- the cache -/
  cache : st.1.CacheOk
  /-- only owned ids are fetched -/
  owned : ∀ i id, ids[i]? = some id → Phase.underWay (st.2 i) = true → s₀.owns id = true
  /-- the counters -/
  count : st.1.hits + st.1.misses =
    fetches ids s₀ st.2 Phase.isDone + fetches ids s₀ st.2 Phase.isHolding

/-- Two stores with the same range own the same ids. -/
theorem SameRange.owns {s s' : Store} (h : s.SameRange s') (id : ℤ) : s'.owns id = s.owns id := by
  rw [Store.owns, Store.owns, h.rowLo, h.rowHi]

/-- When a thread moves on, the ids that are under way are still ids that the store owns. -/
theorem owned_update {s₀ : Store}
    (h : ∀ i id, ids[i]? = some id → Phase.underWay (phase i) = true → s₀.owns id = true)
    {i : ℕ} {id : ℤ} (hid : ids[i]? = some id) {p : Phase}
    (hp : Phase.underWay p = true → s₀.owns id = true) :
    ∀ j id, ids[j]? = some id → Phase.underWay (Function.update phase i p j) = true →
      s₀.owns id = true := by
  intro j id' hid' hunder
  by_cases hj : j = i
  · subst hj
    obtain rfl := Option.some.inj (hid.symm.trans hid')
    rw [Function.update_self] at hunder
    exact hp hunder
  · rw [Function.update_of_ne hj] at hunder
    exact h j id' hid' hunder

/-- The fetches that are counted, when the thread of an owned id moves. -/
theorem counted_update (phase : ℕ → Phase) {i : ℕ} {id : ℤ} (hid : ids[i]? = some id)
    (hown : s.owns id = true) (p : Phase) :
    fetches ids s (Function.update phase i p) Phase.isDone +
        fetches ids s (Function.update phase i p) Phase.isHolding +
        ((phase i).isDone.toNat + (phase i).isHolding.toNat) =
      fetches ids s phase Phase.isDone + fetches ids s phase Phase.isHolding +
        (p.isDone.toNat + p.isHolding.toNat) := by
  have hdone := fetches_update s phase Phase.isDone hid p
  have hhold := fetches_update s phase Phase.isHolding hid p
  rw [hown, Bool.true_and, Bool.true_and] at hdone hhold
  omega

/-- The thread of an id that is not owned is not counted. -/
theorem counted_update_of_not_owned {i : ℕ} {id : ℤ} (hid : ids[i]? = some id)
    (hown : s.owns id = false) (which : Phase → Bool) (p : Phase) :
    fetches ids s (Function.update phase i p) which = fetches ids s phase which := by
  have hmove := fetches_update s phase which hid p
  rwa [hown, Bool.false_and, Bool.false_and, Bool.toNat_false, Nat.add_zero, Nat.add_zero] at hmove

/-- **One section keeps it**, whichever thread moves and whatever its read returns. -/
theorem Shared.step {s₀ : Store} {st st' : Store × (ℕ → Phase)} (h : Shared ids s₀ st)
    {a : ℕ × List Pread} (hstep : serveStep ids st a = some st') : Shared ids s₀ st' := by
  obtain ⟨s, phase⟩ := st
  obtain ⟨i, os⟩ := a
  have hserving := h.serving.step hstep
  have howns := h.serving.same.owns
  have hphase := h.serving.phase i
  have htable : s.table = s₀.table := h.serving.same.table
  obtain ⟨-, hcache, howned, hcount⟩ := h
  dsimp only at hcache howned hcount howns hphase
  cases serveStep_section hstep with
  | idle => exact ⟨hserving, hcache, howned, hcount⟩
  | @zero id hid hph hown =>
    rw [howns] at hown
    refine ⟨hserving, hcache, owned_update howned hid fun h => ?_, ?_⟩
    · cases h
    · rw [counted_update_of_not_owned hid hown, counted_update_of_not_owned hid hown]
      exact hcount
  | @hit id row hid hph hown hprobe =>
    rw [howns] at hown
    have hmove := counted_update phase hid hown (.done (splitRow row))
    refine ⟨hserving, ⟨hcache.key, hcache.row, hcache.victim⟩,
      owned_update howned hid fun _ => hown, ?_⟩
    simp only [hph, Phase.isDone, Phase.isHolding, Bool.toNat_true, Bool.toNat_false] at hmove
    dsimp only [countHit]
    omega
  | @miss id hid hph hown hprobe =>
    rw [howns] at hown
    have hmove := counted_update phase hid hown .missed
    refine ⟨hserving, hcache, owned_update howned hid fun _ => hown, ?_⟩
    simp only [hph, Phase.isDone, Phase.isHolding, Bool.toNat_false] at hmove
    dsimp only
    omega
  | @read id row n _ hid hph hread =>
    have hown := howned i id hid (by rw [hph]; rfl)
    have hmove := counted_update phase hid hown (.holding row)
    refine ⟨hserving, ⟨hcache.key, hcache.row, hcache.victim⟩,
      owned_update howned hid fun _ => hown, ?_⟩
    simp only [hph, Phase.isDone, Phase.isHolding, Bool.toNat_true, Bool.toNat_false] at hmove
    dsimp only [countMiss]
    omega
  | @fill id row hid hph =>
    have hown := howned i id hid (by rw [hph]; rfl)
    have hmove := counted_update phase hid hown (.done (splitRow row))
    -- the row that is held is the id's
    have hrow := hphase id hid
    rw [hph] at hrow
    obtain ⟨-, rfl⟩ := hrow
    refine ⟨hserving, ?_, owned_update howned hid fun _ => hown, ?_⟩
    · rw [← htable]
      exact hcache.fill _
    · have hcounters : (s.fill id.toNat (s₀.table.row id.toNat)).hits = s.hits ∧
          (s.fill id.toNat (s₀.table.row id.toNat)).misses = s.misses := by
        rw [Store.fill]
        split
        next => exact ⟨rfl, rfl⟩
        next => exact ⟨rfl, rfl⟩
      simp only [hph, Phase.isDone, Phase.isHolding, Bool.toNat_true, Bool.toNat_false] at hmove
      dsimp only
      rw [hcounters.1, hcounters.2]
      omega

/-- A whole schedule of sections keeps it, by induction on the schedule. -/
theorem Shared.sched {s₀ : Store} {st st' : Store × (ℕ → Phase)} {sched : List (ℕ × List Pread)}
    (h : Shared ids s₀ st) (hrun : serveSched ids st sched = some st') : Shared ids s₀ st' :=
  serveSched_keeps (fun h hstep => h.step hstep) h hrun

/-- Before the first section no thread has taken up an id, so it holds. -/
theorem Shared.start {s₀ : Store} (hs : s₀.Sound) (hunused : s₀.Unused) (ids : List ℤ) :
    Shared ids s₀ (s₀, fun _ => .todo) where
  serving := .start hs ids
  cache := by
    refine ⟨fun set w id _ _ hkey => ?_, fun set w id _ _ hkey => ?_, fun set _ => ?_⟩
    · rw [hunused.keys] at hkey
      cases hkey
    · rw [hunused.keys] at hkey
      cases hkey
    · rw [hunused.victim]
      exact s₀.ways_pos
  owned := fun _ _ _ h => by cases h
  count := by
    simp [fetches, hunused.hits, hunused.misses, Phase.isDone, Phase.isHolding]

end Store

/-- **Shared lookups are exact, and their cache holds together**, in every state that any
interleaving of the sections of any threads reaches. -/
theorem cache_exact {s₀ : Store} (hs : s₀.Sound) (hunused : s₀.Unused) {ids : List ℤ}
    {sched : List (ℕ × List Pread)} {s : Store} {phase : ℕ → Phase}
    (hrun : Store.serveSched ids (s₀, fun _ => .todo) sched = some (s, phase)) :
    -- every owned fetch that has returned has returned its row
    (∀ i id out, ids[i]? = some id → s₀.owns id = true → phase i = .done out →
      out = splitRow (s₀.table.row id.toNat)) ∧
    -- a way of a set holds a key of the set with its row, and the cursor is at a way
    s.table = s₀.table ∧ s.CacheOk ∧
    -- a probe finds the row of its id, whoever filled it in and how often
    (∀ id row, s.probe id = some row → row = s₀.table.row id ∧ row.length = kRowBytes) ∧
    -- the counters count the fetches that have their row: those that have returned, and
    -- those that wait for the lock to fill; where none waits, those that have returned
    s.hits + s.misses =
      Store.fetches ids s₀ phase Phase.isDone + Store.fetches ids s₀ phase Phase.isHolding ∧
    ((∀ i, (phase i).isHolding = false) →
      s.hits + s.misses = Store.fetches ids s₀ phase Phase.isDone) := by
  have hshared := (Store.Shared.start hs hunused ids).sched hrun
  have htable : s.table = s₀.table := hshared.serving.same.table
  refine ⟨fun i id out hid hown hdone => ?_, htable, hshared.cache, fun id row hprobe => ?_,
    hshared.count, fun hnone => ?_⟩
  · have hout := hshared.serving.phase i id hid
    dsimp only at hout
    rw [hdone] at hout
    simp only [Store.owns, Bool.and_eq_true, decide_eq_true_eq] at hown
    rw [Store.splitRow_row, ← Store.expected_of_owned hown.1.2 hown.2]
    exact hout
  · have hrow := hshared.serving.sound.probe hprobe
    dsimp only at hrow
    rw [htable] at hrow
    refine ⟨hrow, ?_⟩
    rw [hrow, Table.row, List.length_append, Table.length_weight]
    exact congrArg (kWeightBytes + ·) (File.length_slice ..)
  · have hzero : Store.fetches ids s₀ phase Phase.isHolding = 0 := by
      rw [Store.fetches, List.countP_eq_zero]
      intro i _
      rw [hnone i, Bool.and_false]
      exact Bool.false_ne_true
    have hcount := hshared.count
    rw [hzero, Nat.add_zero] at hcount
    exact hcount

/-- A store with free ways and nothing kept beside the table is sound. -/
theorem oneWay_sound : oneWay.Sound :=
  ⟨fun _ _ hkey => absurd hkey (by simp [oneWay]), fun _ h => (by cases h), fun _ h => by cases h⟩

/-- The counters do not always agree with the fetches that have returned: a miss is counted
once its row is read, and the fetch returns after it has taken the lock again to fill. -/
theorem not_cache_count : ¬∀ (s₀ : Store), s₀.Sound → s₀.Unused →
    ∀ (ids : List ℤ) (sched : List (ℕ × List Pread)) (s : Store) (phase : ℕ → Phase),
      Store.serveSched ids (s₀, fun _ => .todo) sched = some (s, phase) →
        s.hits + s.misses = Store.fetches ids s₀ phase Phase.isDone := by
  intro hall
  -- one thread has probed and read, and waits for the lock
  have hrun : ((Store.serveSched [1] (oneWay, fun _ => .todo) [(0, []), (0, [])]).map fun r =>
      (r.1.hits + r.1.misses, Store.fetches [1] oneWay r.2 Phase.isDone)) = some (1, 0) := by
    decide +kernel
  obtain ⟨⟨s, phase⟩, hsched, hcounts⟩ := Option.map_eq_some_iff.mp hrun
  obtain ⟨hcount, hdone⟩ := Prod.mk.inj hcounts
  have heq := hall oneWay oneWay_sound ⟨fun _ => rfl, fun _ => rfl, rfl, rfl⟩ _ _ s phase hsched
  dsimp only at hcount hdone
  omega

/-- Two threads miss on row 1, one on row 0; all three fill the one way in turn, and a fourth
finds what the last has left. -/
theorem cache_exact_oneWay : ∃ s phase,
    Store.serveSched [1, 1, 0, 0] (oneWay, fun _ => .todo)
      (([0, 1, 2, 0, 1, 2, 0, 1, 2, 3] : List ℕ).map fun i => (i, [])) = some (s, phase) ∧
    s.hits + s.misses = 4 ∧ ∀ row, s.probe 0 = some row → row = twoRowTable.row 0 := by
  have hrun : ((Store.serveSched [1, 1, 0, 0] (oneWay, fun _ => .todo)
      (([0, 1, 2, 0, 1, 2, 0, 1, 2, 3] : List ℕ).map fun i => (i, []))).map fun r =>
        (r.1.hits, r.1.misses)) = some (1, 3) := by decide +kernel
  obtain ⟨⟨s, phase⟩, hsched, hcounts⟩ := Option.map_eq_some_iff.mp hrun
  obtain ⟨hhits, hmisses⟩ := Prod.mk.inj hcounts
  obtain ⟨-, -, -, hprobe, -⟩ :=
    cache_exact oneWay_sound ⟨fun _ => rfl, fun _ => rfl, rfl, rfl⟩ hsched
  refine ⟨s, phase, hsched, ?_, fun row hrow => (hprobe 0 row hrow).1⟩
  dsimp only at hhits hmisses
  omega

end LuzServing

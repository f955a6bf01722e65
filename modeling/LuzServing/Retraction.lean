import Mathlib.Data.List.Perm.Basic
import Mathlib.Data.Prod.Lex
import Mathlib.Tactic

/-!
# Retracting decode requests

When the next decode step does not fit in the KV pool, `retract_decode` gives up requests until
it does: the least preferred first, one at least, and the last one too when it does not fit alone.
The allocator and the release of a request are the pool's; whatever they do, a request of the batch
is kept, retracted or aborted, what is not kept is released once, and what is kept has passed the
allocator's check after the last release (`retract_decode_spec`).
-/

namespace LuzServing

universe u

/-! ## The order of preference -/

/-- What the retraction reads of a request. -/
structure RetractReq : Type where
  /-- `len(output_ids)` -/
  outputLen : ℕ
  /-- `len(origin_input_ids)` -/
  originLen : ℕ
  /-- `priority` -/
  priority : Option ℤ
  /-- it leads a beam group -/
  isBeam : Bool
  /-- `kv.kv_committed_len` -/
  kvCommittedLen : ℕ
  /-- `kv.kv_allocated_len` -/
  kvAllocatedLen : ℕ

/-- The scheduler's settings. -/
structure RetractConfig : Type where
  /-- `retraction_policy == "priority"` -/
  byPriority : Bool
  /-- `schedule_low_priority_values_first` -/
  lowFirst : Bool
  /-- `spec_algorithm.is_none()` -/
  specNone : Bool
  /-- `page_size` -/
  pageSize : ℕ
  /-- `get_alloc_reserve_per_decode()` -/
  reserve : ℕ

/-- `sys.maxsize` -/
def sysMaxsize : ℤ := 9223372036854775807

/-- `length_key`: more output is preferred, then a shorter prompt. -/
def RetractReq.lengthKey (r : RetractReq) : ℤ ×ₗ ℤ := toLex (r.outputLen, -r.originLen)

/-- `retraction_key`: the priority before the length. -/
def RetractReq.retractionKey (cfg : RetractConfig) (r : RetractReq) : ℤ ×ₗ ℤ ×ₗ ℤ :=
  let prioritySign : ℤ := if cfg.lowFirst then 1 else -1
  let priority := r.priority.getD (if cfg.lowFirst then sysMaxsize else -sysMaxsize - 1)
  toLex (priority * -prioritySign, r.lengthKey)

/-- Whether a request is preferred to another, or as much. -/
def RetractReq.Preferred (cfg : RetractConfig) (r r' : RetractReq) : Prop :=
  if cfg.byPriority then r'.retractionKey cfg ≤ r.retractionKey cfg
  else r'.lengthKey ≤ r.lengthKey

instance (cfg : RetractConfig) (r r' : RetractReq) : Decidable (r.Preferred cfg r') := by
  unfold RetractReq.Preferred
  exact inferInstance

/-- `_get_decode_retraction_order`: from the most to the least preferred. -/
def decodeRetractionOrder (cfg : RetractConfig) (reqs : ℕ → RetractReq) (n : ℕ) : List ℕ :=
  (List.range n).mergeSort fun i j => decide ((reqs i).Preferred cfg (reqs j))

/-! ## The loop -/

/-- The pool, and the operations of other modules on it. -/
structure RetractPool (σ : Type u) : Type u where
  /-- `check_decode_capacity`, which may evict cached prefixes -/
  checkDecodeCapacity : σ → ℕ → σ × Bool
  /-- `release_req`, with how many requests remain and whether the KV is backed up; `false` where
  the backup has failed -/
  releaseReq : σ → ℕ → ℕ → Bool → σ × Bool
  /-- `free_member_rows` of a beam group -/
  freeMemberRows : σ → ℕ → σ
  /-- `num_beam_member_rows` -/
  numBeamMemberRows : List ℕ → ℕ
  /-- `beam_retraction_order` -/
  beamRetractionOrder : List ℕ → List ℕ
  /-- `ceil_align` -/
  ceilAlign : ℕ → ℕ → ℕ
  /-- it goes up to the next multiple -/
  ceilAlign_isLeast : ∀ n page, 0 < page → IsLeast {m | n ≤ m ∧ page ∣ m} (ceilAlign n page)

/-- What has been done so far. -/
structure Retracting (σ : Type u) : Type u where
  /-- the pool -/
  world : σ
  /-- `retracted_reqs` -/
  retracted : List ℕ
  /-- `reqs_to_abort`, each with the message of its `FINISH_ABORT`; the status is 500 -/
  toAbort : List (ℕ × String)
  /-- the calls of `release_req`: the request, how many remain, and whether to back up -/
  calls : List (ℕ × ℕ × Bool)

section

variable {σ : Type u} (cfg : RetractConfig) (pool : RetractPool σ) (reqs : ℕ → RetractReq)

/-- `_new_tokens_required_next_decode_spec_v2`: the tokens up to the end of the page. -/
def newTokensRequiredNextDecodeSpecV2 (selected : List ℕ) : ℕ :=
  (selected.map fun i =>
    let x := (reqs i).kvCommittedLen + cfg.reserve - (reqs i).kvAllocatedLen
    let cur := (reqs i).kvAllocatedLen
    pool.ceilAlign (cur + x) cfg.pageSize - pool.ceilAlign cur cfg.pageSize).sum

/-- `new_tokens_required_next_decode`: whole pages for the requests. -/
def newTokensRequiredNextDecode (selected : List ℕ) : ℕ :=
  if cfg.specNone then
    (selected.countP fun i => decide ((reqs i).kvCommittedLen % cfg.pageSize = 0)) * cfg.pageSize +
      pool.numBeamMemberRows selected
  else newTokensRequiredNextDecodeSpecV2 cfg pool reqs selected

/-- `check_decode_mem` for the requests that are kept so far. -/
def checkDecodeMem (world : σ) (selected : List ℕ) : σ × Bool :=
  pool.checkDecodeCapacity world
    (newTokensRequiredNextDecode cfg pool reqs selected)

/-- Call `release_req`. -/
def Retracting.release (a : Retracting σ) (idx remaining : ℕ) (offload : Bool) :
    Retracting σ × Bool :=
  let (world, saved) := pool.releaseReq a.world idx remaining offload
  ({ a with world := world, calls := a.calls ++ [(idx, remaining, offload)] }, saved)

/-- The body of the loop: a beam group is aborted; another request is retracted, or aborted where
its backup has failed. -/
def Retracting.pop (a : Retracting σ) (idx remaining : ℕ) : Retracting σ :=
  if (reqs idx).isBeam then
    let a := { a with
      toAbort := a.toAbort ++ [(idx, "Beam search group aborted: KV cache pool is full. Beam " ++
        "groups cannot be retracted, so they are aborted instead of being requeued.")]
      world := pool.freeMemberRows a.world idx }
    (a.release pool idx remaining false).1
  else
    let (a, saved) := a.release pool idx remaining true
    if saved then { a with retracted := a.retracted ++ [idx] }
    else { a with toAbort := a.toAbort ++
      [(idx, "Retraction host KV pool exhausted. Aborting the request.")] }

/-- The loop, over the indices from the least preferred; `none` where there is nothing to pop.
Before the first pop the memory is not checked. -/
def retractLoop : Bool → Retracting σ → List ℕ → Option (Retracting σ × List ℕ)
  | first, a, idx :: idx' :: rest =>
    if first then retractLoop false (a.pop pool reqs idx (rest.length + 1)) (idx' :: rest)
    else
      let (world, fits) := checkDecodeMem cfg pool reqs a.world (idx :: idx' :: rest).reverse
      if fits then some ({ a with world := world }, idx :: idx' :: rest)
      else retractLoop false ({ a with world := world }.pop pool reqs idx (rest.length + 1))
        (idx' :: rest)
  | first, a, [idx] =>
    if first then some (a, [idx])
    else some ({ a with world := (checkDecodeMem cfg pool reqs a.world [idx]).1 }, [idx])
  | first, a, [] =>
    if first then none
    else
      let (world, fits) := checkDecodeMem cfg pool reqs a.world []
      if fits then some ({ a with world := world }, []) else none

/-- The last request is aborted where it does not fit alone. -/
def retractLast (a : Retracting σ) (kept : List ℕ) : Option (Retracting σ × List ℕ) :=
  if kept.length ≤ 1 then
    let (world, fits) := checkDecodeMem cfg pool reqs a.world kept.reverse
    if fits then some ({ a with world := world }, kept)
    else match kept with
      | [] => none
      | idx :: kept =>
        let a := { a with
          toAbort := a.toAbort ++ [(idx, "Out of memory even after retracting all other " ++
            "requests in the decode batch. Aborting the last request.")]
          world := if (reqs idx).isBeam then pool.freeMemberRows world idx else world }
        some ((a.release pool idx 0 false).1, kept)
  else some (a, kept)

/-- `retract_decode`: what has been done, and the indices that are kept, from the most preferred. -/
def retractDecode (world : σ) (n : ℕ) : Option (Retracting σ × List ℕ) := do
  let order := pool.beamRetractionOrder (decodeRetractionOrder cfg reqs n)
  let (a, kept) ← retractLoop cfg pool reqs true ⟨world, [], [], []⟩ order.reverse
  let (a, kept) ← retractLast cfg pool reqs a kept
  pure (a, kept.reverse)

/-! ## What a check asks for -/

section
variable {cfg : RetractConfig} {pool : RetractPool σ} {reqs : ℕ → RetractReq}

/-- With the second version of speculation a check asks for whole pages. -/
theorem dvd_newTokensRequiredNextDecodeSpecV2 (hpage : 0 < cfg.pageSize) (selected : List ℕ) :
    cfg.pageSize ∣ newTokensRequiredNextDecodeSpecV2 cfg pool reqs selected := by
  refine List.dvd_sum fun n hn => ?_
  obtain ⟨i, -, rfl⟩ := List.mem_map.mp hn
  exact Nat.dvd_sub (pool.ceilAlign_isLeast _ _ hpage).1.2 (pool.ceilAlign_isLeast _ _ hpage).1.2

/-- What it asks for is enough: together with the whole pages that the requests have, there is room
for all tokens that each of them reserves. -/
theorem le_newTokensRequiredNextDecodeSpecV2 (hpage : 0 < cfg.pageSize) (selected : List ℕ) :
    (selected.map fun i => (reqs i).kvCommittedLen + cfg.reserve).sum ≤
      (selected.map fun i => pool.ceilAlign (reqs i).kvAllocatedLen cfg.pageSize).sum +
        newTokensRequiredNextDecodeSpecV2 cfg pool reqs selected := by
  rw [newTokensRequiredNextDecodeSpecV2, ← List.sum_map_add]
  refine List.sum_le_sum fun i _ => ?_
  have hmore := pool.ceilAlign_isLeast ((reqs i).kvAllocatedLen +
    ((reqs i).kvCommittedLen + cfg.reserve - (reqs i).kvAllocatedLen)) cfg.pageSize hpage
  have hless := (pool.ceilAlign_isLeast (reqs i).kvAllocatedLen cfg.pageSize hpage).2
    ⟨(Nat.le_add_right _ _).trans hmore.1.1, hmore.1.2⟩
  have hroom := hmore.1.1
  dsimp only
  omega

end

/-! ## What a retraction does -/

/-- Between two points of a retraction some requests have been given up, `total` before. -/
structure GivenUp (a a' : Retracting σ) (total : ℕ) (popped : List ℕ) : Prop where
  /-- each is released, once, with as many as remain -/
  calls : ∃ calls, a'.calls = a.calls ++ calls ∧ calls.map Prod.fst = popped ∧
    calls.map (fun c => c.2.1) = (List.range total).reverse.take popped.length
  /-- each is retracted or aborted, and a beam group is aborted -/
  either : ∃ retracted aborted, a'.retracted = a.retracted ++ retracted ∧
    a'.toAbort = a.toAbort ++ aborted ∧ (retracted ++ aborted.map Prod.fst).Perm popped ∧
    ∀ i ∈ retracted, (reqs i).isBeam = false

variable {cfg pool reqs} {a a' : Retracting σ} {popped popped' kept : List ℕ} {total : ℕ}

theorem GivenUp.nil (world : σ) : GivenUp reqs a { a with world := world } total [] := by
  refine ⟨⟨[], (List.append_nil _).symm, rfl, rfl⟩, [], [], (List.append_nil _).symm,
    (List.append_nil _).symm, .nil, fun i hi => ?_⟩
  cases hi

/-- Giving up some requests and then some more of the rest is giving up all of them. -/
theorem GivenUp.append {a₁ : Retracting σ} (h : GivenUp reqs a a₁ total popped)
    (h' : GivenUp reqs a₁ a' (total - popped.length) popped') :
    GivenUp reqs a a' total (popped ++ popped') := by
  obtain ⟨⟨calls, hcalls, hmap, hremaining⟩, ret, ab, hret, hab, hperm, hbeam⟩ := h
  obtain ⟨⟨calls', hcalls', hmap', hremaining'⟩, ret', ab', hret', hab', hperm', hbeam'⟩ := h'
  refine ⟨⟨calls ++ calls', ?_, ?_, ?_⟩, ret ++ ret', ab ++ ab', ?_, ?_, ?_, ?_⟩
  · rw [hcalls', hcalls, List.append_assoc]
  · rw [List.map_append, hmap, hmap']
  · have hsplit : (List.range total).reverse.drop popped.length =
        (List.range (total - popped.length)).reverse := by
      rw [List.drop_reverse, List.length_range, List.take_range, min_eq_left (Nat.sub_le _ _)]
    rw [List.map_append, hremaining, hremaining', ← hsplit, List.length_append, List.take_add]
  · rw [hret', hret, List.append_assoc]
  · rw [hab', hab, List.append_assoc]
  · rw [List.map_append]
    refine List.Perm.trans (List.perm_iff_count.mpr fun i => ?_) (hperm.append hperm')
    simp only [List.count_append]
    omega
  · intro i hi
    rcases List.mem_append.mp hi with hi | hi
    · exact hbeam i hi
    · exact hbeam' i hi

/-- Calling `release_req` gives a request up, where it is then retracted or aborted. -/
theorem GivenUp.of_release {idx remaining : ℕ} {offload : Bool}
    (hcalls : a'.calls = a.calls ++ [(idx, remaining, offload)])
    (heither : a'.retracted = a.retracted ∧ (∃ m, a'.toAbort = a.toAbort ++ [(idx, m)]) ∨
      a'.retracted = a.retracted ++ [idx] ∧ a'.toAbort = a.toAbort ∧ (reqs idx).isBeam = false) :
    GivenUp reqs a a' (remaining + 1) [idx] := by
  refine ⟨⟨[(idx, remaining, offload)], hcalls, rfl, ?_⟩, ?_⟩
  · rw [List.range_succ, List.reverse_append, List.reverse_singleton]
    rfl
  · rcases heither with ⟨hret, m, hab⟩ | ⟨hret, hab, hbeam⟩
    · refine ⟨[], [(idx, m)], by rw [hret, List.append_nil], hab, .refl _, fun i hi => ?_⟩
      cases hi
    · refine ⟨[idx], [], hret, by rw [hab, List.append_nil], .refl _, fun i hi => ?_⟩
      rw [List.mem_singleton.mp hi]
      exact hbeam

/-- The body of the loop gives up exactly one request, the last one of the order. -/
theorem pop_givenUp (idx remaining : ℕ) :
    GivenUp reqs a (a.pop pool reqs idx remaining) (remaining + 1) [idx] := by
  rw [Retracting.pop]
  cases hbeam : (reqs idx).isBeam with
  | true =>
    rw [if_pos rfl]
    exact .of_release rfl (.inl ⟨rfl, _, rfl⟩)
  | false =>
    rw [if_neg Bool.false_ne_true]
    dsimp only [Retracting.release]
    split
    · exact .of_release rfl (.inr ⟨rfl, rfl, hbeam⟩)
    · exact .of_release rfl (.inl ⟨rfl, _, rfl⟩)

/-- What the loop does: it gives up the first of the list, one at least of two, and what is left
is one request or has passed the check after the last release. -/
structure LoopDone (cfg : RetractConfig) (pool : RetractPool σ) (reqs : ℕ → RetractReq)
    (first : Bool) (a a' : Retracting σ) (rev kept popped : List ℕ) : Prop where
  /-- what is left is the rest of the list -/
  split : rev = popped ++ kept
  /-- the others are given up -/
  givenUp : GivenUp reqs a a' rev.length popped
  /-- one is left -/
  nonempty : kept ≠ []
  /-- the first round gives one up -/
  progress : first = true → 2 ≤ rev.length → popped ≠ []
  /-- what is left fits -/
  fits : kept.length ≤ 1 ∨
    ∃ world, checkDecodeMem cfg pool reqs world kept.reverse = (a'.world, true)

variable (cfg pool reqs) in
/-- The loop gives up requests from the end of the order until the rest fits or one is left. -/
theorem retractLoop_done (first : Bool) (a : Retracting σ) {rev : List ℕ} (hne : rev ≠ []) :
    ∃ a' kept popped, retractLoop cfg pool reqs first a rev = some (a', kept) ∧
      LoopDone cfg pool reqs first a a' rev kept popped := by
  induction rev generalizing first a with
  | nil => exact absurd rfl hne
  | cons idx rev ih =>
    cases rev with
    | nil =>
      have hshort : first = true → 2 ≤ [idx].length → ([] : List ℕ) ≠ [] := fun _ h =>
        absurd h (by rw [List.length_singleton]; omega)
      cases first with
      | true =>
        exact ⟨a, [idx], [], rfl, rfl, .nil a.world, List.cons_ne_nil _ _, hshort, .inl le_rfl⟩
      | false =>
        exact ⟨_, [idx], [], rfl, rfl, .nil _, List.cons_ne_nil _ _, hshort, .inl le_rfl⟩
    | cons idx' rest =>
      -- one more is given up, and the loop goes on
      have hpop : ∀ a₁ : Retracting σ, (∃ world, a₁ = { a with world := world }) →
          ∃ a' kept popped, retractLoop cfg pool reqs false
              (a₁.pop pool reqs idx (rest.length + 1)) (idx' :: rest) = some (a', kept) ∧
            LoopDone cfg pool reqs first a a' (idx :: idx' :: rest) kept popped := by
        rintro a₁ ⟨world, rfl⟩
        obtain ⟨a', kept, popped, hrun, hdone⟩ := ih false
          ({ a with world := world }.pop pool reqs idx (rest.length + 1)) (List.cons_ne_nil _ _)
        refine ⟨a', kept, idx :: popped, hrun, ?_, ?_, hdone.nonempty, fun _ _ =>
          List.cons_ne_nil _ _, hdone.fits⟩
        · rw [hdone.split, List.cons_append]
        · have hworld : GivenUp reqs a { a with world := world } (rest.length + 1 + 1) [] :=
            .nil world
          exact (hworld.append (pop_givenUp idx (rest.length + 1))).append hdone.givenUp
      cases first with
      | true => exact hpop a ⟨a.world, rfl⟩
      | false =>
        rw [retractLoop, if_neg Bool.false_ne_true]
        dsimp only
        cases hcheck : (checkDecodeMem cfg pool reqs a.world (idx :: idx' :: rest).reverse).2 with
        | true =>
          rw [if_pos rfl]
          refine ⟨_, _, [], rfl, rfl, .nil _, List.cons_ne_nil _ _,
            fun h => absurd h Bool.false_ne_true, .inr ⟨a.world, ?_⟩⟩
          rw [← hcheck]
        | false =>
          rw [if_neg Bool.false_ne_true]
          exact hpop _ ⟨_, rfl⟩

/-- What a retraction does to a batch of `n` requests. -/
structure RetractDone (cfg : RetractConfig) (pool : RetractPool σ) (reqs : ℕ → RetractReq)
    (world : σ) (n : ℕ) (a : Retracting σ) (kept popped : List ℕ) : Prop where
  /-- every request is kept or given up -/
  all : (kept ++ popped).Perm (List.range n)
  /-- those that are given up are released once, and either retracted or aborted -/
  givenUp : GivenUp reqs ⟨world, [], [], []⟩ a n popped
  /-- those that are kept are preferred, where beam groups do not change the order -/
  preferred : (∀ l, pool.beamRetractionOrder l = l) → ∀ i ∈ kept, ∀ j ∈ popped,
    (reqs i).Preferred cfg (reqs j)
  /-- where there are two requests one is given up -/
  progress : 2 ≤ n → popped ≠ []
  /-- what is kept has passed the check, and nothing has been released since -/
  fits : kept = [] ∨ ∃ world, checkDecodeMem cfg pool reqs world kept = (a.world, true)

/-- The last request is kept when it fits alone, and otherwise it is given up as well. -/
theorem retractLast_done {rev : List ℕ} (h : LoopDone cfg pool reqs true a a' rev kept popped) :
    ∃ a'' kept' popped', retractLast cfg pool reqs a' kept = some (a'', kept') ∧
      rev = popped' ++ kept' ∧ GivenUp reqs a a'' rev.length popped' ∧
      (2 ≤ rev.length → popped' ≠ []) ∧
      (kept' = [] ∨ ∃ world, checkDecodeMem cfg pool reqs world kept'.reverse =
        (a''.world, true)) := by
  rw [retractLast]
  by_cases hlen : kept.length ≤ 1
  · rw [if_pos hlen]
    dsimp only
    cases hcheck : (checkDecodeMem cfg pool reqs a'.world kept.reverse).2 with
    | true =>
      rw [if_pos rfl]
      refine ⟨_, kept, popped, rfl, h.split, ?_, h.progress rfl, .inr ⟨a'.world, ?_⟩⟩
      · have := h.givenUp.append (.nil (checkDecodeMem cfg pool reqs a'.world kept.reverse).1)
        rwa [List.append_nil] at this
      · rw [← hcheck]
    | false =>
      rw [if_neg Bool.false_ne_true]
      cases kept with
      | nil => exact absurd rfl h.nonempty
      | cons idx kept =>
        obtain rfl : kept = [] := List.length_eq_zero_iff.mp (by
          rw [List.length_cons] at hlen
          omega)
        refine ⟨_, [], popped ++ [idx], rfl, ?_, ?_, ?_, .inl rfl⟩
        · rw [h.split, List.append_nil]
        · have hrest : rev.length - popped.length = 0 + 1 := by
            rw [h.split, List.length_append, List.length_singleton]
            omega
          refine h.givenUp.append ?_
          rw [hrest]
          exact .of_release rfl (.inl ⟨rfl, _, rfl⟩)
        · intro _ hnil
          exact List.cons_ne_nil _ _ (List.append_eq_nil_iff.mp hnil).2
  · rw [if_neg hlen]
    exact ⟨a', kept, popped, rfl, h.split, h.givenUp, h.progress rfl,
      .inr (h.fits.resolve_left hlen)⟩

/-- Preference is transitive, as it compares the requests by numbers that are ordered. -/
theorem preferred_trans (r₁ r₂ r₃ : RetractReq) (h : r₁.Preferred cfg r₂)
    (h' : r₂.Preferred cfg r₃) : r₁.Preferred cfg r₃ := by
  unfold RetractReq.Preferred at *
  split at h
  next hpriority =>
    rw [if_pos hpriority] at h' ⊢
    exact h'.trans h
  next hpriority =>
    rw [if_neg hpriority] at h' ⊢
    exact h'.trans h

theorem preferred_total (r r' : RetractReq) : r.Preferred cfg r' ∨ r'.Preferred cfg r := by
  unfold RetractReq.Preferred
  split
  · exact le_total _ _
  · exact le_total _ _

variable (cfg reqs) in
/-- The retraction order lists the requests from the most preferred one to the least preferred. -/
theorem decodeRetractionOrder_pairwise (n : ℕ) :
    (decodeRetractionOrder cfg reqs n).Pairwise fun i j => (reqs i).Preferred cfg (reqs j) := by
  have hsorted : (decodeRetractionOrder cfg reqs n).Pairwise fun i j =>
      decide ((reqs i).Preferred cfg (reqs j)) = true := by
    refine List.pairwise_mergeSort (fun i j k hij hjk => ?_) (fun i j => ?_) (List.range n)
    · exact decide_eq_true
        (preferred_trans _ _ _ (of_decide_eq_true hij) (of_decide_eq_true hjk))
    · rw [Bool.or_eq_true, decide_eq_true_eq, decide_eq_true_eq]
      exact preferred_total _ _
  exact hsorted.imp of_decide_eq_true

/-- **Retraction**: whatever the allocator answers and the releases do, of a batch of requests the
most preferred are kept and the others given up, the least preferred first; each of those is
released once, with as many requests as remain, and is either retracted or aborted, a beam group
aborted; of two requests one at least is given up; and what is kept, if anything, has passed the
allocator's check after the last release. -/
theorem retract_decode_spec (cfg : RetractConfig) (pool : RetractPool σ) (reqs : ℕ → RetractReq)
    (world : σ) {n : ℕ} (hn : 0 < n) (hbeam : ∀ l, (pool.beamRetractionOrder l).Perm l) :
    ∃ a kept popped, retractDecode cfg pool reqs world n = some (a, kept) ∧
      RetractDone cfg pool reqs world n a kept popped := by
  have hperm : (pool.beamRetractionOrder (decodeRetractionOrder cfg reqs n)).Perm (List.range n) :=
    (hbeam _).trans (List.mergeSort_perm _ _)
  have hlength := hperm.length_eq
  rw [List.length_range] at hlength
  have hne : (pool.beamRetractionOrder (decodeRetractionOrder cfg reqs n)).reverse ≠ [] := by
    rw [Ne, List.reverse_eq_nil_iff, ← List.length_eq_zero_iff]
    omega
  obtain ⟨a, kept, popped, hloop, hdone⟩ :=
    retractLoop_done cfg pool reqs true ⟨world, [], [], []⟩ hne
  obtain ⟨a', kept', popped', hlast, hsplit, hgiven, hprogress, hfits⟩ := retractLast_done hdone
  have horder : pool.beamRetractionOrder (decodeRetractionOrder cfg reqs n) =
      kept'.reverse ++ popped'.reverse := by
    rw [← List.reverse_append, ← hsplit, List.reverse_reverse]
  rw [List.length_reverse, hlength] at hgiven hprogress
  refine ⟨a', kept'.reverse, popped', ?_, ?_, hgiven, fun hid i hi j hj => ?_, hprogress, ?_⟩
  · rw [retractDecode, hloop]
    change (retractLast cfg pool reqs a kept).bind _ = _
    rw [hlast]
    rfl
  · rw [horder] at hperm
    exact (List.Perm.append_left _ (List.reverse_perm popped').symm).trans hperm
  · have hsorted := decodeRetractionOrder_pairwise cfg reqs n
    rw [hid] at horder
    rw [horder] at hsorted
    exact (List.pairwise_append.mp hsorted).2.2 i hi j (List.mem_reverse.mpr hj)
  · rw [List.reverse_eq_nil_iff]
    exact hfits

/-! ## Three requests -/

/-- A pool of pages, of which each request has one. -/
def countedPool : RetractPool ℕ where
  checkDecodeCapacity free tokens := (free, decide (tokens ≤ free))
  releaseReq free _ _ _ := (free + 16, true)
  freeMemberRows free _ := free
  numBeamMemberRows _ := 0
  beamRetractionOrder l := l
  ceilAlign n page := (n + page - 1) / page * page
  ceilAlign_isLeast n page hpage := by
    refine ⟨⟨?_, Nat.dvd_mul_left ..⟩, fun m ⟨hle, hdvd⟩ => ?_⟩
    · have hdiv := Nat.div_add_mod' (n + page - 1) page
      have hmod := Nat.mod_lt (n + page - 1) hpage
      omega
    · obtain ⟨k, rfl⟩ := hdvd
      rw [Nat.mul_comm page k]
      refine Nat.mul_le_mul_right page (Nat.lt_succ_iff.mp ((Nat.div_lt_iff_lt_mul hpage).mpr ?_))
      rw [Nat.succ_mul, Nat.mul_comm k page]
      omega

/-- Three requests, each at the end of a page. -/
def retractReqs (i : ℕ) : RetractReq := ⟨i, 100, none, false, 32, 32⟩

/-- Two are given up: with one page free there is none for the others. -/
theorem retract_decode_spec_three : ∃ a kept popped,
    retractDecode ⟨false, false, true, 16, 0⟩ countedPool retractReqs 0 3 = some (a, kept) ∧
      RetractDone ⟨false, false, true, 16, 0⟩ countedPool retractReqs 0 3 a kept popped :=
  retract_decode_spec ⟨false, false, true, 16, 0⟩ countedPool retractReqs 0 (by decide)
    fun l => .refl l

end

end LuzServing

import LuzServing.WeightStreams

/-!
# The loop of `load_weights` is a join

The loop keeps the halves of fused parameters in two caches, and what it keeps and loads is what the
join of a stream keeps and gives (`foldlM_loadStep_eq_loop`): a bucket is what waits, a fused tensor
is a pair. What is asserted at the end is that nothing waits (`foldlM_finishLoad_eq_ok_iff`), so the
tensors may come in any order (`foldlM_finishLoad_perm`).
-/

namespace LuzServing

open TensorName StreamJoin

variable {R : Type}

/-! ## Buckets -/

/-- The half that a bucket keeps. -/
def Bucket.waits (b : Bucket R) : Option (Bool × WeightTensor R) :=
  match b.first, b.second with
  | some t, none => some (true, t)
  | none, some t => some (false, t)
  | _, _ => none

/-- The halves that wait in buckets. -/
def waitingIn (pending : Dict TensorName (Bucket R)) (key : TensorName) :
    Option (Bool × WeightTensor R) :=
  (pending.get? key).bind Bucket.waits

/-- Every bucket keeps one half. -/
def OneHalf (pending : Dict TensorName (Bucket R)) : Prop :=
  ∀ key b, pending.get? key = some b → b.waits ≠ none

/-- The bucket that keeps a half. -/
def Bucket.one (first : Bool) (t : WeightTensor R) : Bucket R :=
  if first then { first := some t, second := none } else { first := none, second := some t }

@[simp] theorem Bucket.waits_one (first : Bool) (t : WeightTensor R) :
    (Bucket.one first t).waits = some (first, t) := by
  cases first with
  | true => rfl
  | false => rfl

theorem Bucket.eq_one_of_waits {b : Bucket R} {first : Bool} {t : WeightTensor R}
    (h : b.waits = some (first, t)) : b = .one first t := by
  obtain ⟨_ | a, _ | a'⟩ := b
  · cases h
  · cases h
    rfl
  · cases h
    rfl
  · cases h

theorem OneHalf.empty : OneHalf (Dict.empty : Dict TensorName (Bucket R)) :=
  fun _ _ h => by cases h

theorem OneHalf.set {pending : Dict TensorName (Bucket R)} (h : OneHalf pending)
    (key : TensorName) (first : Bool) (t : WeightTensor R) :
    OneHalf (pending.set key (.one first t)) := by
  intro key' b hb
  rw [Dict.get?_set] at hb
  split_ifs at hb with hkey
  · cases hb
    rw [Bucket.waits_one]
    exact Option.some_ne_none _
  · exact h key' b hb

theorem OneHalf.pop {pending : Dict TensorName (Bucket R)} (h : OneHalf pending)
    (key : TensorName) : OneHalf (pending.pop key) := by
  intro key' b hb
  rw [Dict.get?_pop] at hb
  split_ifs at hb
  exact h key' b hb

theorem waitingIn_set (pending : Dict TensorName (Bucket R)) (key : TensorName) (first : Bool)
    (t : WeightTensor R) :
    waitingIn (pending.set key (.one first t)) =
      Function.update (waitingIn pending) key (some (first, t)) := by
  funext key'
  rw [waitingIn, Dict.get?_set, Function.update_apply]
  by_cases hkey : key = key'
  · rw [if_pos hkey, if_pos hkey.symm]
    exact Bucket.waits_one first t
  · rw [if_neg hkey, if_neg (Ne.symm hkey)]
    rfl

theorem waitingIn_pop (pending : Dict TensorName (Bucket R)) (key : TensorName) :
    waitingIn (pending.pop key) = Function.update (waitingIn pending) key none := by
  funext key'
  rw [waitingIn, Dict.get?_pop, Function.update_apply]
  by_cases hkey : key = key'
  · rw [if_pos hkey, if_pos hkey.symm]
    rfl
  · rw [if_neg hkey, if_neg (Ne.symm hkey)]
    rfl

/-- The bucket of a key under which nothing waits is empty. -/
theorem bucketOf_of_none {pending : Dict TensorName (Bucket R)} (h : OneHalf pending)
    {key : TensorName} (hnone : waitingIn pending key = none) :
    bucketOf pending key = .empty := by
  rw [bucketOf]
  cases hget : pending.get? key with
  | none => rfl
  | some b =>
    rw [waitingIn, hget] at hnone
    exact absurd hnone (h key b hget)

/-- The bucket of a key under which a half waits keeps that half. -/
theorem bucketOf_of_some {pending : Dict TensorName (Bucket R)} {key : TensorName} {first : Bool}
    {t : WeightTensor R} (hsome : waitingIn pending key = some (first, t)) :
    bucketOf pending key = .one first t := by
  rw [bucketOf]
  cases hget : pending.get? key with
  | none =>
    rw [waitingIn, hget] at hsome
    cases hsome
  | some b =>
    rw [waitingIn, hget] at hsome
    exact Bucket.eq_one_of_waits hsome

/-- When the same halves wait in two caches, the caches have the same buckets. -/
theorem get?_eq_of_waitingIn_eq {pending pending' : Dict TensorName (Bucket R)}
    (h : OneHalf pending) (h' : OneHalf pending') (heq : waitingIn pending = waitingIn pending') :
    pending.get? = pending'.get? := by
  have hle : ∀ {p p' : Dict TensorName (Bucket R)}, OneHalf p → waitingIn p = waitingIn p' →
      ∀ key b, p.get? key = some b → p'.get? key = some b := by
    intro p p' hp hpp key b hb
    obtain ⟨⟨first, t⟩, hwaits⟩ := Option.ne_none_iff_exists'.mp (hp key b hb)
    have hwaiting : waitingIn p key = some (first, t) := by
      rw [waitingIn, hb]
      exact hwaits
    rw [hpp, waitingIn] at hwaiting
    obtain ⟨b', hb', hwaits'⟩ := Option.bind_eq_some_iff.mp hwaiting
    rw [hb', Bucket.eq_one_of_waits hwaits, Bucket.eq_one_of_waits hwaits']
  funext key
  exact Option.ext fun b => ⟨hle h heq key b, hle h' heq.symm key b⟩

/-! ## The loop of `load_weights` -/

/-- What waits, of compressors and of `wqkv_a`. -/
def waitingOf (compressor wqkvA : TensorName → Option (Bool × WeightTensor R))
    (k : Bool × TensorName) : Option (Bool × WeightTensor R) :=
  if k.1 then wqkvA k.2 else compressor k.2

theorem waitingOf_update_compressor (compressor wqkvA : TensorName → Option (Bool × WeightTensor R))
    (key : TensorName) (w : Option (Bool × WeightTensor R)) :
    waitingOf (Function.update compressor key w) wqkvA =
      Function.update (waitingOf compressor wqkvA) (false, key) w := by
  funext k
  obtain ⟨_ | _, k⟩ := k
  · change Function.update compressor key w k = _
    rw [Function.update_apply, Function.update_apply]
    exact if_congr ⟨fun h => by rw [h], fun h => (Prod.mk.inj h).2⟩ rfl rfl
  · rw [Function.update_of_ne fun h => by cases h]
    rfl

theorem waitingOf_update_wqkvA (compressor wqkvA : TensorName → Option (Bool × WeightTensor R))
    (key : TensorName) (w : Option (Bool × WeightTensor R)) :
    waitingOf compressor (Function.update wqkvA key w) =
      Function.update (waitingOf compressor wqkvA) (true, key) w := by
  funext k
  obtain ⟨_ | _, k⟩ := k
  · rw [Function.update_of_ne fun h => by cases h]
    rfl
  · change Function.update wqkvA key w k = _
    rw [Function.update_apply, Function.update_apply]
    exact if_congr ⟨fun h => by rw [h], fun h => (Prod.mk.inj h).2⟩ rfl rfl

/-- What the loop has loaded, and what waits in its two caches. -/
def LoadState.view (s : LoadState R) : LoopState (Bool × TensorName) (WeightTensor R) (Load R) :=
  (s.loads, waitingOf s.cacheCompressorWeight.get? (waitingIn s.cacheWqkvAWeight))

namespace LoaderConfig

variable (cfg : LoaderConfig) (ops : TorchOps R)

/-- A tensor, as it comes into the loop. -/
def classify (x : NamedTensor R) :
    Except LoadError (Option (Item (Bool × TensorName) (WeightTensor R) (Load R))) :=
  if cfg.woAFp8 && endsWith ".wo_a.weight".toList x.1 &&
      decide (x.2.dtype ≠ .float8E4m3fn) then
    .error (.woANotFp8 x.1)
  else do
    match ← cfg.route x.1 with
    | .skip => pure none
    | .load param shard => pure (some (.whole ⟨param, shard, x.2⟩))
    | .compressor key isKv => pure (some (.half (false, key) isKv x.2))
    | .wqkvA paramName isQ => pure (some (.half (true, paramName) isQ x.2))

/-- The half of a fused parameter that a tensor of a name is. -/
def halfName (cfg : LoaderConfig) (name : TensorName) : Option ((Bool × TensorName) × Bool) :=
  match cfg.route name with
  | .ok (.compressor key isKv) => some ((false, key), isKv)
  | .ok (.wqkvA paramName isQ) => some ((true, paramName), isQ)
  | _ => none

variable {cfg ops} {s : LoadState R}

/-- What a tensor is a half of is in its name, unless it is not taken at all. -/
theorem halfOf_classify_eq (x : NamedTensor R) :
    halfOf cfg.classify x = none ∨ halfOf cfg.classify x = cfg.halfName x.1 := by
  rw [halfOf, classify, halfName]
  split_ifs
  · exact Or.inl rfl
  · refine Or.inr ?_
    cases cfg.route x.1 with
    | error e => rfl
    | ok found =>
      cases found with
      | skip => rfl
      | load param shard => rfl
      | compressor key isKv => rfl
      | wqkvA paramName isQ => rfl

/-- No half comes twice when no name is a half twice. -/
theorem nodup_halfOf_classify {l : List (NamedTensor R)}
    (hl : ((l.map Prod.fst).filterMap cfg.halfName).Nodup) :
    (l.filterMap (halfOf cfg.classify)).Nodup := by
  refine List.Sublist.nodup ?_ hl
  rw [List.filterMap_map]
  clear hl
  induction l with
  | nil => exact .slnil
  | cons x l ih =>
    rw [List.filterMap_cons, List.filterMap_cons]
    rcases halfOf_classify_eq x with hx | hx
    · rw [hx]
      dsimp only
      split
      · exact ih
      · exact ih.cons _
    · rw [hx, Function.comp_apply]
      cases cfg.halfName x.1 with
      | none => exact ih
      | some half => exact ih.cons_cons half

/-- A half of a compressor is put to its own cache and leaves the cache of the projections alone. -/
theorem cacheWqkvAWeight_compressorStep {s' : LoadState R} {key : TensorName} {isKv : Bool}
    {t : WeightTensor R} (h : compressorStep ops s key isKv t = .ok s') :
    s'.cacheWqkvAWeight = s.cacheWqkvAWeight := by
  rw [compressorStep] at h
  cases hget : s.cacheCompressorWeight.get? key with
  | none =>
    rw [hget] at h
    cases h
    rfl
  | some cached =>
    rw [hget] at h
    dsimp only at h
    by_cases hcached : cached.1 = isKv
    · rw [if_pos hcached] at h
      cases h
    · rw [if_neg hcached] at h
      obtain ⟨fused, -, h⟩ := bind_eq_ok_iff.mp h
      cases h
      rfl

/-- The end of the load returns exactly when no half waits, and then returns the loads that were
made. -/
theorem finishLoad_eq_ok_iff (hvalid : OneHalf s.cacheWqkvAWeight) {loads : List (Load R)} :
    finishLoad s = .ok loads ↔ s.view = (loads, fun _ => none) := by
  have hcompressor : s.cacheCompressorWeight.entries = [] ↔
      ∀ key, s.view.2 (false, key) = none := Dict.entries_eq_nil_iff
  have hwqkvA : s.cacheWqkvAWeight.entries = [] ↔ ∀ key, s.view.2 (true, key) = none := by
    rw [Dict.entries_eq_nil_iff]
    refine forall_congr' fun key => ⟨fun h => ?_, fun h => ?_⟩
    · change (s.cacheWqkvAWeight.get? key).bind Bucket.waits = none
      rw [h]
      rfl
    · cases hget : s.cacheWqkvAWeight.get? key with
      | none => rfl
      | some b =>
        change (s.cacheWqkvAWeight.get? key).bind Bucket.waits = none at h
        rw [hget] at h
        exact absurd h (hvalid key b hget)
  have hnone : s.view.2 = (fun _ => none) ↔
      s.cacheCompressorWeight.entries = [] ∧ s.cacheWqkvAWeight.entries = [] := by
    rw [hcompressor, hwqkvA, funext_iff, Prod.forall, Bool.forall_bool]
  rw [finishLoad, Prod.ext_iff, hnone]
  split_ifs with hc hw
  · exact ⟨fun h => ⟨Except.ok.inj h, hc, hw⟩, fun h => congrArg Except.ok h.1⟩
  · exact iff_of_false (fun h => by cases h) fun h => hw h.2.2
  · exact iff_of_false (fun h => by cases h) fun h => hc h.2.1

section Steps

variable [DecidableEq R]

variable (cfg ops) in
/-- A tensor, as it goes to the loader of a parameter. -/
def emit : Joined (Bool × TensorName) (WeightTensor R) (Load R) → Except LoadError (Load R)
  | .whole load => .ok load
  | .pair (false, key) kv wgate => do
    let fused ← catRows ops kv wgate
    pure ⟨key ++ ".wkv_gate.weight".toList, .whole, fused⟩
  | .pair (true, paramName) q kv => do
    let fused ← fuseWqkvAPair ops paramName q kv
    if cfg.hasParam paramName then pure ⟨paramName, .whole, fused⟩
    else .error (.keyError paramName)

/-- A half of a compressor is a turn of the join. -/
theorem map_compressorStep {key : TensorName} {isKv : Bool} {t : WeightTensor R}
    (hfresh : ∀ a, s.view.2 (false, key) ≠ some (isKv, a)) :
    (compressorStep ops s key isKv t).map LoadState.view =
      turn (cfg.emit ops) s.view (.half (false, key) isKv t) := by
  rw [compressorStep]
  cases hget : s.cacheCompressorWeight.get? key with
  | none =>
    rw [turn_wait (show s.view.2 (false, key) = none from hget)]
    refine congrArg Except.ok (Prod.ext rfl ?_)
    change waitingOf (s.cacheCompressorWeight.set key (isKv, t)).get? _ = _
    rw [Dict.get?_set_eq_update]
    exact waitingOf_update_compressor ..
  | some cached =>
    obtain ⟨cachedIsKv, cached⟩ := cached
    have hwaits : s.view.2 (false, key) = some (cachedIsKv, cached) := hget
    have hne : cachedIsKv ≠ isKv := fun h => hfresh cached (h ▸ hwaits)
    rw [turn_leave hwaits hne]
    dsimp only
    rw [if_neg hne]
    have hmeet : cfg.emit ops (meet (false, key) isKv t cached) =
        catRows ops (if isKv then t else cached) (if isKv then cached else t) >>= fun fused =>
          pure ⟨key ++ ".wkv_gate.weight".toList, .whole, fused⟩ := by
      cases isKv with
      | true => rfl
      | false => rfl
    rw [hmeet]
    cases catRows ops (if isKv then t else cached) (if isKv then cached else t) with
    | error e => rfl
    | ok fused =>
      refine congrArg Except.ok (Prod.ext rfl ?_)
      change waitingOf (s.cacheCompressorWeight.pop key).get? _ = _
      rw [Dict.get?_pop_eq_update]
      exact waitingOf_update_compressor ..

/-- A half of a `wqkv_a` is a turn of the join, and every bucket keeps one half. -/
theorem map_wqkvAStep (hvalid : OneHalf s.cacheWqkvAWeight) {paramName : TensorName} {isQ : Bool}
    {t : WeightTensor R} (hfresh : ∀ a, s.view.2 (true, paramName) ≠ some (isQ, a)) :
    (cfg.wqkvAStep ops s paramName isQ t).map LoadState.view =
        turn (cfg.emit ops) s.view (.half (true, paramName) isQ t) ∧
      ∀ s', cfg.wqkvAStep ops s paramName isQ t = .ok s' → OneHalf s'.cacheWqkvAWeight := by
  have hset : waitingOf s.cacheCompressorWeight.get?
      (waitingIn (s.cacheWqkvAWeight.set paramName (.one isQ t))) =
      Function.update s.view.2 (true, paramName) (some (isQ, t)) := by
    rw [waitingIn_set]
    exact waitingOf_update_wqkvA ..
  have hpop : waitingOf s.cacheCompressorWeight.get?
      (waitingIn (s.cacheWqkvAWeight.pop paramName)) =
      Function.update s.view.2 (true, paramName) none := by
    rw [waitingIn_pop]
    exact waitingOf_update_wqkvA ..
  have hone := hvalid.set paramName isQ t
  cases hwaits : waitingIn s.cacheWqkvAWeight paramName with
  | none =>
    rw [wqkvAStep, bucketOf_of_none hvalid hwaits,
      turn_wait (show s.view.2 (true, paramName) = none from hwaits), ← hset]
    cases isQ with
    | true =>
      refine ⟨rfl, fun s' hs => ?_⟩
      cases hs
      exact hone
    | false =>
      refine ⟨rfl, fun s' hs => ?_⟩
      cases hs
      exact hone
  | some waits =>
    obtain ⟨side, other⟩ := waits
    have hview : s.view.2 (true, paramName) = some (side, other) := hwaits
    have hne : side ≠ isQ := fun h => hfresh other (h ▸ hview)
    rw [turn_leave hview hne, ← hpop]
    obtain rfl := Bool.eq_not_of_ne hne
    -- the bucket is full now, and the pair is fused
    have hfused : cfg.wqkvAStep ops s paramName isQ t =
        fuseWqkvAPair ops paramName (if isQ then t else other) (if isQ then other else t) >>=
          fun fused => if cfg.hasParam paramName then
            pure { s with
              loads := s.loads ++ [⟨paramName, .whole, fused⟩]
              cacheWqkvAWeight := s.cacheWqkvAWeight.pop paramName }
          else .error (.keyError paramName) := by
      rw [wqkvAStep, bucketOf_of_some hwaits]
      cases isQ with
      | true => rfl
      | false => rfl
    have hmeet : cfg.emit ops (meet (true, paramName) isQ t other) =
        fuseWqkvAPair ops paramName (if isQ then t else other) (if isQ then other else t) >>=
          fun fused => if cfg.hasParam paramName then pure ⟨paramName, .whole, fused⟩
          else .error (.keyError paramName) := by
      cases isQ with
      | true => rfl
      | false => rfl
    rw [hfused, hmeet]
    cases fuseWqkvAPair ops paramName (if isQ then t else other) (if isQ then other else t) with
    | error e => exact ⟨rfl, fun s' hs => by cases hs⟩
    | ok fused =>
      rw [bind_ok, bind_ok]
      split_ifs
      · refine ⟨rfl, fun s' hs => ?_⟩
        cases hs
        exact hvalid.pop paramName
      · exact ⟨rfl, fun s' hs => by cases hs⟩

/-- A step of the loader on a tensor is, seen from outside, a turn of the join. -/
theorem map_loadStep (hvalid : OneHalf s.cacheWqkvAWeight) {x : NamedTensor R}
    (hfresh : ∀ k first, halfOf cfg.classify x = some (k, first) →
      ∀ a, s.view.2 k ≠ some (first, a)) :
    (cfg.loadStep ops s x).map LoadState.view =
        loopStep cfg.classify (cfg.emit ops) s.view x ∧
      ∀ s', cfg.loadStep ops s x = .ok s' → OneHalf s'.cacheWqkvAWeight := by
  rw [halfOf] at hfresh
  rw [loadStep, loopStep]
  rw [classify] at hfresh ⊢
  split_ifs at hfresh ⊢
  · exact ⟨rfl, fun s' hs => by cases hs⟩
  · cases hroute : cfg.route x.1 with
    | error e => exact ⟨rfl, fun s' hs => by cases hs⟩
    | ok found =>
      rw [hroute] at hfresh
      cases found with
      | skip =>
        refine ⟨rfl, fun s' hs => ?_⟩
        cases hs
        exact hvalid
      | load param shard =>
        refine ⟨?_, fun s' hs => ?_⟩
        · change _ = turn (cfg.emit ops) s.view (.whole ⟨param, shard, x.2⟩)
          rw [turn_whole]
          rfl
        · cases hs
          exact hvalid
      | compressor key isKv =>
        refine ⟨map_compressorStep (hfresh _ _ rfl), fun s' hs => ?_⟩
        rw [cacheWqkvAWeight_compressorStep hs]
        exact hvalid
      | wqkvA paramName isQ => exact map_wqkvAStep hvalid (hfresh _ _ rfl)

/-- **The loop of `load_weights` is a join**, where no half comes twice. -/
theorem foldlM_loadStep_eq_loop {l : List (NamedTensor R)}
    (hl : (l.filterMap (halfOf cfg.classify)).Nodup) :
    (l.foldlM (cfg.loadStep ops) .start).map LoadState.view =
        loop cfg.classify (cfg.emit ops) l ∧
      ∀ s, l.foldlM (cfg.loadStep ops) .start = .ok s → OneHalf s.cacheWqkvAWeight := by
  refine foldlM_eq_loop ?_ .empty ?_ hl
  · refine Prod.ext rfl (funext fun k => ?_)
    obtain ⟨_ | _, k⟩ := k
    · rfl
    · rfl
  · exact fun s x hvalid hfresh => map_loadStep hvalid hfresh

/-- The loop over the tensors, and what is asserted after it. -/
theorem foldlM_finishLoad_eq_ok_iff {l : List (NamedTensor R)}
    (hl : (l.filterMap (halfOf cfg.classify)).Nodup) {loads : List (Load R)} :
    (l.foldlM (cfg.loadStep ops) .start >>= finishLoad) = .ok loads ↔
      loop cfg.classify (cfg.emit ops) l = .ok (loads, fun _ => none) := by
  obtain ⟨hmap, hkept⟩ := foldlM_loadStep_eq_loop hl
  rw [← hmap]
  cases hs : l.foldlM (cfg.loadStep ops) .start with
  | error e => exact iff_of_false (fun h => by cases h) fun h => by cases h
  | ok s =>
    rw [bind_ok, finishLoad_eq_ok_iff (hkept s hs)]
    exact ⟨congrArg Except.ok, Except.ok.inj⟩

/-- A load that returns does so for every order of the tensors, with the same loads up to their
order. -/
theorem foldlM_finishLoad_perm {l l' : List (NamedTensor R)} (hp : l.Perm l')
    (hl : (l.filterMap (halfOf cfg.classify)).Nodup) {loads : List (Load R)}
    (h : (l.foldlM (cfg.loadStep ops) .start >>= finishLoad) = .ok loads) :
    ∃ loads', (l'.foldlM (cfg.loadStep ops) .start >>= finishLoad) = .ok loads' ∧
      loads.Perm loads' := by
  obtain ⟨⟨loads', w⟩, hloop, hperm, hw⟩ :=
    loop_perm hp hl ((foldlM_finishLoad_eq_ok_iff hl).mp h)
  obtain rfl : (fun _ => none) = w := hw
  have hl' := (hp.filterMap (halfOf cfg.classify)).nodup_iff.mp hl
  exact ⟨loads', (foldlM_finishLoad_eq_ok_iff hl').mpr hloop, hperm⟩

end Steps

end LoaderConfig

end LuzServing

import LuzServing.Stores
import Mathlib.Algebra.BigOperators.Group.Finset.Basic
import Mathlib.Algebra.BigOperators.Ring.Finset
import Mathlib.Algebra.Module.Defs
import Mathlib.Data.Finset.Sort

/-!
# The expert-parallel MoE layer

Every rank holds a block of `e_local` experts and sees the ids that the router chose among the
experts of all ranks. The fused kernel wants local ids, so a slot whose expert is on another rank is
not removed but sent to the local expert 0 with weight zero; the caller adds the partial outputs up.

A plan of the kernel is compiled for a capacity. Small batches get a plan of their own; the larger
are rounded up to a rung of a ladder, which the environment may set, so that only so many plans are
ever compiled. Plans are kept per geometry, under the capacity and the number of slots of a row.

`moe_b12x_exact` says that nothing is lost or counted twice, that `_cap_for` finds the least
capacity that is enough, and that the plans stay few over all calls.
-/

namespace LuzServing

/-! ## The ladder -/

/-- `_EXACT_MAX` -/
def exactMax : ℤ := 96

/-- `_LADDER`: the capacities above the exact ones. -/
structure Ladder : Type where
  /-- the rungs, `_LADDER` -/
  rungs : List ℤ
  /-- `_MAX_CAP` is `_LADDER[-1]` -/
  ne_nil : rungs ≠ []
  /-- they ascend -/
  ascending : rungs.Pairwise (· < ·)
  /-- they start above the exact capacities -/
  above : ∀ cap ∈ rungs, exactMax < cap

namespace Ladder

/-- `_CAPS_A16` -/
def capsA16 : Ladder where
  rungs := [128, 256, 512, 1024, 2048]
  ne_nil := List.cons_ne_nil _ _
  ascending := by decide
  above := by decide

/-- `_CAPS_A8` -/
def capsA8 : Ladder where
  rungs := [128, 256, 512, 1024, 2304, 4096]
  ne_nil := List.cons_ne_nil _ _
  ascending := by decide
  above := by decide

theorem pairwise_of_sort {values : Finset ℤ} {rungs : List ℤ} (h : values.sort = rungs) :
    rungs.Pairwise (· < ·) :=
  h ▸ values.sortedLT_sort.pairwise

theorem above_of_sort {values : Finset ℤ} {first : ℤ} {rest : List ℤ}
    (h : values.sort = first :: rest) (hfirst : exactMax < first) :
    ∀ cap ∈ first :: rest, exactMax < cap := by
  intro cap hcap
  rcases List.mem_cons.mp hcap with rfl | hrest
  · exact hfirst
  · exact hfirst.trans (List.rel_of_pairwise_cons (pairwise_of_sort h) hrest)

/-- `_parse_ladder`, of what `int` makes of the pieces of the variable (`none`: it raises). -/
def parse (caps : Ladder) (pieces : List (Option ℤ)) : Ladder :=
  match pieces.mapM id with
  | none => caps
  | some values =>
    match h : values.toFinset.sort with
    | [] => caps
    | first :: rest =>
      if hfirst : exactMax < first then
        ⟨first :: rest, List.cons_ne_nil _ _, pairwise_of_sort h, above_of_sort h hfirst⟩
      else caps

variable (ladder : Ladder)

/-- `_MAX_CAP` -/
def maxCap : ℤ := ladder.rungs.getLast ladder.ne_nil

/-- `_cap_for` -/
def capFor (m : ℤ) : Option ℤ :=
  if m ≤ exactMax then some m else ladder.rungs.find? fun cap => m ≤ cap

/-- The capacities that a batch may get. -/
def Admissible (cap : ℤ) : Prop := (0 ≤ cap ∧ cap ≤ exactMax) ∨ cap ∈ ladder.rungs

end Ladder

/-! ## The plans of a geometry -/

/-- `_GeometryState` -/
structure GeometryState : Type where
  /-- the keys of `buckets`, in the order they are made -/
  buckets : List (ℤ × ℕ)

/-- `ExecutionCapacity.__post_init__` -/
def executionCapacity (maxTokens : ℤ) (topK : ℕ) : Except String Unit :=
  if maxTokens ≤ 0 then .error "max_tokens must be positive"
  else if topK ≤ 0 then .error "top_k must be positive"
  else .ok ()

/-- `_GeometryState.bucket` -/
def GeometryState.bucket (geom : GeometryState) (cap : ℤ) (topk : ℕ) :
    Except String GeometryState := do
  if (cap, topk) ∈ geom.buckets then pure geom
  else
    executionCapacity cap topk
    pure ⟨geom.buckets ++ [(cap, topk)]⟩

/-! ## A layer -/

/-- What the router chose, `topk_ids` and `topk_weights`. -/
structure TopkOutput (R : Type) : Type where
  /-- the rows -/
  m : ℕ
  /-- the slots of a row -/
  topk : ℕ
  /-- the expert of a slot; negative in padding -/
  ids : ℕ → ℕ → ℤ
  /-- the weight of a slot -/
  weights : ℕ → ℕ → R
  /-- the ids are `int32` -/
  fits : ∀ row slot, -2 ^ 31 ≤ ids row slot ∧ ids row slot < 2 ^ 31

section Layer

variable {R V X : Type} [Semiring R] [AddCommMonoid V] [Module R V]

/-- The fused kernel, over exact arithmetic. -/
structure FusedKernel (R V X : Type) [Semiring R] [AddCommMonoid V] [Module R V] : Type where
  /-- a row of the output, from `e_local` experts, a row of activations and its slots -/
  run : ℕ → (ℕ → X → V) → X → ℕ → (ℕ → ℤ) → (ℕ → R) → V
  /-- where the slots name experts there are, it adds up their outputs -/
  run_eq : ∀ (eLocal : ℕ) experts row topk ids weights,
    (∀ slot < topk, 0 ≤ ids slot ∧ ids slot < (eLocal : ℤ)) →
    run eLocal experts row topk ids weights =
      ∑ slot ∈ Finset.range topk, weights slot • experts (ids slot).toNat row

/-- The kernel that adds up whatever it is given. -/
instance : Inhabited (FusedKernel R V X) where
  default :=
    { run := fun _ experts row topk ids weights =>
        ∑ slot ∈ Finset.range topk, weights slot • experts (ids slot).toNat row
      run_eq := fun _ _ _ _ _ _ _ => rfl }

/-- `_LayerState` -/
structure LayerState (V X : Type) : Type where
  /-- the experts of the rank, `e_local` -/
  eLocal : ℕ
  /-- `ep_rank` -/
  epRank : ℕ
  /-- the local experts -/
  experts : ℕ → X → V
  /-- there is an expert -/
  one_le_eLocal : 1 ≤ eLocal

namespace LayerState

variable (layer : LayerState V X)

/-- `lo`: the first expert of the rank. -/
def lo : ℤ := layer.epRank * layer.eLocal

/-- `local` -/
def isLocal (id : ℤ) : Bool := layer.lo ≤ id && id < layer.lo + layer.eLocal

/-- `ids`: the local id of a slot. -/
def localId (id : ℤ) : ℤ := toInt32 (if layer.isLocal id then id - layer.lo else 0)

/-- `w`: the weight of a slot. -/
def localWeight (id : ℤ) (weight : R) : R := if layer.isLocal id then weight else 0

/-- What `_LayerState.__init__` does with the plans: all rungs, if the layer is no draft layer. -/
def load (ladder : Ladder) (geom : GeometryState) : Except String GeometryState :=
  if 64 < layer.eLocal then ladder.rungs.foldlM (fun geom cap => geom.bucket cap 6) geom
  else pure geom

/-- `_LayerState.run` -/
def run (fm : FusedKernel R V X) (ladder : Ladder) (geom : GeometryState) (x : ℕ → X)
    (topk : TopkOutput R) : Except String (GeometryState × (ℕ → V)) :=
  match ladder.capFor topk.m with
  | none =>
    .error (s!"moe_b12x: prefill batch of {topk.m} tokens exceeds the largest MoE bucket " ++
      s!"({ladder.maxCap}). Raise DSV41_MOE_B12X_CAPS (now {ladder.rungs}) or lower " ++
      "CHUNKED_PREFILL_SIZE.")
  | some cap => do
    let geom ← geom.bucket cap topk.topk
    pure
      (geom, fun row =>
        fm.run layer.eLocal layer.experts (x row) topk.topk
          (fun slot => layer.localId (topk.ids row slot))
          (fun slot => layer.localWeight (topk.ids row slot) (topk.weights row slot)))

end LayerState

/-- The layer of a rank, of a model with the experts `expert`. -/
def shard (expert : ℕ → X → V) {eLocal : ℕ} (h : 1 ≤ eLocal) (rank : ℕ) : LayerState V X where
  eLocal := eLocal
  epRank := rank
  experts := fun j => expert (rank * eLocal + j)
  one_le_eLocal := h

/-- What happens to the plans of a geometry. -/
inductive MoeEvent (R V X : Type) : Type where
  /-- a layer of the geometry is made -/
  | load (layer : LayerState V X)
  /-- a layer of the geometry is called -/
  | call (layer : LayerState V X) (x : ℕ → X) (topk : TopkOutput R)

/-- The plans after an event; a call that raises leaves them. -/
def GeometryState.after (fm : FusedKernel R V X) (ladder : Ladder) (geom : GeometryState) :
    MoeEvent R V X → GeometryState
  | .load layer =>
    match layer.load ladder geom with
    | .ok geom' => geom'
    | .error _ => geom
  | .call layer x topk =>
    match layer.run fm ladder geom x topk with
    | .ok (geom', _) => geom'
    | .error _ => geom

/-- The plans after all events, from none. -/
def plansAfter (fm : FusedKernel R V X) (ladder : Ladder) (events : List (MoeEvent R V X)) :
    GeometryState :=
  events.foldl (GeometryState.after fm ladder) ⟨[]⟩

end Layer

/-! ## The least capacity -/

namespace Ladder

variable (ladder : Ladder)

/-- No rung of the ladder is above the last one, since the rungs ascend. -/
theorem le_maxCap {cap : ℤ} (h : cap ∈ ladder.rungs) : cap ≤ ladder.maxCap := by
  have hsplit := List.dropLast_append_getLast ladder.ne_nil
  rw [← hsplit, List.mem_append, List.mem_singleton] at h
  rcases h with hinit | rfl
  · have hasc := ladder.ascending
    rw [← hsplit] at hasc
    exact ((List.pairwise_append.mp hasc).2.2 cap hinit _ (List.mem_singleton_self _)).le
  · exact le_rfl

theorem maxCap_mem : ladder.maxCap ∈ ladder.rungs := List.getLast_mem _

/-- `_cap_for` finds no capacity exactly when the batch is larger than the last rung. -/
theorem capFor_eq_none_iff (m : ℤ) : ladder.capFor m = none ↔ ladder.maxCap < m := by
  have hlast := ladder.above _ ladder.maxCap_mem
  rw [capFor]
  split_ifs with hm
  · simp only [false_iff, not_lt]
    exact hm.trans hlast.le
  · simp only [List.find?_eq_none, decide_eq_true_eq, not_le]
    exact ⟨fun h => h _ ladder.maxCap_mem, fun h cap hcap => (ladder.le_maxCap hcap).trans_lt h⟩

/-- The capacity that `_cap_for` finds is the least admissible one that holds the batch. -/
theorem isLeast_of_capFor {m : ℕ} {cap : ℤ} (h : ladder.capFor m = some cap) :
    IsLeast {c | ladder.Admissible c ∧ (m : ℤ) ≤ c} cap := by
  rw [capFor] at h
  split_ifs at h with hm
  · cases h
    exact ⟨⟨Or.inl ⟨Int.natCast_nonneg m, hm⟩, le_rfl⟩, fun c hc => hc.2⟩
  · obtain ⟨hcap, before, later, hsplit, hbefore⟩ := List.find?_eq_some_iff_append.mp h
    have hasc := ladder.ascending
    rw [hsplit] at hasc
    refine ⟨⟨Or.inr (hsplit ▸ List.mem_append_cons_self), of_decide_eq_true hcap⟩, ?_⟩
    rintro c ⟨⟨-, hexact⟩ | hrung, hc⟩
    · exact absurd (hc.trans hexact) hm
    · rw [hsplit, List.mem_append, List.mem_cons] at hrung
      rcases hrung with hmem | rfl | hmem
      · have hnot := hbefore c hmem
        rw [Bool.not_eq_true', decide_eq_false_iff_not] at hnot
        exact absurd hc hnot
      · exact le_rfl
      · exact (List.rel_of_pairwise_cons (List.pairwise_append.mp hasc).2.1 hmem).le

/-- `_cap_for` finds a capacity exactly when it is the least admissible one that holds the batch. -/
theorem capFor_eq_some_iff (m : ℕ) (cap : ℤ) :
    ladder.capFor m = some cap ↔ IsLeast {c | ladder.Admissible c ∧ (m : ℤ) ≤ c} cap := by
  refine ⟨ladder.isLeast_of_capFor, fun hleast => ?_⟩
  cases hfound : ladder.capFor m with
  | some c => rw [(ladder.isLeast_of_capFor hfound).unique hleast]
  | none =>
    have habove := (ladder.capFor_eq_none_iff m).mp hfound
    have hlast := ladder.above _ ladder.maxCap_mem
    rcases hleast.1.1 with ⟨-, hexact⟩ | hrung
    · exact absurd (hleast.1.2.trans hexact) (hlast.trans habove).not_ge
    · exact absurd (hleast.1.2.trans (ladder.le_maxCap hrung)) habove.not_ge

/-- When a batch has a capacity, a batch that is not larger has one, too, and not a larger one. -/
theorem capFor_mono {m m' : ℕ} (hm : m ≤ m') {cap' : ℤ} (h : ladder.capFor m' = some cap') :
    ∃ cap, ladder.capFor m = some cap ∧ cap ≤ cap' := by
  have hleast := ladder.isLeast_of_capFor h
  have hmem : cap' ∈ {c | ladder.Admissible c ∧ (m : ℤ) ≤ c} :=
    ⟨hleast.1.1, (Int.ofNat_le.mpr hm).trans hleast.1.2⟩
  cases hfound : ladder.capFor m with
  | some cap => exact ⟨cap, rfl, (ladder.isLeast_of_capFor hfound).2 hmem⟩
  | none =>
    have hnone : ladder.capFor m' = none :=
      (ladder.capFor_eq_none_iff _).mpr
        (((ladder.capFor_eq_none_iff _).mp hfound).trans_le (Int.ofNat_le.mpr hm))
    rw [h] at hnone
    cases hnone

end Ladder

/-! ## The plans are few -/

/-- The capacities that a plan may have. -/
def Ladder.capacities (ladder : Ladder) : List ℤ :=
  (List.range exactMax.toNat).map (fun k : ℕ => (k : ℤ) + 1) ++ ladder.rungs

theorem Ladder.length_capacities (ladder : Ladder) :
    ladder.capacities.length = exactMax.toNat + ladder.rungs.length := by
  rw [capacities, List.length_append, List.length_map, List.length_range]

theorem Ladder.mem_capacities (ladder : Ladder) {cap : ℤ} (hpos : 0 < cap)
    (h : ladder.Admissible cap) : cap ∈ ladder.capacities := by
  rw [capacities, List.mem_append, List.mem_map]
  rcases h with ⟨-, hexact⟩ | hrung
  · refine Or.inl ⟨(cap - 1).toNat, List.mem_range.mpr ?_, ?_⟩
    · rw [exactMax] at hexact ⊢
      omega
    · omega
  · exact Or.inr hrung

/-- No plan is made twice, and each has one of the capacities. -/
structure GeometryState.Bounded (ladder : Ladder) (geom : GeometryState) : Prop where
  /-- the keys differ -/
  nodup : geom.buckets.Nodup
  /-- they have one of the capacities -/
  mem : ∀ key ∈ geom.buckets, key.1 ∈ ladder.capacities

namespace GeometryState

variable {ladder : Ladder} {geom : GeometryState}

/-- `bucket` makes no plan, or one of a capacity that is positive. -/
theorem bucket_cases {cap : ℤ} {topk : ℕ} {geom' : GeometryState}
    (h : geom.bucket cap topk = .ok geom') :
    geom' = geom ∨
      (0 < cap ∧ (cap, topk) ∉ geom.buckets ∧ geom' = ⟨geom.buckets ++ [(cap, topk)]⟩) := by
  rw [bucket] at h
  split_ifs at h with hmem
  · cases h
    exact Or.inl rfl
  · rw [executionCapacity] at h
    split_ifs at h with hcap htopk
    · cases h
    · cases h
    · cases h
      exact Or.inr ⟨not_le.mp hcap, hmem, rfl⟩

/-- Planning for an admissible capacity keeps the bound on the number of plans. -/
theorem Bounded.bucket (hb : geom.Bounded ladder) {cap : ℤ} (hcap : ladder.Admissible cap)
    {topk : ℕ} {geom' : GeometryState} (h : geom.bucket cap topk = .ok geom') :
    geom'.Bounded ladder := by
  obtain rfl | ⟨hpos, hnew, rfl⟩ := bucket_cases h
  · exact hb
  · refine ⟨?_, fun key hkey => ?_⟩
    · exact List.nodup_append.mpr ⟨hb.nodup, List.nodup_singleton _, fun key hkey key' hkey' =>
        fun heq => hnew (List.mem_singleton.mp hkey' ▸ heq ▸ hkey)⟩
    · rcases List.mem_append.mp hkey with hold | hlast
      · exact hb.mem key hold
      · cases List.mem_singleton.mp hlast
        exact ladder.mem_capacities hpos hcap

/-- The plans that a load makes for the rungs of the ladder keep the bound. -/
theorem Bounded.foldlM {rungs : List ℤ} (hrungs : ∀ cap ∈ rungs, cap ∈ ladder.rungs) {topk : ℕ}
    (hb : geom.Bounded ladder) {geom' : GeometryState}
    (h : rungs.foldlM (fun geom cap => geom.bucket cap topk) geom = .ok geom') :
    geom'.Bounded ladder := by
  induction rungs generalizing geom with
  | nil =>
    cases h
    exact hb
  | cons cap rungs ih =>
    rw [List.foldlM_cons] at h
    cases hbucket : geom.bucket cap topk with
    | error e =>
      rw [hbucket] at h
      cases h
    | ok next =>
      rw [hbucket] at h
      have hcap : ladder.Admissible cap := Or.inr (hrungs cap (List.mem_cons_self ..))
      exact ih (fun c hc => hrungs c (List.mem_cons_of_mem _ hc)) (hb.bucket hcap hbucket) h

end GeometryState

section Runs

variable {R V X : Type} [Semiring R] [AddCommMonoid V] [Module R V]
variable (fm : FusedKernel R V X) (ladder : Ladder)

/-- A call that returns has asked for a plan of the capacity of its batch. -/
theorem LayerState.run_eq_ok {layer : LayerState V X} {geom : GeometryState} {x : ℕ → X}
    {topk : TopkOutput R} {out : GeometryState × (ℕ → V)}
    (h : layer.run fm ladder geom x topk = .ok out) :
    ∃ cap, ladder.capFor topk.m = some cap ∧ geom.bucket cap topk.topk = .ok out.1 ∧
      out.2 = fun row =>
        fm.run layer.eLocal layer.experts (x row) topk.topk
          (fun slot => layer.localId (topk.ids row slot))
          (fun slot => layer.localWeight (topk.ids row slot) (topk.weights row slot)) := by
  rw [run] at h
  cases hcap : ladder.capFor topk.m with
  | none =>
    rw [hcap] at h
    cases h
  | some cap =>
    rw [hcap] at h
    cases hbucket : geom.bucket cap topk.topk with
    | error e =>
      simp only [hbucket] at h
      cases h
    | ok next =>
      simp only [hbucket] at h
      cases h
      exact ⟨cap, rfl, hbucket, rfl⟩

/-- Every event, be it a load or a forward, keeps the bound on the number of plans. -/
theorem GeometryState.Bounded.after {geom : GeometryState} (hb : geom.Bounded ladder)
    (event : MoeEvent R V X) : (geom.after fm ladder event).Bounded ladder := by
  cases event with
  | load layer =>
    simp only [GeometryState.after]
    split
    case h_1 geom' hload =>
      rw [LayerState.load] at hload
      split_ifs at hload
      · exact hb.foldlM (fun _ => id) hload
      · cases hload
        exact hb
    case h_2 => exact hb
  | call layer x topk =>
    simp only [GeometryState.after]
    split
    case h_1 geom' out hrun =>
      obtain ⟨cap, hcap, hbucket, -⟩ := LayerState.run_eq_ok fm ladder hrun
      exact hb.bucket (ladder.isLeast_of_capFor hcap).1.1 hbucket
    case h_2 => exact hb

/-- After any run of loads and forwards the number of plans is still within the bound. -/
theorem plansAfter_bounded (events : List (MoeEvent R V X)) :
    (plansAfter fm ladder events).Bounded ladder := by
  have hrun : ∀ geom : GeometryState, geom.Bounded ladder →
      (events.foldl (GeometryState.after fm ladder) geom).Bounded ladder := by
    induction events with
    | nil => exact fun _ hb => hb
    | cons event events ih => exact fun geom hb => ih _ (hb.after fm ladder event)
  exact hrun ⟨[]⟩ ⟨List.nodup_nil, fun key hkey => absurd hkey List.not_mem_nil⟩

/-- The plans for one number of slots differ in their capacities, so there are no more of them than
of these. -/
theorem GeometryState.Bounded.length_le {geom : GeometryState} (hb : geom.Bounded ladder)
    (topk : ℕ) :
    (geom.buckets.filter fun key => key.2 = topk).length ≤
      exactMax.toNat + ladder.rungs.length := by
  have hnodup : ((geom.buckets.filter fun key => key.2 = topk).map Prod.fst).Nodup := by
    refine List.Nodup.map_on (fun key hkey key' hkey' heq => ?_) (hb.nodup.filter _)
    have htopk := of_decide_eq_true (List.mem_filter.mp hkey).2
    have htopk' := of_decide_eq_true (List.mem_filter.mp hkey').2
    exact Prod.ext heq (htopk.trans htopk'.symm)
  have hsub : (geom.buckets.filter fun key => key.2 = topk).map Prod.fst ⊆ ladder.capacities := by
    intro cap hcap
    obtain ⟨key, hkey, rfl⟩ := List.mem_map.mp hcap
    exact hb.mem key (List.mem_of_mem_filter hkey)
  have hle := (List.subperm_of_subset hnodup hsub).length_le
  rwa [List.length_map, ladder.length_capacities] at hle

end Runs

/-! ## The ranks together -/

namespace LayerState

variable {V X : Type} (layer : LayerState V X)

theorem isLocal_iff (id : ℤ) :
    layer.isLocal id = true ↔ layer.lo ≤ id ∧ id < layer.lo + layer.eLocal := by
  rw [isLocal, Bool.and_eq_true, decide_eq_true_eq, decide_eq_true_eq]

theorem lo_nonneg : 0 ≤ layer.lo := mul_nonneg (Int.natCast_nonneg _) (Int.natCast_nonneg _)

/-- The local id of an expert of this rank is its distance from the first one, also as an
`int32`. -/
theorem localId_of_isLocal {id : ℤ} (h : layer.isLocal id = true) (hfits : id < 2 ^ 31) :
    layer.localId id = id - layer.lo := by
  obtain ⟨hlo, -⟩ := (layer.isLocal_iff id).mp h
  have hnonneg := layer.lo_nonneg
  rw [localId, if_pos h, toInt32]
  exact Int.bmod_eq_of_le (by norm_num; omega) (by norm_num; omega)

theorem localId_of_not_isLocal {id : ℤ} (h : ¬ layer.isLocal id = true) : layer.localId id = 0 := by
  rw [localId, if_neg h]
  rfl

/-- Whatever the router chose, the kernel is given the ids of experts there are. -/
theorem localId_mem {id : ℤ} (hfits : id < 2 ^ 31) :
    0 ≤ layer.localId id ∧ layer.localId id < layer.eLocal := by
  have hpos := layer.one_le_eLocal
  by_cases h : layer.isLocal id = true
  · rw [layer.localId_of_isLocal h hfits]
    obtain ⟨hlo, hhi⟩ := (layer.isLocal_iff id).mp h
    omega
  · rw [layer.localId_of_not_isLocal h]
    omega

end LayerState

section Shards

variable {V X : Type} (expert : ℕ → X → V) {eLocal : ℕ} (hone : 1 ≤ eLocal)

/-- The experts of a rank are those whose id is its own after division. -/
theorem isLocal_shard_iff (rank : ℕ) (id : ℤ) :
    (shard expert hone rank).isLocal id = true ↔ 0 ≤ id ∧ id.toNat / eLocal = rank := by
  have hlo : (shard expert hone rank).lo = ((rank * eLocal : ℕ) : ℤ) := (Nat.cast_mul ..).symm
  rw [LayerState.isLocal_iff, hlo, Nat.div_eq_iff hone,
    show (shard expert hone rank).eLocal = eLocal from rfl]
  omega

/-- **Every slot of an expert there is is counted by one rank, and no other slot by any.** -/
theorem existsUnique_isLocal_iff (epSize : ℕ) (id : ℤ) :
    (∃! rank, rank < epSize ∧ (shard expert hone rank).isLocal id = true) ↔
      0 ≤ id ∧ id < (epSize * eLocal : ℕ) := by
  simp only [isLocal_shard_iff]
  constructor
  · rintro ⟨rank, ⟨hrank, hnonneg, hdiv⟩, -⟩
    have hlt : id.toNat < epSize * eLocal := (Nat.div_lt_iff_lt_mul hone).mp (hdiv ▸ hrank)
    omega
  · rintro ⟨hnonneg, hlt⟩
    have hrank : id.toNat / eLocal < epSize :=
      (Nat.div_lt_iff_lt_mul hone).mpr (by omega)
    exact ⟨id.toNat / eLocal, ⟨hrank, hnonneg, rfl⟩, fun rank h => h.2.2.symm⟩

end Shards

section Ranks

variable {R V X : Type} [Semiring R] [AddCommMonoid V] [Module R V]
variable (expert : ℕ → X → V) {eLocal : ℕ} (hone : 1 ≤ eLocal)

/-- What a rank adds for a slot: the output of the slot's expert if it is its own, else nothing. -/
theorem localWeight_smul (rank : ℕ) {id : ℤ} (hfits : id < 2 ^ 31) (weight : R) (row : X) :
    (shard expert hone rank).localWeight id weight •
        (shard expert hone rank).experts ((shard expert hone rank).localId id).toNat row =
      if 0 ≤ id ∧ id.toNat / eLocal = rank then weight • expert id.toNat row else 0 := by
  by_cases h : (shard expert hone rank).isLocal id = true
  · have hrank := (isLocal_shard_iff expert hone rank id).mp h
    have hexpert : rank * eLocal + (id - (shard expert hone rank).lo).toNat = id.toNat := by
      have hlo : (shard expert hone rank).lo = ((rank * eLocal : ℕ) : ℤ) := (Nat.cast_mul ..).symm
      have hbound := ((shard expert hone rank).isLocal_iff id).mp h
      rw [hlo] at hbound ⊢
      omega
    rw [if_pos hrank, LayerState.localWeight, if_pos h, LayerState.localId_of_isLocal _ h hfits]
    exact congrArg (fun k => weight • expert k row) hexpert
  · rw [if_neg fun hrank => h ((isLocal_shard_iff expert hone rank id).mpr hrank),
      LayerState.localWeight, if_neg h, zero_smul]

/-- Over all ranks, a slot adds the output of its expert once. -/
theorem sum_localWeight_smul (epSize : ℕ) {id : ℤ} (hfits : id < 2 ^ 31) (weight : R) (row : X) :
    ∑ rank ∈ Finset.range epSize, (shard expert hone rank).localWeight id weight •
        (shard expert hone rank).experts ((shard expert hone rank).localId id).toNat row =
      if 0 ≤ id ∧ id < (epSize * eLocal : ℕ) then weight • expert id.toNat row else 0 := by
  have hiff : id.toNat / eLocal < epSize ↔ id.toNat < epSize * eLocal :=
    Nat.div_lt_iff_lt_mul hone
  rw [Finset.sum_congr rfl fun rank _ => localWeight_smul expert hone rank hfits weight row]
  by_cases hnonneg : 0 ≤ id
  · simp only [hnonneg, true_and, Finset.sum_ite_eq, Finset.mem_range, hiff]
    exact if_congr (by omega) rfl rfl
  · simp only [hnonneg, false_and, if_false, Finset.sum_const_zero]

/-- When every rank runs its share of the experts, their outputs add up to the output of the
layer. -/
theorem sum_run_shard (fm : FusedKernel R V X) (ladder : Ladder) (epSize : ℕ)
    (geoms : ℕ → GeometryState) (x : ℕ → X) (topk : TopkOutput R)
    (out : ℕ → GeometryState × (ℕ → V))
    (hrun : ∀ rank < epSize,
      (shard expert hone rank).run fm ladder (geoms rank) x topk = .ok (out rank)) (row : ℕ) :
    ∑ rank ∈ Finset.range epSize, (out rank).2 row =
      ∑ slot ∈ Finset.range topk.topk,
        if 0 ≤ topk.ids row slot ∧ topk.ids row slot < (epSize * eLocal : ℕ) then
          topk.weights row slot • expert (topk.ids row slot).toNat (x row)
        else 0 := by
  have hrank : ∀ rank ∈ Finset.range epSize, (out rank).2 row =
      ∑ slot ∈ Finset.range topk.topk,
        (shard expert hone rank).localWeight (topk.ids row slot) (topk.weights row slot) •
          (shard expert hone rank).experts
            ((shard expert hone rank).localId (topk.ids row slot)).toNat (x row) := by
    intro rank hmem
    obtain ⟨cap, -, -, hout⟩ :=
      LayerState.run_eq_ok fm ladder (hrun rank (Finset.mem_range.mp hmem))
    rw [hout]
    exact fm.run_eq _ _ _ _ _ _ fun slot _ => LayerState.localId_mem _ (topk.fits row slot).2
  rw [Finset.sum_congr rfl hrank, Finset.sum_comm]
  exact Finset.sum_congr rfl fun slot _ =>
    sum_localWeight_smul expert hone epSize (topk.fits row slot).2 _ _

/-- **The ranks' partial outputs add up to the weighted outputs of the slots' experts, each slot
counted by one rank; a batch gets the least capacity that holds it; and for each number of slots
the plans of all calls are at most the exact capacities and the rungs.** -/
theorem moe_b12x_exact (fm : FusedKernel R V X) (ladder : Ladder) (epSize : ℕ) :
    (∀ (geoms : ℕ → GeometryState) (x : ℕ → X) (topk : TopkOutput R)
      (out : ℕ → GeometryState × (ℕ → V)),
      (∀ rank < epSize,
        (shard expert hone rank).run fm ladder (geoms rank) x topk = .ok (out rank)) →
      ∀ row, ∑ rank ∈ Finset.range epSize, (out rank).2 row =
        ∑ slot ∈ Finset.range topk.topk,
          if 0 ≤ topk.ids row slot ∧ topk.ids row slot < (epSize * eLocal : ℕ) then
            topk.weights row slot • expert (topk.ids row slot).toNat (x row)
          else 0) ∧
    (∀ id : ℤ, (∃! rank, rank < epSize ∧ (shard expert hone rank).isLocal id = true) ↔
      0 ≤ id ∧ id < (epSize * eLocal : ℕ)) ∧
    (∀ (m : ℕ) (cap : ℤ), ladder.capFor m = some cap ↔
      IsLeast {c | ladder.Admissible c ∧ (m : ℤ) ≤ c} cap) ∧
    (∀ (m m' : ℕ) (cap' : ℤ), m ≤ m' → ladder.capFor m' = some cap' →
      ∃ cap, ladder.capFor m = some cap ∧ cap ≤ cap') ∧
    (∀ m : ℕ, ladder.capFor m = none ↔ ladder.maxCap < m) ∧
    (∀ (events : List (MoeEvent R V X)) (topk : ℕ),
      ((plansAfter fm ladder events).buckets.filter fun key => key.2 = topk).length ≤
        exactMax.toNat + ladder.rungs.length) := by
  refine ⟨?sum, ?once, ?least, ?mono, ?none, ?few⟩
  case sum =>
    intro geoms x topk out hrun row
    exact sum_run_shard expert hone fm ladder epSize geoms x topk out hrun row
  case once => exact existsUnique_isLocal_iff expert hone epSize
  case least => exact ladder.capFor_eq_some_iff
  case mono =>
    intro m m' cap' hm hcap'
    exact ladder.capFor_mono hm hcap'
  case none => exact fun m => ladder.capFor_eq_none_iff m
  case few => exact fun events topk => (plansAfter_bounded fm ladder events).length_le ladder topk

end Ranks

/-- Two ranks with two experts each: one slot is padding, one expert is chosen twice. -/
theorem moe_b12x_exact_two :
    ∃ topk : TopkOutput ℤ, ∃ out : ℕ → GeometryState × (ℕ → ℤ),
      (List.range 4).map (topk.ids 0) = [3, 0, -1, 3] ∧
      (∀ rank < 2,
        (shard (fun (id : ℕ) (row : ℤ) => (id + 1) * row) one_le_two rank).run
          default Ladder.capsA16 ⟨[]⟩ (fun _ => 5) topk = .ok (out rank)) ∧
      ∑ rank ∈ Finset.range 2, (out rank).2 0 = 1 * (4 * 5) + 2 * (1 * 5) + 4 * (4 * 5) := by
  have hfits : ∀ _ slot : ℕ, -2 ^ 31 ≤ [3, 0, -1, 3].getD slot (0 : ℤ) ∧
      [3, 0, -1, 3].getD slot (0 : ℤ) < 2 ^ 31 := by
    rintro - (_ | _ | _ | _ | slot) <;> simp
  let topk : TopkOutput ℤ :=
    ⟨1, 4, fun _ slot => [3, 0, -1, 3].getD slot 0, fun _ slot => slot + 1, hfits⟩
  let layer : ℕ → LayerState ℤ ℤ :=
    shard (fun (id : ℕ) (row : ℤ) => (id + 1) * row) one_le_two
  let out : ℕ → GeometryState × (ℕ → ℤ) := fun rank =>
    (⟨[(1, 4)]⟩, fun row =>
      (default : FusedKernel ℤ ℤ ℤ).run 2 (layer rank).experts 5 4
        (fun slot => (layer rank).localId (topk.ids row slot))
        (fun slot => (layer rank).localWeight (topk.ids row slot) (topk.weights row slot)))
  have hrun : ∀ rank < 2,
      (layer rank).run default Ladder.capsA16 ⟨[]⟩ (fun _ => 5) topk = .ok (out rank) :=
    fun _ _ => rfl
  have hsum := (moe_b12x_exact (fun (id : ℕ) (row : ℤ) => (id + 1) * row) one_le_two default
    Ladder.capsA16 2).1 (fun _ => ⟨[]⟩) (fun _ => 5) topk out hrun 0
  exact ⟨topk, out, rfl, hrun, hsum.trans rfl⟩

end LuzServing

import LuzServing.WeightScales

/-!
# The order of a checkpoint does not matter

The generator of dequantised tensors goes into the loop of `load_weights` tensor by tensor, and what
comes of the two is what comes of one after the other. So the tensors of a checkpoint may come in
any order (`load_weights_any_order`): the same goes to the parameters, or the loader fails for every
order; and the executor may run the loaders of the parameters in any order.
-/

namespace LuzServing

open TensorName StreamJoin

variable {R : Type} {cfg : LoaderConfig} {ops : TorchOps R}

namespace LoaderConfig

/-- The tensors that the loop sees: those of the checkpoint, or those that the generator yields. -/
def prepared (cfg : LoaderConfig) (ops : TorchOps R) (weights : List (NamedTensor R)) :
    Except LoadError (List (NamedTensor R)) :=
  if cfg.woAFp8 || cfg.expertPack then .ok weights else dequantFp8WoAStreaming ops weights

/-- What the loop sees has the names of the checkpoint, each once at most. -/
theorem nodup_half_prepared {weights ys : List (NamedTensor R)}
    (hnames : (weights.map Prod.fst).Nodup)
    (hhalf : ((weights.map Prod.fst).filterMap cfg.halfName).Nodup)
    (h : cfg.prepared ops weights = .ok ys) :
    ((ys.map Prod.fst).filterMap cfg.halfName).Nodup := by
  rw [prepared] at h
  split_ifs at h
  · cases h
    exact hhalf
  · obtain ⟨pairs, rest, hpairs, hys⟩ := exists_dequantised_of_streaming hnames h
    have hsub : (pairs.map fun p => (WoAPair.yielded p).1).Sublist
        ((pairs.flatMap fun p => [p.weightEntry, p.scaleEntry]).map Prod.fst) := by
      clear hpairs hys
      induction pairs with
      | nil => exact .slnil
      | cons p pairs ih => exact .cons_cons _ (.cons _ ih)
    have hperm : ((ys.map Prod.fst).filterMap cfg.halfName).Perm
        (((pairs.map WoAPair.yielded ++ rest).map Prod.fst).filterMap cfg.halfName) :=
      (hys.map Prod.fst).filterMap _
    have hperm' : ((weights.map Prod.fst).filterMap cfg.halfName).Perm
        ((((pairs.flatMap fun p => [p.weightEntry, p.scaleEntry]) ++ rest).map
          Prod.fst).filterMap cfg.halfName) := (hpairs.perm.map Prod.fst).filterMap _
    refine hperm.nodup_iff.mpr (List.Sublist.nodup ?_ (hperm'.nodup_iff.mp hhalf))
    refine List.Sublist.filterMap _ ?_
    rw [List.map_append, List.map_append, List.map_map]
    exact hsub.append (.refl _)

theorem prepared_perm {weights weights' ys : List (NamedTensor R)} (hp : weights.Perm weights')
    (hnames : (weights.map Prod.fst).Nodup) (h : cfg.prepared ops weights = .ok ys) :
    ∃ ys', cfg.prepared ops weights' = .ok ys' ∧ ys.Perm ys' := by
  rw [prepared] at h
  rw [prepared]
  split_ifs at h ⊢
  · cases h
    exact ⟨weights', rfl, hp⟩
  · exact dequantFp8WoAStreaming_perm hp hnames h

variable [DecidableEq R]

/-- What comes at the end goes on in the loop, too. -/
theorem foldlM_leftover_eq_ok_iff {saw : Bool} {entries : List (TensorName × Bucket R)}
    {s s' : LoadState R} :
    entries.foldlM (fun s e => do (← woALeftover saw e).foldlM (cfg.loadStep ops) s) s = .ok s' ↔
      ∃ left, entries.mapM (woALeftover saw) = .ok left ∧
        left.flatten.foldlM (cfg.loadStep ops) s = .ok s' := by
  induction entries generalizing s with
  | nil =>
    constructor
    · exact fun h => ⟨[], rfl, h⟩
    · rintro ⟨left, hleft, h⟩
      cases hleft
      exact h
  | cons e entries ih =>
    rw [List.foldlM_cons, bind_eq_ok_iff]
    constructor
    · rintro ⟨s₁, he, hrest⟩
      obtain ⟨ys, hys, he⟩ := bind_eq_ok_iff.mp he
      obtain ⟨left, hleft, hrest⟩ := ih.mp hrest
      refine ⟨ys :: left, ?_, ?_⟩
      · exact mapM_eq_ok_iff.mpr (.cons hys (mapM_eq_ok_iff.mp hleft))
      · rw [List.flatten_cons, List.foldlM_append]
        exact bind_eq_ok_iff.mpr ⟨s₁, he, hrest⟩
    · rintro ⟨all, hall, h⟩
      obtain ⟨ys, left, hys, hleft, rfl⟩ :=
        List.forall₂_cons_left_iff.mp (mapM_eq_ok_iff.mp hall)
      rw [List.flatten_cons, List.foldlM_append] at h
      obtain ⟨s₁, he, hrest⟩ := bind_eq_ok_iff.mp h
      exact ⟨s₁, bind_eq_ok_iff.mpr ⟨ys, hys, he⟩, ih.mpr ⟨left, mapM_eq_ok_iff.mpr hleft, hrest⟩⟩

/-- The generator and the loop, of which each runs inside the other, come to what one after the
other comes to. -/
theorem loadWeights_eq_ok_iff {weights : List (NamedTensor R)} {loads : List (Load R)} :
    cfg.loadWeights ops weights = .ok loads ↔
      cfg.checkLayers = .ok () ∧ ∃ ys, cfg.prepared ops weights = .ok ys ∧
        (ys.foldlM (cfg.loadStep ops) .start >>= finishLoad) = .ok loads := by
  rw [loadWeights, prepared, bind_eq_ok_iff]
  constructor
  · rintro ⟨_, hcheck, h⟩
    refine ⟨hcheck, ?_⟩
    split_ifs at h ⊢
    · exact ⟨weights, rfl, h⟩
    · obtain ⟨⟨t, s⟩, hpipe, h⟩ := bind_eq_ok_iff.mp h
      obtain ⟨s', hleft, hfinish⟩ := bind_eq_ok_iff.mp h
      obtain ⟨ys, hgather, hloop⟩ := foldlM_pipeStep_eq_ok.mp hpipe
      obtain ⟨left, hleft, hrest⟩ := foldlM_leftover_eq_ok_iff.mp hleft
      refine ⟨ys ++ left.flatten, ?_, ?_⟩
      · exact bind_eq_ok_iff.mpr ⟨_, hgather, bind_eq_ok_iff.mpr ⟨left, hleft, rfl⟩⟩
      · rw [List.foldlM_append]
        exact bind_eq_ok_iff.mpr ⟨s', bind_eq_ok_iff.mpr ⟨s, hloop, hrest⟩, hfinish⟩
  · rintro ⟨hcheck, ys, hys, h⟩
    refine ⟨(), hcheck, ?_⟩
    split_ifs at hys ⊢
    · cases hys
      exact h
    · obtain ⟨⟨t, yielded⟩, hgather, hys⟩ := bind_eq_ok_iff.mp hys
      obtain ⟨left, hleft, hys⟩ := bind_eq_ok_iff.mp hys
      cases hys
      rw [List.foldlM_append] at h
      obtain ⟨s', hloop, hfinish⟩ := bind_eq_ok_iff.mp h
      obtain ⟨s, hloop, hrest⟩ := bind_eq_ok_iff.mp hloop
      refine bind_eq_ok_iff.mpr ⟨(t, s), foldlM_pipeStep_eq_ok.mpr ⟨yielded, hgather, hloop⟩, ?_⟩
      exact bind_eq_ok_iff.mpr
        ⟨s', foldlM_leftover_eq_ok_iff.mpr ⟨left, hleft, hrest⟩, hfinish⟩

end LoaderConfig

variable [DecidableEq R]

/-- Where a tensor is written. -/
def Load.place (load : Load R) : TensorName × Shard := (load.param, load.shard)

/-- Two tensors do not overlap: they are of different parameters, or different shards of one. The
whole of a parameter overlaps each of its shards. -/
def Load.Apart (a b : Load R) : Prop :=
  a.param = b.param → a.shard ≠ .whole ∧ b.shard ≠ .whole ∧ a.shard ≠ b.shard

omit [DecidableEq R] in
theorem Load.nodup_place {loads : List (Load R)} (h : loads.Pairwise Load.Apart) :
    (loads.map Load.place).Nodup := by
  refine List.pairwise_map.mpr (h.imp fun {a b} hapart heq => ?_)
  obtain ⟨hparam, hshard⟩ := Prod.mk.inj heq
  exact (hapart hparam).2.2 hshard

/-- **A checkpoint may come in any order**: where its names differ and none is a half of a fused
parameter twice, the same tensors go to the same parameters, and the loader fails for one order when
it fails for another. The loaders of the parameters may run in any order, too, unless two tensors
overlap. -/
theorem load_weights_any_order {weights weights' : List (NamedTensor R)}
    (hp : weights.Perm weights') (hnames : (weights.map Prod.fst).Nodup)
    (hhalf : ((weights.map Prod.fst).filterMap cfg.halfName).Nodup) {loads : List (Load R)}
    (h : cfg.loadWeights ops weights = .ok loads) :
    ∃ loads', cfg.loadWeights ops weights' = .ok loads' ∧ loads.Perm loads' ∧
      (loads.Pairwise Load.Apart →
        ∀ done done' : List (Load R), done.Perm loads → done'.Perm loads' →
          ∀ params : TensorName × Shard → Option (WeightTensor R),
            storeAll params (done.map fun load => (load.place, some load.tensor)) =
              storeAll params (done'.map fun load => (load.place, some load.tensor))) := by
  obtain ⟨hcheck, ys, hys, hloads⟩ := LoaderConfig.loadWeights_eq_ok_iff.mp h
  obtain ⟨ys', hys', hperm⟩ := LoaderConfig.prepared_perm hp hnames hys
  obtain ⟨loads', hloads', hsame⟩ := LoaderConfig.foldlM_finishLoad_perm hperm
    (LoaderConfig.nodup_halfOf_classify (LoaderConfig.nodup_half_prepared hnames hhalf hys)) hloads
  refine ⟨loads', LoaderConfig.loadWeights_eq_ok_iff.mpr ⟨hcheck, ys', hys', hloads'⟩, hsame, ?_⟩
  intro hapart done done' hdone hdone' params
  have hstores : (done.map fun load => (load.place, some load.tensor)).Perm
      (done'.map fun load => (load.place, some load.tensor)) :=
    (hdone.trans (hsame.trans hdone'.symm)).map _
  refine storeAll_perm hstores ?_ params
  rw [List.map_map]
  exact ((hdone.map Load.place).nodup_iff).mpr (Load.nodup_place hapart)

/-- A rank that has all of a model of one layer. -/
def smallLoader : LoaderConfig where
  params := ["model.layers.0.self_attn.wqkv_a.weight".toList,
    "model.layers.0.self_attn.wo_a.weight".toList]
  isNextn := false
  numNextnPredictLayers := some 1
  numHiddenLayers := 1
  nRoutedExperts := 8
  numFusedSharedExperts := 0
  expertParamsMapping := []
  isDsv41 := true
  hasVision := false
  getLayerId := fun _ => some 0
  layers := some (0, 1)
  isFirstRank := true
  isLastRank := true
  fuseWqaWkv := true
  isNpu := false
  woAFp8 := false
  expertPack := false

theorem load_weights_any_order_checkpoint : ∃ loads',
    smallLoader.loadWeights natOps smallCheckpoint.reverse = .ok loads' ∧
      loads'.Perm [⟨"model.layers.0.self_attn.wqkv_a.weight".toList, .whole,
          { dtype := .bfloat16, width := 1, rows := [[3], [1]], rect := by decide }⟩,
        ⟨"model.layers.0.self_attn.wo_a.weight".toList, .whole, cellOf .bfloat16 10⟩] := by
  have hhalf : ((smallCheckpoint.map Prod.fst).filterMap smallLoader.halfName).Nodup := by
    decide +kernel
  have hloads : smallLoader.loadWeights natOps smallCheckpoint =
      .ok [⟨"model.layers.0.self_attn.wqkv_a.weight".toList, .whole,
          { dtype := .bfloat16, width := 1, rows := [[3], [1]], rect := by decide }⟩,
        ⟨"model.layers.0.self_attn.wo_a.weight".toList, .whole, cellOf .bfloat16 10⟩] := by rfl
  obtain ⟨loads', hloads', hperm, -⟩ := load_weights_any_order
    (List.reverse_perm smallCheckpoint).symm (by decide +kernel) hhalf hloads
  exact ⟨loads', hloads', hperm.symm⟩

end LuzServing

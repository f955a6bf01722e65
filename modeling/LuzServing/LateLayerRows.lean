import LuzServing.LateLayers

/-!
# Which rows the late layers run over

The tail of a batch is the last 128 rows of each request that is kept (`tailOf`), request
after request, wherever these are in the batch: a kept request's rows are shifted from the
subset's numbering to the batch's (`subsetTail_tokenIndices`), and the slice that a batch of
one request uses instead is the same rows (`fullTail_rows`). The loop over the layers runs
the early ones over the whole batch and the late ones over the tail (`runLayers_eq`).
-/

namespace LuzServing

section

variable {layout : TailLayout} (b : ExtendBatch)

/-- The tail rows of a request: its last 128. -/
def tailOf (r : ℕ) : List ℕ :=
  (List.range (min swaWindow (b.extendLens r))).map fun k =>
    segStart b.extendLens r + (b.extendLens r - min swaWindow (b.extendLens r)) + k

/-- A row of a request is in its tail when fewer than 128 follow up to the last. -/
theorem mem_tailOf {r j : ℕ} (hj : j < b.extendLens r) :
    segStart b.extendLens r + j ∈ tailOf b r ↔ b.extendLens r ≤ j + swaWindow := by
  rw [tailOf, List.mem_map]
  constructor
  · rintro ⟨k, hk, heq⟩
    rw [List.mem_range] at hk
    omega
  · intro hle
    exact ⟨j - (b.extendLens r - min swaWindow (b.extendLens r)),
      List.mem_range.mpr (by omega), by omega⟩

/-- The requests a mask keeps; without one, all. -/
def keptOf (finalReqMask : Option (List Bool)) : List ℕ :=
  match finalReqMask with
  | some mask => keptReqs mask
  | none => List.range b.bs

/-- Before a kept request there are no more rows among the kept ones than in the batch. -/
theorem segStart_kept_le {keep : List ℕ} (hkeep : keep.Pairwise (· < ·)) {k : ℕ}
    (hk : k < keep.length) :
    segStart (fun k => b.extendLens (keep.getD k 0)) k ≤ segStart b.extendLens (keep.getD k 0) := by
  induction k with
  | zero => exact Nat.zero_le _
  | succ k ih =>
    have hk' : k < keep.length := by omega
    have hlt : keep.getD k 0 < keep.getD (k + 1) 0 := by
      rw [List.getD_eq_getElem _ _ hk', List.getD_eq_getElem _ _ hk]
      exact List.pairwise_iff_getElem.mp hkeep k (k + 1) hk' hk (Nat.lt_succ_self k)
    rw [segStart_succ]
    exact (Nat.add_le_add_right (ih hk') _).trans (segStart_add_le hlt)

/-- **The subset's tail** lists the tails of the kept requests, in the order of the batch. -/
theorem subsetTail_tokenIndices (hlayout : IsTailLayout layout) {keep : List ℕ}
    (hkeep : keep.Pairwise (· < ·)) :
    (subsetTail layout b keep).tokenIndices = keep.flatMap (tailOf b) := by
  have hlens := segRows_congr fun r (hr : r < keep.length) =>
    hlayout.lens keep.length (fun k => b.extendLens (keep.getD k 0))
      (fun k => b.seqLens (keep.getD k 0)) swaWindow r hr
  simp only [subsetTail]
  rw [hlens, hlayout.rows, zipWith_segRows _ _ fun r _ => by simp,
    ← range_flatMap_getD keep (tailOf b)]
  refine List.flatMap_congr fun k hk => ?_
  have hle := segStart_kept_le b hkeep (List.mem_range.mp hk)
  rw [tailOf, List.map_map]
  refine List.map_congr_left fun j _ => ?_
  dsimp only [Function.comp_apply]
  omega

/-- **The full tail** lists the tails of all the requests, in the order of the batch. -/
theorem fullTail_tokenIndices (hlayout : IsTailLayout layout) :
    (fullTail layout b).tokenIndices = (List.range b.bs).flatMap (tailOf b) :=
  hlayout.rows ..

/-- A tail that is not one contiguous run takes from the whole batch the rows at its indices. -/
theorem rows_of_gather {t : LateLayerTail} (hstart : t.contiguousStart = none) {n : ℕ}
    (hlt : ∀ i ∈ t.tokenIndices, i < n) : t.rows (List.range n) = t.tokenIndices := by
  rw [LateLayerTail.rows, hstart]
  dsimp only
  conv_rhs => rw [← List.map_id t.tokenIndices]
  refine List.map_congr_left fun i hi => ?_
  rw [List.getD_eq_getElem _ _ (by simpa using hlt i hi), List.getElem_range, id]

/-- The rows of a request's tail are rows of the batch, so gathering them is in bounds. -/
theorem tailOf_lt {r i : ℕ} (hr : r < b.bs) (hi : i ∈ tailOf b r) : i < b.numRows := by
  obtain ⟨k, hk, rfl⟩ := List.mem_map.mp hi
  have hk := List.mem_range.mp hk
  have hle : segStart b.extendLens r + b.extendLens r ≤ segStart b.extendLens b.bs :=
    segStart_add_le hr
  rw [ExtendBatch.numRows]
  omega

/-- The full tail has the rows of all the tails, whether it gathers them or takes them as one
slice. -/
theorem fullTail_rows (hlayout : IsTailLayout layout) :
    (fullTail layout b).rows (List.range b.numRows) = (List.range b.bs).flatMap (tailOf b) := by
  by_cases hbs : b.bs = 1
  · have hlen := hlayout.lens b.bs b.extendLens b.seqLens swaWindow 0 (by omega)
    have hstart : (fullTail layout b).contiguousStart =
        some (b.extendLens 0 - min swaWindow (b.extendLens 0)) := by
      rw [← hlen]
      exact if_pos hbs
    rw [LateLayerTail.rows, hstart, ExtendBatch.numRows, hbs]
    dsimp only
    rw [List.range_eq_range', List.drop_range']
    simp only [List.range_one, List.flatMap_cons, List.flatMap_nil, List.append_nil, tailOf,
      segStart_succ, segStart_zero, Nat.zero_add, Nat.mul_one]
    rw [List.range'_eq_map_range, show b.extendLens 0 -
      (b.extendLens 0 - min swaWindow (b.extendLens 0)) = min swaWindow (b.extendLens 0) by omega]
  · rw [rows_of_gather (if_neg hbs), fullTail_tokenIndices b hlayout]
    intro i hi
    rw [fullTail_tokenIndices b hlayout] at hi
    obtain ⟨r, hr, hi⟩ := List.mem_flatMap.mp hi
    exact tailOf_lt b (List.mem_range.mp hr) hi

/-- The kept requests are listed in the order in which the batch has them. -/
theorem pairwise_keptReqs (mask : List Bool) : (keptReqs mask).Pairwise (· < ·) :=
  List.pairwise_lt_range.filter _

/-- A request of the batch is kept exactly when the mask marks it. -/
theorem mem_keptReqs {mask : List Bool} {r : ℕ} :
    r ∈ keptReqs mask ↔ mask.getD r false = true := by
  rw [keptReqs, List.mem_filter, List.mem_range]
  refine ⟨fun h => h.2, fun h => ⟨?_, h⟩⟩
  by_contra hlt
  rw [List.getD_eq_default _ _ (not_lt.mp hlt)] at h
  exact absurd h (by decide)

/-- **The late layers' rows** are the tails of the requests that are kept. -/
theorem buildLateLayerTail_rows (hlayout : IsTailLayout layout) {mask : Option (List Bool)}
    (hmask : ∀ m ∈ mask, m.length = b.bs) :
    (buildLateLayerTail layout b mask).rows (List.range b.numRows) =
      (keptOf b mask).flatMap (tailOf b) := by
  cases mask with
  | none => exact fullTail_rows b hlayout
  | some m =>
    have hm := hmask m rfl
    simp only [buildLateLayerTail, keptOf]
    split
    next hall =>
      have hkept : keptReqs m = List.range b.bs := by
        rw [keptReqs, hm]
        refine List.filter_eq_self.mpr fun r hr => ?_
        have hr : r < m.length := hm ▸ List.mem_range.mp hr
        rw [List.getD_eq_getElem _ _ hr]
        exact List.all_eq_true.mp hall _ (List.getElem_mem hr)
      rw [fullTail_rows b hlayout, hkept]
    next =>
      have hlt : ∀ i ∈ (subsetTail layout b (keptReqs m)).tokenIndices, i < b.numRows := by
        intro i hi
        rw [subsetTail_tokenIndices b hlayout (pairwise_keptReqs m)] at hi
        obtain ⟨r, hr, hi⟩ := List.mem_flatMap.mp hi
        have hr := List.mem_range.mp (List.mem_filter.mp hr).1
        exact tailOf_lt b (hm ▸ hr) hi
      rw [rows_of_gather rfl hlt, subsetTail_tokenIndices b hlayout (pairwise_keptReqs m)]

/-! ## The loop over the layers -/

/-- The rows of the late layers. -/
def lateRows (tail : Option LateLayerTail) (all : List ℕ) : List ℕ :=
  match tail with
  | some t => t.rows all
  | none => all

theorem runLayers_cons {K : Type} (m : LateLayerModel) (tail : Option LateLayerTail)
    (skip : Bool) (newK : ℕ → ℕ → K) (i : ℕ) (layers rows : List ℕ) (cache : WindowCache K) :
    runLayers m b tail skip newK (i :: layers) rows cache =
      if skip && decide (m.lateLayerStart ≤ i) then cache
      else
        let rows := if i = m.lateLayerStart then lateRows tail rows else rows
        runLayers m b tail skip newK layers rows
          (Function.update cache i (writeRows b (newK i) rows (cache i))) := by
  cases tail <;> rfl

/-- The loop, from layer `s` on: the early layers run over the whole batch, the late ones
over the tail, or not at all. -/
theorem runLayers_eq {K : Type} (m : LateLayerModel) (tail : Option LateLayerTail) (skip : Bool)
    (newK : ℕ → ℕ → K) (all : List ℕ) (n s : ℕ) (cache : WindowCache K) (i : ℕ) :
    runLayers m b tail skip newK (List.range' s n)
        (if s ≤ m.lateLayerStart then all else lateRows tail all) cache i =
      if s ≤ i ∧ i < s + n ∧ ¬(skip = true ∧ m.lateLayerStart ≤ i) then
        writeRows b (newK i) (if m.lateLayerStart ≤ i then lateRows tail all else all) (cache i)
      else cache i := by
  induction n generalizing s cache with
  | zero => exact (if_neg fun h => by omega).symm
  | succ n ih =>
    rw [List.range'_succ, runLayers_cons]
    split
    next hskip =>
      rw [Bool.and_eq_true, decide_eq_true_eq] at hskip
      rw [if_neg fun h => h.2.2 ⟨hskip.1, hskip.2.trans h.1⟩]
    next hrun =>
      rw [Bool.and_eq_true, decide_eq_true_eq] at hrun
      -- the rows of layer `s`, and those handed on to layer `s + 1`
      have hrows : (if s = m.lateLayerStart then
          lateRows tail (if s ≤ m.lateLayerStart then all else lateRows tail all)
          else if s ≤ m.lateLayerStart then all else lateRows tail all) =
          if m.lateLayerStart ≤ s then lateRows tail all else all := by
        rcases lt_trichotomy s m.lateLayerStart with hlt | heq | hgt
        · rw [if_neg hlt.ne, if_pos hlt.le, if_neg (not_le.mpr hlt)]
        · rw [if_pos heq, if_pos heq.le, if_pos heq.ge]
        · rw [if_neg hgt.ne', if_neg (not_le.mpr hgt), if_pos hgt.le]
      have hnext : (if m.lateLayerStart ≤ s then lateRows tail all else all) =
          if s + 1 ≤ m.lateLayerStart then all else lateRows tail all := by
        by_cases hle : m.lateLayerStart ≤ s
        · rw [if_pos hle, if_neg (by omega)]
        · rw [if_neg hle, if_pos (by omega)]
      dsimp only
      rw [hrows]
      conv_lhs => rw [hnext]
      rw [ih]
      by_cases his : i = s
      · subst his
        have hnow : i ≤ i ∧ i < i + (n + 1) ∧ ¬(skip = true ∧ m.lateLayerStart ≤ i) :=
          ⟨le_rfl, by omega, hrun⟩
        rw [if_neg fun h => by omega, if_pos hnow, Function.update_self, ← hnext]
      · rw [Function.update_of_ne his]
        refine if_congr ?_ rfl rfl
        constructor
        · exact fun ⟨h₁, h₂, h₃⟩ => ⟨by omega, by omega, h₃⟩
        · exact fun ⟨h₁, h₂, h₃⟩ => ⟨by omega, by omega, h₃⟩

/-- **What an extend leaves in a late layer**: the K of the tail rows of the requests that
are kept. -/
theorem extendForward_late {K : Type} (hlayout : IsTailLayout layout) {m : LateLayerModel}
    {skipNonfinal : Bool} (hmask : ∀ mask ∈ b.lastChunkMask, mask.length = b.bs)
    {newK : ℕ → ℕ → K} {cache cache' : WindowCache K}
    (hrun : extendForward layout m skipNonfinal b newK cache = .ok cache') {i : ℕ}
    (hlate : m.lateLayerStart ≤ i) (hi : i < m.numLayers) :
    cache' i = writeRows b (newK i)
      ((keptOf b (if skipNonfinal then b.lastChunkMask else none)).flatMap (tailOf b))
      (cache i) := by
  obtain ⟨mask, hmaskdef⟩ : ∃ mask, (if skipNonfinal then b.lastChunkMask else none) = mask :=
    ⟨_, rfl⟩
  have hlen : ∀ mk ∈ mask, mk.length = b.bs := by
    intro mk hmk
    cases skipNonfinal with
    | true =>
      rw [if_pos rfl] at hmaskdef
      exact hmask mk (hmaskdef ▸ hmk)
    | false =>
      rw [if_neg Bool.false_ne_true] at hmaskdef
      exact absurd (hmaskdef ▸ hmk) (Option.not_mem_none mk)
  obtain ⟨hcheck, hcache⟩ : checkLateLayerTailReaders b = .ok () ∧
      runLayers m b (initForwardMetadata layout b skipNonfinal).1
        (initForwardMetadata layout b skipNonfinal).2 newK (List.range m.numLayers)
        (List.range b.numRows) cache = cache' := by
    rw [extendForward] at hrun
    cases hcheck : checkLateLayerTailReaders b with
    | error e => simp [hcheck, bind, Except.bind] at hrun
    | ok _ => 
      simp only [hcheck, bind, Except.bind, pure, Except.pure, Except.ok.injEq] at hrun
      exact ⟨rfl, hrun⟩
  have hloop := runLayers_eq b m (initForwardMetadata layout b skipNonfinal).1
    (initForwardMetadata layout b skipNonfinal).2 newK (List.range b.numRows) m.numLayers 0 cache i
  rw [if_pos (Nat.zero_le _), ← List.range_eq_range', hcache] at hloop
  rw [hloop, if_pos hlate, initForwardMetadata, hmaskdef]
  clear hmaskdef hloop
  cases hm : mask with
  | none =>
    rw [hm] at hlen
    rw [if_pos ⟨Nat.zero_le _, by omega, by simp⟩]
    exact congrArg (writeRows b (newK i) · (cache i)) (buildLateLayerTail_rows b hlayout hlen)
  | some mk =>
    rw [hm] at hlen
    dsimp only
    split
    next hany =>
      rw [if_pos ⟨Nat.zero_le _, by omega, by simp⟩]
      exact congrArg (writeRows b (newK i) · (cache i)) (buildLateLayerTail_rows b hlayout hlen)
    next hany =>
      -- nobody is kept
      have hkept : keptOf b (some mk) = [] := by
        refine List.filter_eq_nil_iff.mpr fun r hr hget => hany ?_
        have hr := List.mem_range.mp hr
        rw [List.getD_eq_getElem _ _ hr] at hget
        exact List.any_eq_true.mpr ⟨_, List.getElem_mem hr, hget⟩
      rw [if_neg (by simp [hlate]), hkept]
      rfl

end

end LuzServing

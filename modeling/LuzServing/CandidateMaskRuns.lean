import LuzServing.CandidateMaskRows
import LuzServing.LateLayerRuns

/-!
# When the candidate masks are the consumers' own

The rows before the switch to the tail lie request after request (`fullView_laid`), and so
do those after it (`tailView_laid`). The loop over the index layers hands a consumer the
masks that the source left, cut at the switch (`runIndexLayers_iff`), so the forward is right
when every consumer that runs is.

Two consumers are not. The dense source, in a batch all of whose requests are kept,
publishes the tail rows only, which a consumer before the switch takes for all the rows. The
torch consumer after the switch counts the requests that are kept, where the masks are still
one for each request of the batch. `candidate_masks_iff` says that nothing else goes wrong.
-/

namespace LuzServing

/-! ## The views -/

/-- A batch that is extended: different requests, each with new tokens, and a mark for each
when there are marks. -/
structure ExtendBatch.Proper (b : ExtendBatch) : Prop where
  /-- no request is there twice -/
  reqs_inj : ∀ r r', r < b.bs → r' < b.bs → b.reqs r = b.reqs r' → r = r'
  /-- each has new tokens -/
  extendLens_pos : ∀ r, r < b.bs → 0 < b.extendLens r
  /-- which are its last ones -/
  extendLens_le : ∀ r, r < b.bs → b.extendLens r ≤ b.seqLens r
  /-- a mark for each -/
  length_mask : ∀ mask ∈ b.lastChunkMask, mask.length = b.bs

section

variable {b : ExtendBatch} {layout : TailLayout}

/-- A row of a request, by its place in the batch and its position. -/
theorem row_position {r j : ℕ} (hr : r < b.bs) (hj : j < b.extendLens r) :
    b.row (segStart b.extendLens r + j) = r ∧
      b.position (segStart b.extendLens r + j) = b.seqLens r - b.extendLens r + j := by
  have hrow : b.row (segStart b.extendLens r + j) = r := getD_segRows hr hj 0
  refine ⟨hrow, ?_⟩
  rw [ExtendBatch.position, hrow, Nat.add_sub_cancel_left]

/-- **The rows before the switch** lie request after request, at the positions that they have. -/
theorem fullView_laid (hb : b.Proper) : (fullView b).Laid b where
  qLens_le := hb.extendLens_le
  numTokens := rfl
  id r j hr hj := by
    obtain ⟨hrow, hpos⟩ := row_position hr hj
    exact Prod.ext hrow hpos

/-- How many tail rows a request has. -/
def tailLen (b : ExtendBatch) (mask : Option (List Bool)) (r : ℕ) : ℕ :=
  if r ∈ keptOf b mask then min swaWindow (b.extendLens r) else 0

theorem tailLen_le (mask : Option (List Bool)) (r : ℕ) : tailLen b mask r ≤ b.extendLens r := by
  rw [tailLen]
  split
  next => exact min_le_right _ _
  next => exact Nat.zero_le _

theorem tailLen_of_mem {mask : Option (List Bool)} {r : ℕ} (hr : r ∈ keptOf b mask) :
    tailLen b mask r = min swaWindow (b.extendLens r) := if_pos hr

/-- A request that has rows in the tail is one of the requests that are kept. -/
theorem mem_of_tailLen_pos {mask : Option (List Bool)} {r : ℕ} (h : 0 < tailLen b mask r) :
    r ∈ keptOf b mask := by
  by_contra hnot
  rw [tailLen, if_neg hnot] at h
  exact absurd h (lt_irrefl 0)

/-- The requests that are kept are among the batch's, in its order. -/
theorem keptOf_eq_filter {mask : Option (List Bool)} (hmask : ∀ mk ∈ mask, mk.length = b.bs) :
    keptOf b mask = (List.range b.bs).filter fun r => decide (r ∈ keptOf b mask) := by
  cases mask with
  | none =>
    refine (List.filter_eq_self.mpr fun r hr => ?_).symm
    exact decide_eq_true hr
  | some mk =>
    have hlen := hmask mk rfl
    conv_lhs => rw [keptOf, keptReqs, hlen]
    refine List.filter_congr fun r _ => Bool.eq_iff_iff.mpr ?_
    rw [decide_eq_true_eq]
    exact mem_keptReqs.symm

/-- The requests that are kept are requests of the batch, if the mask is as long as the batch. -/
theorem lt_of_mem_keptOf {mask : Option (List Bool)} (hmask : ∀ mk ∈ mask, mk.length = b.bs)
    {r : ℕ} (hr : r ∈ keptOf b mask) : r < b.bs := by
  rw [keptOf_eq_filter hmask] at hr
  exact List.mem_range.mp (List.mem_filter.mp hr).1

/-- The tail rows, request after request: a dropped request has none. -/
theorem flatMap_keptOf {mask : Option (List Bool)} (hmask : ∀ mk ∈ mask, mk.length = b.bs) :
    (keptOf b mask).flatMap (tailOf b) =
      (List.range b.bs).flatMap fun r => if r ∈ keptOf b mask then tailOf b r else [] := by
  conv_lhs => rw [keptOf_eq_filter hmask, flatMap_filter_ite]
  simp only [decide_eq_true_eq]

/-- The tail is every request's, or that of the requests that are kept. -/
theorem buildLateLayerTail_cases (layout : TailLayout) {mask : Option (List Bool)}
    (hmask : ∀ mk ∈ mask, mk.length = b.bs) :
    ((∀ r, r < b.bs → r ∈ keptOf b mask) ∧
      buildLateLayerTail layout b mask = fullTail layout b) ∨
    ((¬∀ r, r < b.bs → r ∈ keptOf b mask) ∧
      buildLateLayerTail layout b mask = subsetTail layout b (keptOf b mask)) := by
  cases mask with
  | none => exact .inl ⟨fun r hr => List.mem_range.mpr hr, rfl⟩
  | some mk =>
    have hlen := hmask mk rfl
    have hall : mk.all id = true ↔ ∀ r, r < b.bs → r ∈ keptOf b (some mk) := by
      rw [List.all_eq_true, ← hlen]
      constructor
      · intro h r hr
        refine mem_keptReqs.mpr ?_
        rw [List.getD_eq_getElem _ _ hr]
        exact h _ (List.getElem_mem hr)
      · intro h x hx
        obtain ⟨r, hr, rfl⟩ := List.getElem_of_mem hx
        have := mem_keptReqs.mp (h r hr)
        rwa [List.getD_eq_getElem _ _ hr] at this
    rw [buildLateLayerTail, ← hall]
    split
    next h => exact .inl ⟨h, rfl⟩
    next h => exact .inr ⟨h, rfl⟩

/-- The lengths by which the dense indexer goes through the batch. -/
theorem tail_lens (hlayout : IsTailLayout layout) {mask : Option (List Bool)}
    (hmask : ∀ mk ∈ mask, mk.length = b.bs) {r : ℕ} (hr : r < b.bs) :
    (buildLateLayerTail layout b mask).fullBatchTailLens.getD
      (buildLateLayerTail layout b mask).extendSeqLens r = tailLen b mask r := by
  rcases buildLateLayerTail_cases layout hmask with ⟨hall, htail⟩ | ⟨-, htail⟩
  · rw [htail, tailLen_of_mem (hall r hr)]
    exact hlayout.lens _ _ _ _ r hr
  · rw [htail]
    obtain ⟨keep, hkeep⟩ : ∃ keep, keptOf b mask = keep := ⟨_, rfl⟩
    have hnodup : keep.Nodup := by
      rw [← hkeep, keptOf_eq_filter hmask]
      exact List.nodup_range.filter _
    rw [tailLen, hkeep]
    dsimp only [subsetTail, Option.getD_some]
    split
    next hmem =>
      obtain ⟨k, hk, hget⟩ := List.getElem_of_mem hmem
      have hkr : keep.getD k 0 = r := by rw [List.getD_eq_getElem _ _ hk, hget]
      have hstore := storeAll_map_eq (m := fun _ => 0) (fun k => keep.getD k 0)
        (layout keep.length (fun k => b.extendLens (keep.getD k 0))
          (fun k => b.seqLens (keep.getD k 0)) swaWindow).2
        (List.mem_range.mpr hk) fun k' hk' heq => by
          have hk' := List.mem_range.mp hk'
          rw [List.getD_eq_getElem _ _ hk', List.getD_eq_getElem _ _ hk] at heq
          rw [(List.Nodup.getElem_inj_iff hnodup).mp heq]
      rw [hkr, hlayout.lens _ _ _ _ k hk, hkr] at hstore
      exact hstore
    next hnot =>
      refine storeAll_map_of_ne fun k hk heq => hnot ?_
      have hk := List.mem_range.mp hk
      rw [← heq, List.getD_eq_getElem _ _ hk]
      exact List.getElem_mem hk

/-- The tail has as many requests as the batch when all are kept. -/
theorem numReqs_iff (layout : TailLayout) {mask : Option (List Bool)}
    (hmask : ∀ mk ∈ mask, mk.length = b.bs) :
    (buildLateLayerTail layout b mask).numReqs = b.bs ↔ ∀ r, r < b.bs → r ∈ keptOf b mask := by
  rcases buildLateLayerTail_cases layout hmask with ⟨hall, htail⟩ | ⟨hnot, htail⟩
  · rw [htail]
    exact iff_of_true rfl hall
  · rw [htail]
    refine iff_of_false (fun hlen => hnot fun r hr => ?_) hnot
    have hlen : (keptOf b mask).length = b.bs := hlen
    rw [keptOf_eq_filter hmask] at hlen ⊢
    rw [List.filter_sublist.eq_of_length (by rw [hlen, List.length_range])]
    exact List.mem_range.mpr hr

/-- The switch cuts the mask at every request's place to the request's tail rows. -/
theorem enterLateLayerTail_get (hlayout : IsTailLayout layout) {mask : Option (List Bool)}
    (hmask : ∀ mk ∈ mask, mk.length = b.bs) {masks : List CandidateMask} {r : ℕ}
    (hr : r < b.bs) {mk : CandidateMask} (hget : masks[r]? = some mk) :
    (enterLateLayerTail b (buildLateLayerTail layout b mask) masks)[r]? =
      some (cutMask mk (tailLen b mask r)) := by
  have hlens := tail_lens hlayout hmask hr
  rw [enterLateLayerTail, List.getElem?_zipWith, hget]
  rcases buildLateLayerTail_cases layout hmask with ⟨hall, htail⟩ | ⟨-, htail⟩
  · rw [htail] at hlens ⊢
    simp only [fullTail, List.getElem?_map, List.getElem?_range hr, Option.map_some]
    rw [← hlens]
    rfl
  · rw [htail] at hlens ⊢
    simp only [subsetTail, List.getElem?_map, List.getElem?_range hr, Option.map_some]
    rw [← hlens]
    rfl

/-- **The rows after the switch** lie request after request, too, at the positions of the tail. -/
theorem tailView_laid (hlayout : IsTailLayout layout) (hb : b.Proper)
    {mask : Option (List Bool)} (hmask : ∀ mk ∈ mask, mk.length = b.bs) :
    (tailView b (buildLateLayerTail layout b mask)).Laid b := by
  have hq : ∀ r, r < b.bs →
      (tailView b (buildLateLayerTail layout b mask)).qLens r = tailLen b mask r :=
    fun r hr => tail_lens hlayout hmask hr
  have hrows : (buildLateLayerTail layout b mask).rows (List.range b.numRows) =
      (List.range b.bs).flatMap fun r => if r ∈ keptOf b mask then tailOf b r else [] := by
    rw [buildLateLayerTail_rows b hlayout hmask, flatMap_keptOf hmask]
  have hlen : ∀ r, r < b.bs →
      (if r ∈ keptOf b mask then tailOf b r else []).length = tailLen b mask r := by
    intro r _
    rw [tailLen]
    split
    next => simp [tailOf]
    next => rfl
  refine ⟨fun r hr => ?_, ?_, fun r j hr hj => ?_⟩
  · rw [hq r hr]
    exact (tailLen_le mask r).trans (hb.extendLens_le r hr)
  · rw [segStart_congr hq, ← length_flatMap_range hlen, ← hrows]
    rfl
  · rw [hq r hr] at hj
    have hle := tailLen_le (b := b) mask r
    have hkept := mem_of_tailLen_pos (Nat.zero_lt_of_lt hj)
    have hget := getD_flatMap_range hlen hr hj 0
    rw [if_pos hkept, tailOf, ← tailLen_of_mem hkept, getD_map_range _ hj] at hget
    have hid : (tailView b (buildLateLayerTail layout b mask)).id (segStart
        (tailView b (buildLateLayerTail layout b mask)).qLens r + j) =
        (b.row (segStart b.extendLens r + (b.extendLens r - tailLen b mask r + j)),
          b.position (segStart b.extendLens r + (b.extendLens r - tailLen b mask r + j))) := by
      rw [segStart_congr fun r' hr' => hq r' (hr'.trans hr), ← Nat.add_assoc, ← hget, ← hrows]
      rfl
    obtain ⟨hrow, hpos⟩ := row_position (b := b) (j := b.extendLens r - tailLen b mask r + j) hr
      (by omega)
    have hbound := hb.extendLens_le r hr
    rw [hid, hrow, hpos, hq r hr]
    exact Prod.ext rfl (by dsimp only; omega)

end

/-! ## The loop over the index layers -/

section

variable (path : IndexerPath) (cfg : IndexerConfig) (b : ExtendBatch) (m : IndexModel)
  (tail : Option LateLayerTail) (skip : Bool)

/-- The rows after the switch. -/
def lateView : IndexView :=
  match tail with
  | some t => tailView b t
  | none => fullView b

/-- What the switch makes of the masks. -/
def lateMasks (masks : List CandidateMask) : List CandidateMask :=
  match tail with
  | some t => enterLateLayerTail b t masks
  | none => masks

/-- The rows that a layer runs over. -/
def viewAt (i : ℕ) : IndexView := if i < m.lateLayerStart then fullView b else lateView b tail

/-- The masks that a layer after the source finds. -/
def masksAt (i : ℕ) : List CandidateMask :=
  if m.source < m.lateLayerStart then
    if i < m.lateLayerStart then publish path cfg b tail (fullView b)
    else lateMasks b tail (publish path cfg b tail (fullView b))
  else publish path cfg b tail (lateView b tail)

/-- A layer is a consumer that is run. -/
def runsAt (i : ℕ) : Bool := m.usesCandidates i && !(skip && decide (m.lateLayerStart ≤ i))

/-- **The consumers of some layers are right**: each that is run returns, and is right. -/
def EachRight (layers : List ℕ) (run : Except String (List (ℕ × List RowFilter))) : Prop :=
  ∃ out, run = .ok out ∧ out.map Prod.fst = layers.filter (runsAt m skip) ∧
    ∀ x ∈ out, IsRight cfg b (viewAt b m tail x.1) x.2

/-- The layer finds filters for the rows that it works on, and they are the right ones. -/
def ConsumerRight (i : ℕ) : Prop :=
  ∃ filters, consume path cfg b (viewAt b m tail i) (masksAt path cfg b m tail i) = .ok filters ∧
    IsRight cfg b (viewAt b m tail i) filters

variable {path cfg b m tail skip}

/-- The switch to the tail, at the layer where it is. -/
theorem switch_eq (i : ℕ) (v : IndexView) (masks : List CandidateMask) :
    v = (if i ≤ m.lateLayerStart then fullView b else lateView b tail) →
    (if i = m.lateLayerStart then
      match tail with
      | some t => (tailView b t, enterLateLayerTail b t masks)
      | none => (v, masks)
    else (v, masks)) =
      (viewAt b m tail i, if i = m.lateLayerStart then lateMasks b tail masks else masks) := by
  intro hv
  rw [viewAt]
  rcases lt_trichotomy i m.lateLayerStart with hlt | heq | hgt
  · rw [if_neg hlt.ne, if_neg hlt.ne, if_pos hlt, hv, if_pos hlt.le]
  · rw [if_pos heq, if_pos heq, if_neg heq.not_lt]
    cases tail with
    | none => rw [hv, if_pos heq.le]; rfl
    | some t => rfl
  · rw [if_neg hgt.ne', if_neg hgt.ne', if_neg hgt.le.not_gt, hv, if_neg (not_le.mpr hgt)]

/-- A layer that is run: after the switch, if it is there, it publishes, consumes or does
neither. -/
theorem runIndexLayers_cons {i : ℕ} (layers : List ℕ) {v : IndexView}
    (masks : List CandidateMask) (hrun : (skip && decide (m.lateLayerStart ≤ i)) = false)
    (hv : v = if i ≤ m.lateLayerStart then fullView b else lateView b tail) :
    runIndexLayers path cfg b m tail skip (i :: layers) v masks =
      let masks := if i = m.lateLayerStart then lateMasks b tail masks else masks
      if i = m.source then
        runIndexLayers path cfg b m tail skip layers (viewAt b m tail i)
          (publish path cfg b tail (viewAt b m tail i))
      else if m.usesCandidates i then do
        let filters ← consume path cfg b (viewAt b m tail i) masks
        let rest ← runIndexLayers path cfg b m tail skip layers (viewAt b m tail i) masks
        pure ((i, filters) :: rest)
      else runIndexLayers path cfg b m tail skip layers (viewAt b m tail i) masks := by
  have hswitch := switch_eq i v masks hv
  rw [runIndexLayers.eq_def]
  dsimp only
  rw [hrun, if_neg Bool.false_ne_true]
  cases tail with
  | none => rw [hswitch]
  | some t => rw [hswitch]

/-- The masks that the layer after the source finds are those that the source publishes, cut at
the switch. -/
theorem masksAt_source :
    (if m.source + 1 = m.lateLayerStart then
        lateMasks b tail (publish path cfg b tail (viewAt b m tail m.source))
      else publish path cfg b tail (viewAt b m tail m.source)) =
      masksAt path cfg b m tail (m.source + 1) := by
  rw [viewAt, masksAt]
  by_cases hearly : m.source < m.lateLayerStart
  · rw [if_pos hearly, if_pos hearly]
    rcases Nat.lt_or_ge (m.source + 1) m.lateLayerStart with hlt | hge
    · rw [if_neg hlt.ne, if_pos hlt]
    · rw [if_pos (by omega), if_neg (by omega)]
  · rw [if_neg hearly, if_neg hearly, if_neg (by omega)]

/-- The masks that a later layer finds are those that the layer before it found, cut at the
switch. -/
theorem masksAt_succ {s : ℕ} (hsource : m.source < s) :
    (if s + 1 = m.lateLayerStart then lateMasks b tail (masksAt path cfg b m tail s)
      else masksAt path cfg b m tail s) = masksAt path cfg b m tail (s + 1) := by
  rw [masksAt, masksAt]
  by_cases hearly : m.source < m.lateLayerStart
  · rw [if_pos hearly, if_pos hearly]
    rcases lt_trichotomy (s + 1) m.lateLayerStart with hlt | heq | hgt
    · rw [if_neg hlt.ne, if_pos (by omega), if_pos hlt]
    · rw [if_pos heq, if_pos (by omega), if_neg (by omega)]
    · rw [if_neg hgt.ne', if_neg (by omega), if_neg (by omega)]
  · rw [if_neg hearly, if_neg hearly, if_neg (by omega)]

/-- A layer that is no consumer, or is not run, leaves nothing. -/
theorem eachRight_cons_of_not_runs {s : ℕ} {layers : List ℕ}
    {run : Except String (List (ℕ × List RowFilter))} (hruns : runsAt m skip s = false) :
    EachRight cfg b m tail skip (s :: layers) run ↔ EachRight cfg b m tail skip layers run := by
  rw [EachRight, EachRight, List.filter_cons, hruns, if_neg Bool.false_ne_true]

/-- Where none of the layers is run, there is no consumer that could be filtered in a wrong way. -/
theorem eachRight_nil {layers : List ℕ} (hruns : ∀ i ∈ layers, runsAt m skip i = false) :
    EachRight cfg b m tail skip layers (.ok []) := by
  refine ⟨[], rfl, (List.filter_eq_nil_iff.mpr fun i hi => ?_).symm, fun x hx => ?_⟩
  · rw [hruns i hi]
    exact Bool.false_ne_true
  · cases hx

/-- A consumer that is run has to be right, and so have those after it. -/
theorem eachRight_cons_of_runs {s : ℕ} {layers : List ℕ}
    {run : Except String (List (ℕ × List RowFilter))} (hruns : runsAt m skip s = true) :
    EachRight cfg b m tail skip (s :: layers) (do
        let filters ← consume path cfg b (viewAt b m tail s) (masksAt path cfg b m tail s)
        let rest ← run
        pure ((s, filters) :: rest)) ↔
      ConsumerRight path cfg b m tail s ∧ EachRight cfg b m tail skip layers run := by
  have hfilter : (s :: layers).filter (runsAt m skip) = s :: layers.filter (runsAt m skip) := by
    rw [List.filter_cons, hruns, if_pos rfl]
  cases hcons : consume path cfg b (viewAt b m tail s) (masksAt path cfg b m tail s) with
  | error e =>
    constructor
    · rintro ⟨out, hout, -⟩
      cases hout
    · rintro ⟨⟨filters, hok, -⟩, -⟩
      rw [hcons] at hok
      cases hok
  | ok filters =>
    cases run with
    | error e =>
      constructor
      · rintro ⟨out, hout, -⟩
        cases hout
      · rintro ⟨-, ⟨out, hout, -⟩⟩
        cases hout
    | ok rest =>
      constructor
      · rintro ⟨out, hout, hfst, hright⟩
        obtain rfl := Except.ok.inj hout
        rw [hfilter, List.map_cons, List.cons.injEq] at hfst
        exact ⟨⟨filters, hcons, hright _ (List.mem_cons_self ..)⟩,
          rest, rfl, hfst.2, fun x hx => hright x (List.mem_cons_of_mem _ hx)⟩
      · rintro ⟨⟨filters', hok, hs⟩, out, hout, hfst, hright⟩
        rw [hcons] at hok
        obtain rfl := Except.ok.inj hok
        obtain rfl := Except.ok.inj hout
        refine ⟨_, rfl, by rw [hfilter, List.map_cons, hfst], fun x hx => ?_⟩
        rcases List.mem_cons.mp hx with rfl | hx
        · exact hs
        · exact hright x hx

/-- The layers from `s` on are `s` and those after it. -/
theorem forall_layers_succ {P : ℕ → Prop} {s n : ℕ} :
    (∀ i, s ≤ i → i < s + (n + 1) → P i) ↔
      P s ∧ ∀ i, s + 1 ≤ i → i < s + 1 + n → P i := by
  constructor
  · intro h
    exact ⟨h s le_rfl (by omega), fun i hle hlt => h i (by omega) (by omega)⟩
  · rintro ⟨hs, h⟩ i hle hlt
    rcases Nat.eq_or_lt_of_le hle with rfl | hlt'
    · exact hs
    · exact h i hlt' (by omega)

/-- **The loop, from layer `s` on**: it is right when every consumer that is run finds its
masks. -/
theorem runIndexLayers_iff (n s : ℕ) {v : IndexView} {masks : List CandidateMask}
    (hv : v = if s ≤ m.lateLayerStart then fullView b else lateView b tail)
    (hmasks : m.source < s → (if s = m.lateLayerStart then lateMasks b tail masks else masks) =
      masksAt path cfg b m tail s) :
    EachRight cfg b m tail skip (List.range' s n)
        (runIndexLayers path cfg b m tail skip (List.range' s n) v masks) ↔
      ∀ i, s ≤ i → i < s + n → runsAt m skip i = true → ConsumerRight path cfg b m tail i := by
  induction n generalizing s v masks with
  | zero => exact ⟨fun _ i hle hlt => absurd hle (by omega), fun _ => eachRight_nil (by simp)⟩
  | succ n ih =>
    cases hskip : skip && decide (m.lateLayerStart ≤ s) with
    | true =>
      -- the loop ends here: the layers from here on are late, and skipped
      have hnone : ∀ i, s ≤ i → runsAt m skip i = false := by
        intro i hle
        rw [Bool.and_eq_true, decide_eq_true_eq] at hskip
        rw [runsAt, hskip.1, decide_eq_true (hskip.2.trans hle)]
        simp
      have hrun : runIndexLayers path cfg b m tail skip (List.range' s (n + 1)) v masks =
          .ok [] := by
        rw [List.range'_succ, runIndexLayers.eq_def]
        dsimp only
        rw [hskip, if_pos rfl]
      rw [hrun]
      refine ⟨fun _ i hle _ hruns => ?_, fun _ => eachRight_nil fun i hi => ?_⟩
      · rw [hnone i hle] at hruns
        exact absurd hruns Bool.false_ne_true
      · exact hnone i (List.mem_range'_1.mp hi).1
    | false =>
      have hruns : runsAt m skip s = m.usesCandidates s := by
        rw [runsAt, hskip, Bool.not_false, Bool.and_true]
      have hview : viewAt b m tail s =
          if s + 1 ≤ m.lateLayerStart then fullView b else lateView b tail := rfl
      rw [List.range'_succ, runIndexLayers_cons _ masks hskip hv, forall_layers_succ]
      dsimp only
      by_cases hsource : s = m.source
      · have hnot : runsAt m skip s = false := by
          rw [hruns]
          refine Bool.eq_false_iff.mpr fun huses => ?_
          exact absurd (m.source_lt s huses) (by omega)
        rw [if_pos hsource, eachRight_cons_of_not_runs hnot,
          ih (s + 1) hview fun _ => hsource ▸ masksAt_source]
        exact (and_iff_right fun h => absurd (hnot.symm.trans h) Bool.false_ne_true).symm
      · rw [if_neg hsource]
        cases huses : m.usesCandidates s with
        | false =>
          have hnot : runsAt m skip s = false := hruns.trans huses
          have hnext : m.source < s + 1 → (if s + 1 = m.lateLayerStart then
              lateMasks b tail (if s = m.lateLayerStart then lateMasks b tail masks else masks)
              else if s = m.lateLayerStart then lateMasks b tail masks else masks) =
              masksAt path cfg b m tail (s + 1) := by
            intro hlt
            have hlt : m.source < s := by omega
            rw [hmasks hlt]
            exact masksAt_succ hlt
          rw [if_neg Bool.false_ne_true, eachRight_cons_of_not_runs hnot, ih (s + 1) hview hnext]
          exact (and_iff_right fun h => absurd (hnot.symm.trans h) Bool.false_ne_true).symm
        | true =>
          have hlt := m.source_lt s huses
          rw [hmasks hlt, if_pos rfl, eachRight_cons_of_runs (hruns.trans huses),
            ih (s + 1) hview fun _ => masksAt_succ hlt]
          exact and_congr_left fun _ => ⟨fun h _ => h, fun h => h (hruns.trans huses)⟩

end

/-! ## Masks that were published, and cut -/

section

variable {cfg : IndexerConfig} {b : ExtendBatch} {v : IndexView}

/-- A request's mask, cut to its last rows, is the mask of these. -/
theorem cutMask_reqMask {r n t : ℕ} (hle : t ≤ n) (hn : n ≤ b.seqLens r) :
    cutMask (reqMask cfg b r n) t = reqMask cfg b r t := by
  have hlen : (reqMask cfg b r n).rows.length = n := by simp [reqMask]
  rw [cutMask, hlen, if_pos hle, reqMask, reqMask]
  congr 1
  rw [← List.map_drop, List.range_eq_range', List.drop_range', List.range'_eq_map_range,
    List.map_map, Nat.sub_sub_self hle]
  refine List.map_congr_left fun j _ => congrArg some (Prod.ext rfl ?_)
  dsimp only
  omega

/-- The first row of a request's mask is the one of the first of its last `n` positions. -/
theorem reqMask_first {r n : ℕ} (hn : 0 < n) :
    (reqMask cfg b r n).rows.getD 0 none = some (r, b.seqLens r - n) := by
  rw [reqMask, getD_map_range _ hn]
  rfl

/-- A mask whose rows are a request's begins with no other request's row. -/
theorem cutMask_first {mk : CandidateMask} {k t r p : ℕ}
    (hrows : ∀ x ∈ mk.rows, ∃ q, x = some (k, q)) (hne : k ≠ r) :
    (cutMask mk t).rows.getD 0 none ≠ some (r, p) := by
  intro heq
  rw [cutMask, List.getD_eq_getElem?_getD] at heq
  dsimp only at heq
  cases hget : (mk.rows.drop (if t ≤ mk.rows.length then mk.rows.length - t
      else 2 * mk.rows.length - t))[0]? with
  | none =>
    rw [hget] at heq
    cases heq
  | some x =>
    obtain ⟨q, rfl⟩ := hrows x (List.mem_of_mem_drop (List.mem_of_getElem? hget))
    rw [hget] at heq
    exact hne (congrArg Prod.fst (Option.some.inj heq))

/-- **The dense consumer**, of masks of the last rows of the requests: it is right when
these are all the rows that it has. -/
theorem denseConsume_iff (hv : v.Laid b) {masks : List CandidateMask} {n : ℕ → ℕ}
    (hn : ∀ r, r < b.bs → 0 < v.qLens r → 0 < n r ∧ n r ≤ v.qLens r)
    (hmasks : ∀ r, r < b.bs → 0 < lcPerReq cfg b r → 0 < v.qLens r →
      masks[r]? = some (reqMask cfg b r (n r))) :
    (∃ filters, denseConsume cfg b v masks = .ok filters ∧ IsRight cfg b v filters) ↔
      ∀ r, r < b.bs → 0 < lcPerReq cfg b r → 0 < v.qLens r → n r = v.qLens r := by
  constructor
  · intro hright r hr hlc hq
    by_contra hne
    obtain ⟨hpos, hle⟩ := hn r hr hq
    have hseq := hv.qLens_le r hr
    refine denseConsume_wrong hv hr hlc hq (hmasks r hr hlc hq) ?_ hright
    rw [reqMask_first hpos]
    intro heq
    have heq := congrArg Prod.snd (Option.some.inj heq)
    dsimp only at heq
    omega
  · intro hall
    refine denseConsume_right hv fun r hr hlc hq => ?_
    rw [hmasks r hr hlc hq, hall r hr hlc hq]

/-- The rows of a mask that the torch source leaves are its request's. -/
theorem reqMask_rows (r n : ℕ) :
    ∀ x ∈ (if lcPerReq cfg b r = 0 then emptyMask else reqMask cfg b r n).rows,
      ∃ q, x = some (r, q) := by
  intro x hx
  split at hx
  next => exact absurd hx List.not_mem_nil
  next =>
    obtain ⟨j, -, rfl⟩ := List.mem_map.mp hx
    exact ⟨_, rfl⟩

end

/-! ## The consumers -/

section

variable {cfg : IndexerConfig} {b : ExtendBatch} {m : IndexModel} {layout : TailLayout}

/-- **The masks reach their rows**: every consumer of an extend forward that is run filters
the rows by their own mask rows, whatever masks are left over from before. -/
def MasksRight (path : IndexerPath) (cfg : IndexerConfig) (b : ExtendBatch) (layout : TailLayout)
    (m : IndexModel) (skipNonfinal : Bool) (masks : List CandidateMask) : Prop :=
  EachRight cfg b m (initForwardMetadata layout b skipNonfinal).1
    (initForwardMetadata layout b skipNonfinal).2 (List.range m.numLayers)
    (runIndexers path cfg b layout m skipNonfinal masks)

/-- **What it takes.** Dense: no consumer before the switch, or a request that is dropped, or
none that has more than 128 new tokens and sees a compressed position. Torch: no consumer
after the switch of masks from before it, or no request that is dropped before one that is
kept and sees a compressed position. -/
def MasksAligned (path : IndexerPath) (cfg : IndexerConfig) (b : ExtendBatch) (m : IndexModel)
    (skipNonfinal : Bool) : Prop :=
  let kept := keptOf b (if skipNonfinal then b.lastChunkMask else none)
  match path with
  | .dense => ∀ i, i < m.numLayers → m.usesCandidates i = true → i < m.lateLayerStart →
      (∀ r, r < b.bs → r ∈ kept) →
        ∀ r, r < b.bs → 0 < lcPerReq cfg b r → b.extendLens r ≤ swaWindow
  | .torch => ∀ i, i < m.numLayers → m.usesCandidates i = true → m.lateLayerStart ≤ i →
      m.source < m.lateLayerStart →
        ∀ r ∈ kept, 0 < lcPerReq cfg b r → ∀ r', r' < r → r' ∈ kept

variable {mask : Option (List Bool)}

/-- The dense source publishes the rows of the tail, if every request is kept, and all rows else. -/
theorem pubRowsOf_eq (hlayout : IsTailLayout layout) (hmask : ∀ mk ∈ mask, mk.length = b.bs)
    (v : IndexView) {r : ℕ} (hr : r < b.bs) :
    pubRowsOf b v (some (buildLateLayerTail layout b mask)) r =
      if ∀ r, r < b.bs → r ∈ keptOf b mask then min (tailLen b mask r) (v.qLens r)
      else v.qLens r := by
  have hnum := numReqs_iff layout hmask
  rw [pubRowsOf, publishRowsPerReq]
  by_cases hall : ∀ r, r < b.bs → r ∈ keptOf b mask
  · have hlens := tail_lens hlayout hmask hr
    rw [if_pos (hnum.mpr hall), if_pos hall, ← hlens]
    rcases buildLateLayerTail_cases layout hmask with ⟨-, htail⟩ | ⟨hnot, -⟩
    · rw [htail]
      rfl
    · exact absurd hall hnot
  · rw [if_neg (mt hnum.mp hall), if_neg hall]
    rfl

/-- A consumer before the switch finds what the source leaves of all the rows. -/
theorem consumerRight_early {path : IndexerPath} {tail : Option LateLayerTail} {i : ℕ}
    (hi : i < m.lateLayerStart) (hsource : m.source < i) :
    ConsumerRight path cfg b m tail i ↔ ∃ filters,
      consume path cfg b (fullView b) (publish path cfg b tail (fullView b)) = .ok filters ∧
        IsRight cfg b (fullView b) filters := by
  rw [ConsumerRight, viewAt, masksAt, if_pos hi, if_pos (hsource.trans hi), if_pos hi]

/-- A dense consumer before the switch is right exactly if the masks have the rows that it
slices. -/
theorem dense_early (hlayout : IsTailLayout layout) (hb : b.Proper)
    (hmask : ∀ mk ∈ mask, mk.length = b.bs) {i : ℕ} (hi : i < m.lateLayerStart)
    (hsource : m.source < i) :
    ConsumerRight .dense cfg b m (some (buildLateLayerTail layout b mask)) i ↔
      ((∀ r, r < b.bs → r ∈ keptOf b mask) →
        ∀ r, r < b.bs → 0 < lcPerReq cfg b r → b.extendLens r ≤ swaWindow) := by
  have hv := fullView_laid hb
  rw [consumerRight_early hi hsource]
  refine (denseConsume_iff hv (n := pubRowsOf b (fullView b)
    (some (buildLateLayerTail layout b mask))) (fun r hr hq => ?_)
    fun r hr hlc hq => densePublish_get hv _ hr hlc hq).trans ?_
  · rw [pubRowsOf_eq hlayout hmask _ hr]
    split
    next hall =>
      rw [tailLen_of_mem (hall r hr)]
      exact ⟨lt_min (lt_min (by decide) hq) hq, min_le_right _ _⟩
    next => exact ⟨hq, le_rfl⟩
  · have hrow : ∀ r, r < b.bs →
        (pubRowsOf b (fullView b) (some (buildLateLayerTail layout b mask)) r = b.extendLens r ↔
          ((∀ r, r < b.bs → r ∈ keptOf b mask) → b.extendLens r ≤ swaWindow)) := by
      intro r hr
      rw [pubRowsOf_eq hlayout hmask _ hr]
      split
      next hall =>
        rw [tailLen_of_mem (hall r hr)]
        have hq : (fullView b).qLens r = b.extendLens r := rfl
        rw [hq]
        refine ⟨fun h _ => by omega, fun h => ?_⟩
        have := h hall
        omega
      next hnot => exact iff_of_true rfl fun hall => absurd hall hnot
    constructor
    · exact fun h hall r hr hlc => (hrow r hr).mp (h r hr hlc (hb.extendLens_pos r hr)) hall
    · exact fun h r hr hlc _ => (hrow r hr).mpr fun hall => h hall r hr hlc

/-- A dense consumer after the switch is always right: the masks have the rows of the tail. -/
theorem dense_late (hlayout : IsTailLayout layout) (hb : b.Proper)
    (hmask : ∀ mk ∈ mask, mk.length = b.bs) {i : ℕ} (hi : m.lateLayerStart ≤ i) :
    ConsumerRight .dense cfg b m (some (buildLateLayerTail layout b mask)) i := by
  have hlate := tailView_laid hlayout hb hmask
  have hq : ∀ r, r < b.bs →
      (tailView b (buildLateLayerTail layout b mask)).qLens r = tailLen b mask r :=
    fun r hr => tail_lens hlayout hmask hr
  rw [ConsumerRight, viewAt, masksAt, if_neg (not_lt.mpr hi)]
  by_cases hsource : m.source < m.lateLayerStart
  · -- the source is before the switch, and its masks were cut
    rw [if_pos hsource, if_neg (not_lt.mpr hi)]
    refine denseConsume_right hlate fun r hr hlc hpos => ?_
    have hlt := hb.extendLens_pos r hr
    have hseq := hb.extendLens_le r hr
    have hle := tailLen_le (b := b) mask r
    have hpub := pubRowsOf_eq hlayout hmask (fullView b) hr
    have hfull : (fullView b).qLens r = b.extendLens r := rfl
    have hcut := enterLateLayerTail_get hlayout hmask hr (densePublish_get (fullView_laid hb)
      (some (buildLateLayerTail layout b mask)) hr hlc hlt)
    rw [hfull] at hpub
    rw [cutMask_reqMask] at hcut
    · exact hcut.trans (by rw [hq r hr])
    · rw [hpub]
      split <;> omega
    · rw [hpub]
      split <;> omega
  · -- the source is after the switch, with the same rows
    rw [if_neg hsource]
    refine denseConsume_right hlate fun r hr hlc hpos => ?_
    refine (densePublish_get hlate _ hr hlc hpos).trans ?_
    rw [pubRowsOf_eq hlayout hmask _ hr]
    split
    next =>
      rw [← hq r hr, min_self]
    next => rfl

/-- A torch consumer on the side of the switch where the source is. -/
theorem torch_same (hb : b.Proper) {tail : Option LateLayerTail} {v : IndexView} (hv : v.Laid b) :
    ∃ filters, consume .torch cfg b v (publish .torch cfg b tail v) = .ok filters ∧
      IsRight cfg b v filters := by
  refine torchConsume_right hv hb.reqs_inj fun k r hk hlc => ?_
  rw [publish, torchPublish_eq hv hb.reqs_inj, List.getElem?_map, hk, Option.map_some,
    if_neg (by omega)]

/-- A torch consumer after the switch, of masks from before it: the masks are one for each
request of the batch, and the consumer counts those that are kept. -/
theorem torch_across (hlayout : IsTailLayout layout) (hb : b.Proper)
    (hmask : ∀ mk ∈ mask, mk.length = b.bs) {i : ℕ} (hi : m.lateLayerStart ≤ i)
    (hsource : m.source < m.lateLayerStart) :
    ConsumerRight .torch cfg b m (some (buildLateLayerTail layout b mask)) i ↔
      ∀ r ∈ keptOf b mask, 0 < lcPerReq cfg b r → ∀ r', r' < r → r' ∈ keptOf b mask := by
  have hlate := tailView_laid hlayout hb hmask
  have hq : ∀ r, r < b.bs →
      (tailView b (buildLateLayerTail layout b mask)).qLens r = tailLen b mask r :=
    fun r hr => tail_lens hlayout hmask hr
  -- the requests that have rows, after the switch and before it
  have hkept : reqsOf b (tailView b (buildLateLayerTail layout b mask)) =
      (List.range b.bs).filter fun r => decide (r ∈ keptOf b mask) := by
    refine List.filter_congr fun r hr => ?_
    have hr := List.mem_range.mp hr
    rw [hq r hr]
    refine decide_eq_decide.mpr ⟨mem_of_tailLen_pos, fun hmem => ?_⟩
    rw [tailLen_of_mem hmem]
    exact lt_min (by decide) (hb.extendLens_pos r hr)
  have hall : reqsOf b (fullView b) = List.range b.bs :=
    List.filter_eq_self.mpr fun r hr =>
      decide_eq_true (hb.extendLens_pos r (List.mem_range.mp hr))
  have hplace : ∀ {k r : ℕ},
      (reqsOf b (tailView b (buildLateLayerTail layout b mask)))[k]? = some r →
        r ∈ keptOf b mask ∧ k < b.bs ∧ (r = k ↔ ∀ r', r' < r → r' ∈ keptOf b mask) := by
    intro k r hk
    rw [hkept] at hk
    have hself := getElem?_filter_range_self hk
    simp only [decide_eq_true_eq] at hself
    refine ⟨?_, ?_, hself⟩
    · simpa using (List.mem_filter.mp (List.mem_of_getElem? hk)).2
    · have hlen := (List.getElem?_eq_some_iff.mp hk).1
      have hle := List.length_filter_le (fun r => decide (r ∈ keptOf b mask)) (List.range b.bs)
      rw [List.length_range] at hle
      omega
  have hmasks : ∀ k, k < b.bs → (enterLateLayerTail b (buildLateLayerTail layout b mask)
      (torchPublish cfg b (fullView b)))[k]? = some (cutMask (if lcPerReq cfg b k = 0 then emptyMask
        else reqMask cfg b k (b.extendLens k)) (tailLen b mask k)) := by
    intro k hk
    refine enterLateLayerTail_get hlayout hmask hk ?_
    rw [torchPublish_eq (fullView_laid hb) hb.reqs_inj, hall, List.getElem?_map,
      List.getElem?_range hk]
    rfl
  rw [ConsumerRight, viewAt, masksAt, if_neg (not_lt.mpr hi), if_pos hsource,
    if_neg (not_lt.mpr hi)]
  constructor
  · intro hright r hr hlc
    have hmem : r ∈ reqsOf b (tailView b (buildLateLayerTail layout b mask)) := by
      rw [hkept, ← keptOf_eq_filter hmask]
      exact hr
    obtain ⟨k, hklt, hget⟩ := List.getElem_of_mem hmem
    have hk := List.getElem?_eq_some_iff.mpr ⟨hklt, hget⟩
    obtain ⟨-, hkbs, hself⟩ := hplace hk
    refine hself.mp (by_contra fun hne => ?_)
    refine torchConsume_wrong hlate hb.reqs_inj hk hlc (hmasks k hkbs) ?_ hright
    exact cutMask_first (reqMask_rows k _) (Ne.symm hne)
  · intro hfirst
    refine torchConsume_right hlate hb.reqs_inj fun k r hk hlc => ?_
    obtain ⟨hr, hkbs, hself⟩ := hplace hk
    obtain rfl := hself.mpr (hfirst r hr hlc)
    refine (hmasks r hkbs).trans ?_
    rw [if_neg (by omega), cutMask_reqMask (tailLen_le mask r) (hb.extendLens_le r hkbs),
      hq r hkbs]

/-- The mask that decides about the tail has a mark for each request. -/
theorem length_finalReqMask (hb : b.Proper) {skipNonfinal : Bool}
    (hdef : (if skipNonfinal then b.lastChunkMask else none) = mask) :
    ∀ mk ∈ mask, mk.length = b.bs := by
  intro mk hmk
  rw [← hdef] at hmk
  cases skipNonfinal with
  | true => exact hb.length_mask mk hmk
  | false => exact absurd hmk (Option.not_mem_none mk)

/-- The forward has a tail, or it skips the late layers and no request is kept. -/
theorem initForwardMetadata_cases (layout : TailLayout) (b : ExtendBatch) {skipNonfinal : Bool}
    (hdef : (if skipNonfinal then b.lastChunkMask else none) = mask) :
    initForwardMetadata layout b skipNonfinal = (some (buildLateLayerTail layout b mask), false) ∨
      initForwardMetadata layout b skipNonfinal = (none, true) ∧ keptOf b mask = [] := by
  rw [initForwardMetadata, hdef]
  clear hdef
  cases mask with
  | none => exact .inl rfl
  | some mk =>
    dsimp only
    split
    next => exact .inl rfl
    next hany =>
      refine .inr ⟨rfl, List.filter_eq_nil_iff.mpr fun r hr hget => hany ?_⟩
      have hr := List.mem_range.mp hr
      rw [List.getD_eq_getElem _ _ hr] at hget
      exact List.any_eq_true.mpr ⟨_, List.getElem_mem hr, hget⟩

/-- Where the late layers are skipped, every consumer that is run is right. -/
theorem skipped_right (hb : b.Proper) (path : IndexerPath) {i : ℕ}
    (hruns : runsAt m true i = true) : ConsumerRight path cfg b m none i := by
  obtain ⟨huses, hearly⟩ : m.usesCandidates i = true ∧ i < m.lateLayerStart := by
    simpa [runsAt] using hruns
  apply (consumerRight_early hearly (m.source_lt i huses)).mpr
  cases path with
  | dense =>
    exact denseConsume_right (fullView_laid hb) fun r hr hlc hq =>
      densePublish_get (fullView_laid hb) none hr hlc hq
  | torch => exact torch_same hb (fullView_laid hb)

/-- Where no request is kept the late layers are skipped, and the masks are aligned for both
indexers. -/
theorem skipped_aligned {skipNonfinal : Bool}
    (hdef : (if skipNonfinal then b.lastChunkMask else none) = mask) (hnone : keptOf b mask = [])
    (path : IndexerPath) : MasksAligned path cfg b m skipNonfinal := by
  cases path with
  | dense =>
    rw [MasksAligned, hdef, hnone]
    intro i _ _ _ hall r hr
    exact absurd (hall r hr) List.not_mem_nil
  | torch =>
    rw [MasksAligned, hdef, hnone]
    intro i _ _ _ _ r hr
    exact absurd hr List.not_mem_nil

/-- A dense consumer is right exactly if it is after the switch, or the masks have all its rows. -/
theorem dense_right_iff (hlayout : IsTailLayout layout) (hb : b.Proper)
    (hmask : ∀ mk ∈ mask, mk.length = b.bs) {i : ℕ} (huses : m.usesCandidates i = true) :
    ConsumerRight .dense cfg b m (some (buildLateLayerTail layout b mask)) i ↔
      (i < m.lateLayerStart → (∀ r, r < b.bs → r ∈ keptOf b mask) →
        ∀ r, r < b.bs → 0 < lcPerReq cfg b r → b.extendLens r ≤ swaWindow) := by
  rcases Nat.lt_or_ge i m.lateLayerStart with hearly | hlate
  · rw [dense_early hlayout hb hmask hearly (m.source_lt i huses)]
    exact ⟨fun h _ => h, fun h => h hearly⟩
  · exact iff_of_true (dense_late hlayout hb hmask hlate)
      fun hearly => absurd hearly (not_lt.mpr hlate)

/-- A torch consumer is right exactly if it is before the switch, or no dropped request stands
before it. -/
theorem torch_right_iff (hlayout : IsTailLayout layout) (hb : b.Proper)
    (hmask : ∀ mk ∈ mask, mk.length = b.bs) {i : ℕ} (huses : m.usesCandidates i = true) :
    ConsumerRight .torch cfg b m (some (buildLateLayerTail layout b mask)) i ↔
      (m.lateLayerStart ≤ i → m.source < m.lateLayerStart →
        ∀ r ∈ keptOf b mask, 0 < lcPerReq cfg b r → ∀ r', r' < r → r' ∈ keptOf b mask) := by
  rcases Nat.lt_or_ge i m.lateLayerStart with hearly | hlate
  · refine iff_of_true ?_ fun hlate => absurd hearly (not_lt.mpr hlate)
    apply (consumerRight_early hearly (m.source_lt i huses)).mpr
    exact torch_same hb (fullView_laid hb)
  · by_cases hacross : m.source < m.lateLayerStart
    · rw [torch_across hlayout hb hmask hlate hacross]
      exact ⟨fun h _ _ => h, fun h => h hlate hacross⟩
    · refine iff_of_true ?_ fun _ hearly => absurd hearly hacross
      rw [ConsumerRight, viewAt, masksAt, if_neg (not_lt.mpr hlate), if_neg hacross]
      exact torch_same hb (tailView_laid hlayout hb hmask)

/-- **The candidate masks are the consumers' own exactly when they are aligned**: in every
extend forward, dense or torch, with every placement of the source and the consumers, every
mark of the final chunks and whatever masks are left over. -/
theorem candidate_masks_iff (hlayout : IsTailLayout layout) (hb : b.Proper) (path : IndexerPath)
    (skipNonfinal : Bool) (masks : List CandidateMask) :
    MasksRight path cfg b layout m skipNonfinal masks ↔
      MasksAligned path cfg b m skipNonfinal := by
  have hloop : MasksRight path cfg b layout m skipNonfinal masks ↔
      ∀ i, 0 ≤ i → i < 0 + m.numLayers →
        runsAt m (initForwardMetadata layout b skipNonfinal).2 i = true →
          ConsumerRight path cfg b m (initForwardMetadata layout b skipNonfinal).1 i := by
    rw [MasksRight, runIndexers, List.range_eq_range']
    exact runIndexLayers_iff m.numLayers 0 (if_pos (Nat.zero_le _)).symm
      fun h => absurd h (Nat.not_lt_zero _)
  rw [hloop]
  simp only [Nat.zero_le, Nat.zero_add, true_implies]
  obtain ⟨mask, hdef⟩ : ∃ mask, (if skipNonfinal then b.lastChunkMask else none) = mask :=
    ⟨_, rfl⟩
  have hmask := length_finalReqMask hb hdef
  rcases initForwardMetadata_cases layout b hdef with hinit | ⟨hinit, hnone⟩
  · simp only [hinit, runsAt, Bool.false_and, Bool.not_false, Bool.and_true]
    cases path with
    | dense =>
      rw [MasksAligned, hdef]
      exact forall_congr' fun i => forall_congr' fun _ => forall_congr' fun huses =>
        dense_right_iff hlayout hb hmask huses
    | torch =>
      rw [MasksAligned, hdef]
      exact forall_congr' fun i => forall_congr' fun _ => forall_congr' fun huses =>
        torch_right_iff hlayout hb hmask huses
  · rw [hinit]
    exact iff_of_true (fun i _ hruns => skipped_right hb path hruns)
      (skipped_aligned hdef hnone path)

end

/-! ## Batches where it goes right and wrong -/

/-- Ratio 4, and the budgets and heads of the two indexers. -/
def indexerConfig : IndexerConfig :=
  ⟨4, by decide, 2 ^ 31, 2 ^ 30, 64⟩

/-- Three layers: the source, a consumer before the switch, and one after it. -/
def sourceThenConsumers (uses : ℕ → Bool) : IndexModel where
  numLayers := 3
  lateLayerStart := 2
  source := 0
  usesCandidates i := decide (0 < i) && uses i
  source_lt i h := by
    rw [Bool.and_eq_true, decide_eq_true_eq] at h
    exact h.1

/-- Requests with `len` tokens each, all of them new. -/
def newRequests (bs len : ℕ) (marks : Option (List Bool)) : ExtendBatch where
  bs := bs
  reqs := id
  extendLens _ := len
  seqLens _ := len
  lastChunkMask := marks
  returnLogprob := false
  logprobStartLens _ := 0
  captureFull := false

/-- With a request that is dropped, both dense consumers are right. -/
theorem candidate_masks_iff_mixed :
    MasksRight .dense indexerConfig (newRequests 2 129 (some [false, true])) lastRows
      (sourceThenConsumers fun _ => true) true [] :=
  (candidate_masks_iff lastRows_isTailLayout
    ⟨fun _ _ _ _ h => h, fun _ _ => (by decide : 0 < 129), fun _ _ => le_rfl,
      fun mask h => by obtain rfl := Option.some.inj h; rfl⟩ .dense true []).mpr
    fun _ _ _ _ hall => absurd (hall 0 (by decide)) (by decide)

/-- **Masks that do not reach their rows.** Dense, one request of 129 tokens, all kept: the
consumer before the switch has 129 rows, the mask 128. Torch, two requests of which the
first is dropped: the consumer after the switch, for the second, finds the first one's. -/
theorem candidate_masks_misaligned :
    ¬MasksRight .dense indexerConfig (newRequests 1 129 none) lastRows
      (sourceThenConsumers fun i => i == 1) false [] ∧
    ¬MasksRight .torch indexerConfig (newRequests 2 4 (some [false, true])) lastRows
      (sourceThenConsumers fun i => i == 2) true [] := by
  have hdense : (runIndexers .dense indexerConfig (newRequests 1 129 none) lastRows
      (sourceThenConsumers fun i => i == 1) false []).isOk = false := by decide +kernel
  have htorch : (runIndexers .torch indexerConfig (newRequests 2 4 (some [false, true])) lastRows
      (sourceThenConsumers fun i => i == 2) true []).isOk = false := by decide +kernel
  constructor
  · rintro ⟨out, hout, -⟩
    rw [hout] at hdense
    cases hdense
  · rintro ⟨out, hout, -⟩
    rw [hout] at htorch
    cases htorch

end LuzServing

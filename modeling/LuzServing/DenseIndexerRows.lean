import LuzServing.DenseIndexer

/-!
# The rows of the dense indexer

What the dense indexer selects for a row is a matter of the row: its own scores, filtered by
its own mask row (`rowPositions`). A chunk writes the rows that it covers
(`denseChunk_eq`), so a request's chunks write the request's rows whatever their size
(`denseRequest_eq`), and the source's chunks the rows of its mask (`densePublishMask_eq`).
What the kernels leave uninitialized is never selected.
-/

namespace LuzServing

section

variable {S : Type*} [LinearOrder S] [BoundedOrder S] (l : DenseLayer S) (d : DenseBatch)

/-- The masks of a consumer fit: a request with rows that sees a position has a mask, with a row
for each of its rows and a column for each position. -/
def CandidateRole.Fits (role : CandidateRole) (d : DenseBatch) (ratio : ℕ) : Prop :=
  ∀ masks, role = .consumer masks → ∀ r, r < d.bs → 0 < d.lc ratio r → 0 < d.qLens r →
    ∃ mask, masks[r]? = some mask ∧ d.qLens r ≤ mask.rows.length ∧ mask.cols = d.lc ratio r

/-! ## What a row selects -/

section

variable (role : CandidateRole) (r j : ℕ)

/-- The bits that a row of a request is filtered by. -/
def consumedRow : ℕ → Bool :=
  match role with
  | .consumer masks =>
    match masks[r]? with
    | some mask => mask.rows.getD j fun _ => false
    | none => fun _ => false
  | _ => fun _ => true

/-- The scores of a row's positions, `-inf` where the masks of a consumer leave one out. -/
def rowScores (c : ℕ) : S :=
  if consumedRow role r j c = true then
    l.score (segStart d.qLens r + j) (d.slot l.cfg.ratio r c)
  else ⊥

/-- The row of the top-k kernel. -/
def rowTopk : List (Option ℕ) :=
  l.ragged.run (rowScores l d role r j) (d.compressLens l.cfg.ratio (segStart d.qLens r + j))
    l.indexTopk

/-- The entries that a consumer leaves in. -/
def rowKeeps (c : ℕ) : Bool :=
  match role with
  | .consumer _ => decide (⊥ < rowScores l d role r j c)
  | _ => true

/-- The row of `selected`. -/
def rowSelected : List ℤ :=
  (rowTopk l d role r j).map fun entry => entry.elim (-1) fun c =>
    if rowKeeps l d role r j c = true then ((segStart (d.lc l.cfg.ratio) r + c : ℕ) : ℤ) else -1

/-- The positions that the row selects. -/
def rowPositions : List ℕ :=
  (((rowTopk l d role r j).filterMap id).filter (rowKeeps l d role r j)).insertionSort (· ≤ ·)

theorem mem_rowPositions {c : ℕ} : c ∈ rowPositions l d role r j ↔
    c ∈ (rowTopk l d role r j).filterMap id ∧ rowKeeps l d role r j c = true := by
  rw [rowPositions, List.mem_insertionSort, List.mem_filter]

/-- The positions that a row selects are listed in strictly ascending order, so none is listed
twice. -/
theorem rowPositions_lt : (rowPositions l d role r j).Pairwise (· < ·) := by
  have hnodup : (rowPositions l d role r j).Nodup := by
    rw [rowPositions, (List.perm_insertionSort _ _).nodup_iff]
    exact (l.ragged.spec _ _ _).nodup.filter _
  have hsorted := List.pairwise_insertionSort (· ≤ ·)
    (((rowTopk l d role r j).filterMap id).filter (rowKeeps l d role r j))
  exact hsorted.imp₂ (fun _ _ hle hne => lt_of_le_of_ne hle hne) hnodup

/-- Each position that a row selects is one that the row sees, by its compressed length. -/
theorem rowPositions_visible {c : ℕ} (h : c ∈ rowPositions l d role r j) :
    c < d.compressLens l.cfg.ratio (segStart d.qLens r + j) :=
  (l.ragged.spec _ _ _).lt c ((mem_rowPositions l d role r j).mp h).1

/-- A row selects at most `index_topk` positions, the number that the layer asks for. -/
theorem length_rowPositions_le : (rowPositions l d role r j).length ≤ l.indexTopk := by
  rw [rowPositions, List.length_insertionSort]
  refine (List.length_filter_le _ _).trans ((List.length_filterMap_le _ _).trans ?_)
  rw [rowTopk, l.ragged.length]

theorem length_rowSelected : (rowSelected l d role r j).length = l.indexTopk := by
  rw [rowSelected, List.length_map, rowTopk, l.ragged.length]

/-- In a consumer layer each position that a row selects is in the mask that the layer consumes. -/
theorem rowPositions_consumed {masks : List BlockMask} {c : ℕ}
    (h : c ∈ rowPositions l d (.consumer masks) r j) :
    consumedRow (.consumer masks) r j c = true := by
  have hkeeps := of_decide_eq_true ((mem_rowPositions l d (.consumer masks) r j).mp h).2
  rw [rowScores] at hkeeps
  split at hkeeps
  next hbit => exact hbit
  next => exact absurd hkeeps (lt_irrefl _)

/-- The entries of a row of `selected` that are no padding. -/
theorem rowSelected_filter :
    (rowSelected l d role r j).filter (fun x : ℤ => decide (0 ≤ x)) =
      (((rowTopk l d role r j).filterMap id).filter (rowKeeps l d role r j)).map
        fun c => ((segStart (d.lc l.cfg.ratio) r + c : ℕ) : ℤ) := by
  rw [rowSelected]
  induction rowTopk l d role r j with
  | nil => rfl
  | cons entry entries ih =>
    rw [List.map_cons]
    cases entry with
    | none =>
      rw [List.filter_cons_of_neg (by simp)]
      exact ih
    | some c =>
      have hcons : (some c :: entries).filterMap id = c :: entries.filterMap id := rfl
      rw [hcons, Option.elim_some]
      cases hkeeps : rowKeeps l d role r j c with
      | true =>
        have hnonneg := Int.natCast_nonneg (segStart (d.lc l.cfg.ratio) r + c)
        rw [if_pos rfl,
          List.filter_cons_of_pos (p := fun x : ℤ => decide (0 ≤ x)) (decide_eq_true hnonneg),
          List.filter_cons_of_pos hkeeps, List.map_cons, ih]
      | false =>
        rw [if_neg Bool.false_ne_true, List.filter_cons_of_neg (by simp),
          List.filter_cons_of_neg (by rw [hkeeps]; exact Bool.false_ne_true)]
        exact ih

/-- **A row, laid out**: its positions, as indices of the key table, then padding. -/
theorem layOut_rowSelected : layOut (rowSelected l d role r j) =
    ((rowPositions l d role r j).map fun c =>
      (((segStart (d.lc l.cfg.ratio) r + c : ℕ) : ℤ) : WithTop ℤ)) ++
    List.replicate (l.indexTopk - (rowPositions l d role r j).length) ⊤ := by
  have hasc : ((rowPositions l d role r j).map (segStart (d.lc l.cfg.ratio) r + ·)).Pairwise
      (· ≤ ·) := by
    refine List.pairwise_map.mpr ((rowPositions_lt l d role r j).imp fun h => ?_)
    exact Nat.add_le_add_left h.le _
  have hperm : (((rowPositions l d role r j).map (segStart (d.lc l.cfg.ratio) r + ·)).map
      fun c : ℕ => (c : ℤ)).Perm
      ((rowSelected l d role r j).filter fun x : ℤ => decide (0 ≤ x)) := by
    rw [rowSelected_filter, List.map_map]
    exact (List.perm_insertionSort _ _).map _
  have hlayout := layOut_eq hasc hperm
  rwa [List.map_map, List.length_map, length_rowSelected] at hlayout

end

/-! ## What a chunk writes -/

section

variable {l d} {role : CandidateRole} {r j : ℕ}

/-- The keys of a row begin where those of the request that it belongs to begin. -/
theorem ks_eq (hr : r < d.bs) (hj : j < d.qLens r) (ratio : ℕ) :
    d.ks ratio (segStart d.qLens r + j) = segStart (d.lc ratio) r := by
  rw [DenseBatch.ks, getD_segRows hr hj]

/-- A row sees no more compressed positions than the whole request that it belongs to has. -/
theorem compressLens_le (hr : r < d.bs) (hj : j < d.qLens r) (ratio : ℕ) :
    d.compressLens ratio (segStart d.qLens r + j) ≤ d.lc ratio r :=
  Nat.div_le_div_right (d.pos_lt r j hr hj)

/-- The key table, read at a request's offset, gives the slot of the request's own key. -/
theorem kSlots_getD (hr : r < d.bs) {ratio c : ℕ} (hc : c < d.lc ratio r) :
    (d.kSlots ratio).getD (segStart (d.lc ratio) r + c) 0 = d.slot ratio r c := by
  have hlen : ∀ r', r' < d.bs →
      ((List.range (d.lc ratio r')).map (d.slot ratio r')).length = d.lc ratio r' :=
    fun r' _ => by rw [List.length_map, List.length_range]
  rw [DenseBatch.kSlots, getD_flatMap_range hlen hr hc, getD_map_range _ hc]

omit [BoundedOrder S] in
/-- The logits kernel writes the layer's score at each position that a row sees, and the leftovers
stay elsewhere. -/
theorem denseLogits_eq (hr : r < d.bs) (hj : j < d.qLens r) (leftover : ℕ → ℕ → S) {c : ℕ}
    (hc : c < d.compressLens l.cfg.ratio (segStart d.qLens r + j)) :
    denseLogits l d leftover (segStart d.qLens r + j) c =
      l.score (segStart d.qLens r + j) (d.slot l.cfg.ratio r c) := by
  rw [denseLogits, if_pos hc, ks_eq hr hj,
    kSlots_getD hr (hc.trans_le (compressLens_le hr hj l.cfg.ratio))]

/-- The ragged top-k kernel, on the scores of a row, selects the row's own positions shifted to its
request's keys. -/
theorem raggedRow_eq (hr : r < d.bs) (hj : j < d.qLens r) {logits : ℕ → S}
    (h : ∀ c, c < d.compressLens l.cfg.ratio (segStart d.qLens r + j) →
      logits c = rowScores l d role r j c) :
    raggedRow l d logits (segStart d.qLens r + j) =
      (rowTopk l d role r j).map fun entry => entry.elim (-1) fun c =>
        ((segStart (d.lc l.cfg.ratio) r + c : ℕ) : ℤ) := by
  rw [raggedRow, l.ragged.congr _ _ _ _ h, ks_eq hr hj]
  rfl

/-- In a layer that is no consumer nothing is left out, so the ragged kernel alone gives the row. -/
theorem raggedRow_selected (hr : r < d.bs) (hj : j < d.qLens r)
    (hrole : ∀ masks, role ≠ .consumer masks) {logits : ℕ → S}
    (h : ∀ c, c < d.compressLens l.cfg.ratio (segStart d.qLens r + j) →
      logits c = l.score (segStart d.qLens r + j) (d.slot l.cfg.ratio r c)) :
    raggedRow l d logits (segStart d.qLens r + j) = rowSelected l d role r j := by
  have hscores : ∀ c, rowScores l d role r j c =
      l.score (segStart d.qLens r + j) (d.slot l.cfg.ratio r c) := by
    intro c
    cases role with
    | consumer masks => exact absurd rfl (hrole masks)
    | source => exact if_pos rfl
    | neither => exact if_pos rfl
  have hkeeps : ∀ c, rowKeeps l d role r j c = true := by
    intro c
    cases role with
    | consumer masks => exact absurd rfl (hrole masks)
    | source => rfl
    | neither => rfl
  rw [raggedRow_eq hr hj fun c hc => (h c hc).trans (hscores c).symm, rowSelected]
  refine List.map_congr_left fun entry _ => ?_
  cases entry with
  | none => rfl
  | some c => exact (if_pos (hkeeps c)).symm

/-- In a consumer layer the positions whose score is `-inf` are left out after the top-k, which
gives the row. -/
theorem maskTopkRow_selected (hr : r < d.bs) (hj : j < d.qLens r) {masks : List BlockMask}
    {width : ℕ} (hwidth : d.lc l.cfg.ratio r ≤ width) {logits : ℕ → S}
    (h : ∀ c, c < d.compressLens l.cfg.ratio (segStart d.qLens r + j) →
      logits c = rowScores l d (.consumer masks) r j c) :
    maskTopkRow width logits (d.ks l.cfg.ratio (segStart d.qLens r + j))
        (raggedRow l d logits (segStart d.qLens r + j)) =
      rowSelected l d (.consumer masks) r j := by
  rw [raggedRow_eq hr hj h, ks_eq hr hj, maskTopkRow, rowSelected, List.map_map]
  refine List.map_congr_left fun entry hentry => ?_
  cases entry with
  | none => exact ite_self _
  | some c =>
    have hmem : c ∈ (rowTopk l d (.consumer masks) r j).filterMap id :=
      List.mem_filterMap.mpr ⟨some c, hentry, rfl⟩
    have hc := (l.ragged.spec _ _ _).lt c hmem
    have hlt := hc.trans_le ((compressLens_le hr hj l.cfg.ratio).trans hwidth)
    have hcolumn : ((segStart (d.lc l.cfg.ratio) r + c : ℕ) : ℤ) -
        (segStart (d.lc l.cfg.ratio) r : ℕ) = (c : ℕ) := by
      push_cast
      ring
    rw [Function.comp_apply, Option.elim_some, Option.elim_some]
    dsimp only
    rw [hcolumn, Int.toNat_natCast, min_eq_left (by omega : c ≤ width - 1), h c hc]
    refine if_congr ?_ rfl rfl
    rw [rowKeeps, decide_eq_true_eq]
    exact ⟨fun hvalid => hvalid.2.2,
      fun hkeeps => ⟨Int.natCast_nonneg c, by exact_mod_cast hlt, hkeeps⟩⟩

/-- An element of a slice is the element of the list at the same offset from where the slice
begins. -/
theorem slice_getD {α : Type*} {xs : List α} {lo hi k : ℕ} (hk : lo + k < hi) (d : α) :
    (slice xs lo hi).getD k d = xs.getD (lo + k) d := by
  rw [slice, List.getD_eq_getElem?_getD, List.getD_eq_getElem?_getD, List.getElem?_drop,
    List.getElem?_take, if_pos hk]

/-- A chunk of a consumer finds the rows of a mask that fits. -/
theorem fillMask_eq {mask : BlockMask} {c0 c1 lc : ℕ} (hlt : c0 < c1)
    (hrows : c1 ≤ mask.rows.length) (hcols : mask.cols = lc) (logits : ℕ → ℕ → S) :
    ∃ filtered, fillMask mask c0 c1 lc logits = .ok filtered ∧
      ∀ k c, k < c1 - c0 → c < lc → filtered k c =
        if (mask.rows.getD (c0 + k) fun _ => false) c = true then logits k c else ⊥ := by
  have hlen : (slice mask.rows c0 c1).length = c1 - c0 := by
    rw [slice, List.length_drop, List.length_take, min_eq_left hrows]
  refine ⟨_, if_pos ⟨.inl hlen, .inl hcols⟩, fun k c hk hc => ?_⟩
  -- where the mask or the slice has one place, it is the only one asked for
  have hidx : (if (slice mask.rows c0 c1).length = 1 then 0 else k) = k := by
    rw [hlen]
    split <;> omega
  have hcol : (if mask.cols = 1 then 0 else c) = c := by
    rw [hcols]
    split <;> omega
  rw [hidx, slice_getD (by omega), fillColumns, hcol]
  cases (mask.rows.getD (c0 + k) fun _ => false) c with
  | true => rw [if_neg (by simp), if_pos rfl]
  | false => rw [if_pos ⟨hc, rfl⟩, if_neg Bool.false_ne_true]

/-- **A chunk** writes exactly the rows that it covers, each as the row alone would be written. -/
theorem denseChunk_eq (hr : r < d.bs) (hlc : 0 < d.lc l.cfg.ratio r)
    (hfits : role.Fits d l.cfg.ratio) (leftover : ℕ → ℕ → ℕ → S) {c0 c1 : ℕ} (hlt : c0 < c1)
    (hle : c1 ≤ d.qLens r) :
    denseChunk l d role leftover r c0 c1 = .ok ((List.range (c1 - c0)).map fun k =>
      (segStart d.qLens r + (c0 + k), rowSelected l d role r (c0 + k))) := by
  have hrow : ∀ k, k ∈ List.range (c1 - c0) → c0 + k < d.qLens r := by
    intro k hk
    have := List.mem_range.mp hk
    omega
  cases role with
  | source publishRows =>
    have hrole : ∀ masks, CandidateRole.source publishRows ≠ .consumer masks := fun _ => nofun
    rw [denseChunk]
    refine congrArg Except.ok (List.map_congr_left fun k hk => Prod.ext rfl ?_)
    refine raggedRow_selected hr (hrow k hk) hrole fun c hc => ?_
    dsimp only
    rw [fillColumns, if_neg fun h => absurd (of_decide_eq_true h.2) (not_le.mpr hc)]
    exact denseLogits_eq hr (hrow k hk) _ hc
  | neither =>
    have hrole : ∀ masks, CandidateRole.neither ≠ .consumer masks := fun _ => nofun
    rw [denseChunk]
    refine congrArg Except.ok (List.map_congr_left fun k hk => Prod.ext rfl ?_)
    exact raggedRow_selected hr (hrow k hk) hrole
      fun c hc => denseLogits_eq hr (hrow k hk) _ hc
  | consumer masks =>
    obtain ⟨mask, hmask, hrows, hcols⟩ := hfits masks rfl r hr hlc (by omega)
    rw [denseChunk]
    dsimp only
    obtain ⟨filtered, hfill, hfiltered⟩ := fillMask_eq hlt (hle.trans hrows) hcols
      fun k => denseLogits l d (leftover (segStart d.qLens r + (c0 + 0)))
        (segStart d.qLens r + (c0 + k))
    rw [hmask]
    dsimp only
    rw [hfill]
    refine congrArg Except.ok (List.map_congr_left fun k hk => Prod.ext rfl ?_)
    refine maskTopkRow_selected hr (hrow k hk) (by omega) fun c hc => ?_
    have hc' := hc.trans_le (compressLens_le hr (hrow k hk) l.cfg.ratio)
    rw [hfiltered k c (List.mem_range.mp hk) hc', rowScores, consumedRow, hmask,
      denseLogits_eq hr (hrow k hk) _ hc]

/-- A row of a request that has no compressed position is padding from end to end. -/
theorem rowTopk_eq_none (hr : r < d.bs) (hj : j < d.qLens r) (hlc : d.lc l.cfg.ratio r = 0) :
    rowTopk l d role r j = List.replicate l.indexTopk none := by
  have hlens := compressLens_le hr hj l.cfg.ratio
  rw [hlc, Nat.le_zero] at hlens
  have hspec := l.ragged.spec (rowScores l d role r j)
    (d.compressLens l.cfg.ratio (segStart d.qLens r + j)) l.indexTopk
  refine List.eq_replicate_iff.mpr ⟨l.ragged.length _ _ _, fun entry hentry => ?_⟩
  cases entry with
  | none => rfl
  | some c =>
    have hlt := hspec.lt c (List.mem_filterMap.mpr ⟨some c, hentry, rfl⟩)
    rw [hlens] at hlt
    exact absurd hlt (Nat.not_lt_zero c)

/-- **A request's chunks** write its rows one by one, whatever the size that they are cut into. -/
theorem denseRequest_eq (hr : r < d.bs) (hfits : role.Fits d l.cfg.ratio)
    (leftover : ℕ → ℕ → ℕ → S) {step : ℕ} (hstep : 0 < d.qLens r → 0 < step) :
    denseRequest l d role leftover step r = .ok ((List.range (d.qLens r)).map fun j =>
      (segStart d.qLens r + j, rowSelected l d role r j)) := by
  rw [denseRequest]
  split
  next hnone =>
    refine congrArg Except.ok (List.map_congr_left fun j hj => Prod.ext rfl ?_)
    have hj := List.mem_range.mp hj
    have hlc : d.lc l.cfg.ratio r = 0 := hnone.resolve_right (Nat.ne_zero_of_lt hj)
    dsimp only
    rw [rowSelected, rowTopk_eq_none hr hj hlc, List.map_replicate]
    rfl
  next hsome =>
    have hstep := hstep (by omega)
    rw [← flatMap_chunks (fun j => (segStart d.qLens r + j, rowSelected l d role r j)) hstep]
    refine collect_ok fun c0 hc0 => ?_
    have hlt := mem_chunkStarts hstep hc0
    exact denseChunk_eq hr (by omega) hfits leftover (by omega) (min_le_right _ _)

/-- The mask row that the source publishes for a row of a request. -/
def publishedRow (l : DenseLayer S) (d : DenseBatch) (r j : ℕ) : ℕ → Bool :=
  selectCandidateBlocks l.topk
    (fillColumns (d.lc l.cfg.ratio r)
      (fun c => decide (d.compressLens l.cfg.ratio (segStart d.qLens r + j) ≤ c))
      fun c => l.score (segStart d.qLens r + j) (d.slot l.cfg.ratio r c))
    (d.lc l.cfg.ratio r) (d.compressLens l.cfg.ratio (segStart d.qLens r + j)) l.topkBlocks
    l.blockSize

/-- **The source's chunks** fill the mask of a request, whatever their size. -/
theorem densePublishMask_eq (hr : r < d.bs) (mem : Leftovers S) {step pubRows : ℕ}
    (hstep : 0 < step) (hpub : pubRows ≤ d.qLens r) :
    densePublishMask l d mem step r pubRows =
      ⟨(List.range pubRows).map fun k => publishedRow l d r (d.qLens r - pubRows + k),
        d.lc l.cfg.ratio r⟩ := by
  have hrow : ∀ c0 j, j < d.qLens r → selectCandidateBlocks l.topk
      (fillColumns (d.lc l.cfg.ratio r)
        (fun c => decide (d.compressLens l.cfg.ratio (segStart d.qLens r + j) ≤ c))
        (denseLogits l d (mem.logits (segStart d.qLens r + c0)) (segStart d.qLens r + j)))
      (d.lc l.cfg.ratio r) (d.compressLens l.cfg.ratio (segStart d.qLens r + j)) l.topkBlocks
      l.blockSize = publishedRow l d r j := by
    intro c0 j hj
    refine selectCandidateBlocks_congr _ fun c hc => ?_
    rw [fillColumns, fillColumns]
    split
    next => rfl
    next hreach =>
      have hlt : c < d.compressLens l.cfg.ratio (segStart d.qLens r + j) := by
        by_contra hle
        exact hreach ⟨hc, decide_eq_true (not_lt.mp hle)⟩
      exact denseLogits_eq hr hj _ hlt
  rw [densePublishMask]
  dsimp only
  congr 1
  refine List.map_congr_left fun k hk => ?_
  have hfill := storeAll_lastRows (publishedRow l d r) mem.mask hstep hpub (List.mem_range.mp hk)
  refine Eq.trans (congrFun (congrArg _ ?_) k) hfill
  refine List.flatMap_congr fun c0 _ => List.map_congr_left fun i hi => Prod.ext rfl ?_
  have hi := List.mem_range.mp hi
  exact hrow c0 _ (by omega)

end

end

end LuzServing

import LuzServing.DenseIndexerRows

/-!
# Runs of the dense indexer

A run of the dense indexer comes to what its rows come to (`lowRatioIndexTopkDense_eq`),
with any number of rows in a chunk and whatever uninitialized memory holds. So the byte
budget decides nothing, and each row of the index tables holds compressed positions of its
own request that it sees, ascending, and then padding (`index_topk_dense`).
-/

namespace LuzServing

section

variable {S : Type*} [LinearOrder S] [BoundedOrder S]

variable (l : DenseLayer S) (d : DenseBatch) (role : CandidateRole)

/-- The masks that the source publishes: the rows of each request by themselves. -/
def publishedMasks (publishRowsPerReq : Option (ℕ → ℕ)) : List BlockMask :=
  (List.range d.bs).map fun r =>
    if d.lc l.cfg.ratio r = 0 ∨ d.qLens r = 0 then ⟨[], 0⟩
    else
      let pubRows := publishRowsPerReq.elim (d.qLens r) fun rows => min (rows r) (d.qLens r)
      ⟨(List.range pubRows).map fun k => publishedRow l d r (d.qLens r - pubRows + k),
        d.lc l.cfg.ratio r⟩

/-- The positions that a row of the batch selects. -/
def positionsOf (i : ℕ) : List ℕ :=
  rowPositions l d role ((segRows d.qLens d.bs).getD i 0)
    (i - segStart d.qLens ((segRows d.qLens d.bs).getD i 0))

/-- What a run of the indexer comes to: each row by itself. -/
def denseResult : DenseOut where
  pageIndices i k :=
    if i < d.numTokens then (positionsOf l d role i)[k]?.elim (-1) fun c =>
      (d.slot l.cfg.ratio ((segRows d.qLens d.bs).getD i 0) c : ℤ)
    else -1
  rawIndices i k :=
    if i < d.numTokens then (positionsOf l d role i)[k]?.elim (-1) fun c => (c : ℤ) else -1
  masks := role.publish.map (publishedMasks l d)

variable {l d role}

/-- A list of positions that is filled up with padding reads as a position within the list and as
`-1` after it. -/
theorem getD_padded (positions : List ℕ) (f : ℕ → ℤ) (n k : ℕ) :
    (positions.map f ++ List.replicate n (-1)).getD k (-1) = positions[k]?.elim (-1) f := by
  rcases lt_or_ge k positions.length with hlt | hge
  · rw [List.getD_append _ _ _ _ (by rwa [List.length_map]),
      List.getD_eq_getElem _ _ (by rwa [List.length_map]), List.getElem_map,
      List.getElem?_eq_getElem hlt]
    rfl
  · rw [List.getD_append_right _ _ _ _ (by rwa [List.length_map]), List.getElem?_eq_none hge,
      List.getD_eq_getElem?_getD, List.getElem?_replicate]
    split <;> rfl

theorem length_kSlots (ratio : ℕ) :
    (d.kSlots ratio).length = segStart (d.lc ratio) d.bs :=
  length_flatMap_range fun _ _ => by rw [List.length_map, List.length_range]

/-- An index into the key table that is one of a request's keys is turned into the slot of that
key. -/
theorem pageEntry_eq {r c : ℕ} (hr : r < d.bs) {ratio : ℕ} (hc : c < d.lc ratio r) :
    pageEntry (d.kSlots ratio) (((segStart (d.lc ratio) r + c : ℕ) : ℤ) : WithTop ℤ) =
      d.slot ratio r c := by
  have hlt : segStart (d.lc ratio) r + c < segStart (d.lc ratio) d.bs := seg_lt hr hc
  have hentry : pageEntry (d.kSlots ratio) (((segStart (d.lc ratio) r + c : ℕ) : ℤ) : WithTop ℤ) =
      ((d.kSlots ratio).getD (min (segStart (d.lc ratio) r + c) ((d.kSlots ratio).length - 1)) 0 :
        ℕ) := rfl
  rw [hentry, length_kSlots, min_eq_left (by omega), kSlots_getD hr hc]

/-- A row of the index tables holds the slots of the row's positions in order, and `-1` after
them. -/
theorem row_entries {r j : ℕ} (hr : r < d.bs) (hj : j < d.qLens r) (k : ℕ) :
    ((layOut (rowSelected l d role r j)).map (pageEntry (d.kSlots l.cfg.ratio))).getD k (-1) =
        (rowPositions l d role r j)[k]?.elim (-1) (fun c => (d.slot l.cfg.ratio r c : ℤ)) ∧
      ((layOut (rowSelected l d role r j)).map
          (rawEntry (d.ks l.cfg.ratio (segStart d.qLens r + j)))).getD k (-1) =
        (rowPositions l d role r j)[k]?.elim (-1) (fun c => (c : ℤ)) := by
  have hlc : ∀ c, c ∈ rowPositions l d role r j → c < d.lc l.cfg.ratio r := fun c hc =>
    (rowPositions_visible l d role r j hc).trans_le (compressLens_le hr hj l.cfg.ratio)
  rw [layOut_rowSelected, List.map_append, List.map_append, List.map_map, List.map_map,
    List.map_replicate, List.map_replicate]
  constructor
  · rw [← getD_padded _ _ (l.indexTopk - (rowPositions l d role r j).length)]
    congr 2
    exact List.map_congr_left fun c hc => pageEntry_eq hr (hlc c hc)
  · rw [← getD_padded _ _ (l.indexTopk - (rowPositions l d role r j).length)]
    congr 2
    refine List.map_congr_left fun c _ => ?_
    have hentry : rawEntry (d.ks l.cfg.ratio (segStart d.qLens r + j))
        (((segStart (d.lc l.cfg.ratio) r + c : ℕ) : ℤ) : WithTop ℤ) =
        ((segStart (d.lc l.cfg.ratio) r + c : ℕ) : ℤ) -
          (d.ks l.cfg.ratio (segStart d.qLens r + j) : ℕ) := rfl
    rw [Function.comp_apply, hentry, ks_eq hr hj]
    push_cast
    ring

/-- When the rows of all requests have been stored, the table holds each row at its own place. -/
theorem storeAll_rows {table : ℕ → List ℤ} {r j : ℕ} (hr : r < d.bs) (hj : j < d.qLens r) :
    storeAll table ((List.range d.bs).flatMap fun r => (List.range (d.qLens r)).map fun j =>
      (segStart d.qLens r + j, rowSelected l d role r j)) (segStart d.qLens r + j) =
    rowSelected l d role r j := by
  refine storeAll_eq (fun s hs hsi => ?_) ⟨_, List.mem_flatMap.mpr ⟨r, List.mem_range.mpr hr,
    List.mem_map.mpr ⟨j, List.mem_range.mpr hj, rfl⟩⟩, rfl⟩
  obtain ⟨r', -, hs⟩ := List.mem_flatMap.mp hs
  obtain ⟨j', hj', rfl⟩ := List.mem_map.mp hs
  obtain ⟨rfl, rfl⟩ := seg_inj (List.mem_range.mp hj') hj hsi
  rfl

/-- The positions of a row of the batch are those of the row within the request that it belongs
to. -/
theorem positionsOf_eq {r j : ℕ} (hr : r < d.bs) (hj : j < d.qLens r) :
    positionsOf l d role (segStart d.qLens r + j) = rowPositions l d role r j := by
  rw [positionsOf, getD_segRows hr hj, Nat.add_sub_cancel_left]

/-- **The source's chunks** publish the masks of the rows one by one, whatever the size that they
are cut into. -/
theorem densePublishMasks_eq {rowsPerChunk : ℕ → ℕ → ℕ}
    (hrows : ∀ lc tLen, 0 < tLen → 0 < rowsPerChunk lc tLen) (mem : Leftovers S)
    (publishRowsPerReq : Option (ℕ → ℕ)) :
    densePublishMasks l d rowsPerChunk mem publishRowsPerReq =
      publishedMasks l d publishRowsPerReq := by
  refine List.map_congr_left fun r hr => ?_
  dsimp only
  split
  next => rfl
  next hsome =>
    refine densePublishMask_eq (List.mem_range.mp hr) mem (hrows _ _ (by omega)) ?_
    cases publishRowsPerReq with
    | none => exact le_rfl
    | some rows => exact min_le_right _ _

/-- There is nothing to do: no request both has rows and sees a position. -/
theorem nothing_eq {ratio : ℕ}
    (h : ((List.range d.bs).all (fun r => d.lc ratio r == 0) || d.numTokens == 0) = true) {r : ℕ}
    (hr : r < d.bs) : d.lc ratio r = 0 ∨ d.qLens r = 0 := by
  rcases Bool.or_eq_true _ _ ▸ h with hall | hzero
  · exact .inl (beq_iff_eq.mp (List.all_eq_true.mp hall r (List.mem_range.mpr hr)))
  · have hle : segStart d.qLens r + d.qLens r ≤ d.numTokens := segStart_add_le hr
    rw [beq_iff_eq.mp hzero] at hle
    exact .inr (by omega)

/-- **A run** over the requests and their chunks comes to what the rows of the batch come to on
their own. -/
theorem lowRatioIndexTopkDense_eq (hfits : role.Fits d l.cfg.ratio) {rowsPerChunk : ℕ → ℕ → ℕ}
    (hrows : ∀ lc tLen, 0 < tLen → 0 < rowsPerChunk lc tLen) (mem : Leftovers S) :
    lowRatioIndexTopkDense l d role rowsPerChunk mem = .ok (denseResult l d role) := by
  rw [lowRatioIndexTopkDense]
  dsimp only
  by_cases hnothing : ((List.range d.bs).all (fun r => d.lc l.cfg.ratio r == 0) ||
      d.numTokens == 0) = true
  · have hempty : ∀ i, i < d.numTokens → positionsOf l d role i = [] := by
      intro i hi
      obtain ⟨r, hr, j, hj, rfl⟩ := exists_seg hi
      rw [positionsOf_eq hr hj]
      have hlc := (nothing_eq hnothing hr).resolve_right (Nat.ne_zero_of_lt hj)
      refine List.eq_nil_iff_forall_not_mem.mpr fun c hc => ?_
      have hlt := (rowPositions_visible l d role r j hc).trans_le
        (compressLens_le hr hj l.cfg.ratio)
      omega
    have hmasks : (fun _ => List.replicate d.bs (⟨[], 0⟩ : BlockMask)) =
        publishedMasks l d := by
      funext publishRowsPerReq
      refine (List.eq_replicate_iff.mpr ⟨?_, fun mask hmask => ?_⟩).symm
      · rw [publishedMasks, List.length_map, List.length_range]
      · obtain ⟨r, hr, rfl⟩ := List.mem_map.mp hmask
        exact if_pos (nothing_eq hnothing (List.mem_range.mp hr))
    rw [if_pos hnothing, denseResult, hmasks]
    congr 2
    · funext i k
      split
      next hi => rw [hempty i hi]; rfl
      next => rfl
    · funext i k
      split
      next hi => rw [hempty i hi]; rfl
      next => rfl
  · have hwrites := collect_ok (l := List.range d.bs)
      (f := fun r => denseRequest l d role mem.logits
        (rowsPerChunk (d.lc l.cfg.ratio r) (d.qLens r)) r)
      fun r hr => denseRequest_eq (List.mem_range.mp hr) hfits mem.logits (hrows _ _)
    have hmasks : densePublishMasks l d rowsPerChunk mem = publishedMasks l d :=
      funext (densePublishMasks_eq hrows mem)
    rw [if_neg hnothing, hwrites, denseResult, hmasks]
    refine congrArg Except.ok ?_
    congr 1
    · funext i k
      split
      next hi =>
        obtain ⟨r, hr, j, hj, rfl⟩ := exists_seg hi
        rw [storeAll_rows hr hj, positionsOf_eq hr hj, getD_segRows hr hj]
        exact (row_entries hr hj k).1
      next => rfl
    · funext i k
      split
      next hi =>
        obtain ⟨r, hr, j, hj, rfl⟩ := exists_seg hi
        rw [storeAll_rows hr hj, positionsOf_eq hr hj]
        exact (row_entries hr hj k).2
      next => rfl

/-- The masks of a source that publishes all rows fit its consumers. -/
theorem publishedMasks_fits :
    (CandidateRole.consumer (publishedMasks l d none)).Fits d l.cfg.ratio := by
  intro masks hmasks r hr hlc hq
  cases hmasks
  have hsome : ¬(d.lc l.cfg.ratio r = 0 ∨ d.qLens r = 0) := by omega
  have hget : (publishedMasks l d none)[r]? =
      some ⟨(List.range (d.qLens r)).map fun k => publishedRow l d r (d.qLens r - d.qLens r + k),
        d.lc l.cfg.ratio r⟩ := by
    rw [publishedMasks, List.getElem?_map, List.getElem?_range hr, Option.map_some, if_neg hsome]
    rfl
  refine ⟨_, hget, ?_, rfl⟩
  rw [List.length_map, List.length_range]

/-- **The dense indexer**. Whatever the byte budget and whatever uninitialized memory holds, a
run writes the indices and publishes the masks that it does with all rows of a request in one
chunk. A row's positions are those that top-k selects of its scores, of a consumer those of them
that have one: positions of its own request that it sees, and that are in its row of the mask it
consumes. Its indices are their slots, ascending; padding comes last. -/
theorem index_topk_dense (l : DenseLayer S) (d : DenseBatch) (role : CandidateRole)
    (hfits : role.Fits d l.cfg.ratio) (mem : Leftovers S) :
    ∃ out, lowRatioIndexTopkDense l d role (fun lc _ => denseStep l.cfg lc) mem = .ok out ∧
      (∀ mem', lowRatioIndexTopkDense l d role (fun _ tLen => tLen) mem' = .ok out) ∧
      ∀ r j, r < d.bs → j < d.qLens r → ∃ selected positions : List ℕ,
        IsTopk (rowScores l d role r j) ((d.pos (segStart d.qLens r + j) + 1) / l.cfg.ratio)
          l.indexTopk selected ∧
        (∀ c, c ∈ positions ↔ c ∈ selected ∧ rowKeeps l d role r j c = true) ∧
        positions.Pairwise (· < ·) ∧ positions.length ≤ l.indexTopk ∧
        (∀ c ∈ positions, c < (d.pos (segStart d.qLens r + j) + 1) / l.cfg.ratio ∧
          ∀ masks, role = .consumer masks →
            ∃ mask, masks[r]? = some mask ∧ (mask.rows.getD j fun _ => false) c = true) ∧
        ∀ k,
          out.pageIndices (segStart d.qLens r + j) k =
            positions[k]?.elim (-1) (fun c => (d.slot l.cfg.ratio r c : ℤ)) ∧
          out.rawIndices (segStart d.qLens r + j) k =
            positions[k]?.elim (-1) (fun c => (c : ℤ)) := by
  refine ⟨denseResult l d role,
    lowRatioIndexTopkDense_eq hfits (fun lc _ _ => denseStep_pos l.cfg lc) mem,
    fun mem' => lowRatioIndexTopkDense_eq hfits (fun _ _ h => h) mem', fun r j hr hj => ?_⟩
  have hrow : segStart d.qLens r + j < d.numTokens := seg_lt hr hj
  refine ⟨(rowTopk l d role r j).filterMap id, rowPositions l d role r j, l.ragged.spec _ _ _,
    fun c => mem_rowPositions l d role r j, rowPositions_lt l d role r j,
    length_rowPositions_le l d role r j, fun c hc => ?_, fun k => ?_⟩
  · have hvisible := rowPositions_visible l d role r j hc
    refine ⟨hvisible, fun masks hmasks => ?_⟩
    subst hmasks
    have hlc := hvisible.trans_le (compressLens_le hr hj l.cfg.ratio)
    obtain ⟨mask, hmask, -⟩ := hfits masks rfl r hr (by omega) (by omega)
    have hbit := rowPositions_consumed l d r j hc
    rw [consumedRow, hmask] at hbit
    exact ⟨mask, hmask, hbit⟩
  · rw [denseResult]
    dsimp only
    rw [if_pos hrow, if_pos hrow, positionsOf_eq hr hj, getD_segRows hr hj]
    exact ⟨rfl, rfl⟩

end

/-! ## Three requests -/

/-- Three requests, of which the second has neither positions nor rows. -/
def threeRequests : DenseBatch where
  bs := 3
  seqLens r := [4, 0, 6].getD r 0
  qLens r := [2, 0, 3].getD r 0
  pos i := [2, 3, 3, 4, 5].getD i 0
  reqToToken r p := 100 * r + p
  pos_lt r j hr hj := by
    have hall : ∀ r, r < 3 → ∀ j, j < [2, 0, 3].getD r 0 →
        [2, 3, 3, 4, 5].getD (segStart (fun r => [2, 0, 3].getD r 0) r + j) 0 <
          [4, 0, 6].getD r 0 := by decide
    exact hall r hr j hj

/-- A layer whose budget is of one row. -/
def oneRowLayer : DenseLayer (WithBot (WithTop ℤ)) where
  cfg := ⟨2, Nat.two_pos, 16, 16, 1⟩
  indexTopk := 2
  topkBlocks := 1
  blockSize := 1
  topk := sortTopk _
  ragged := (sortTopk _).ragged
  score i slot := (((i * slot % 5 : ℕ) : ℤ) : WithTop ℤ)

/-- A consumer of the masks that its source publishes for all rows. -/
theorem index_topk_dense_three : ∃ out,
    lowRatioIndexTopkDense oneRowLayer threeRequests
        (.consumer (publishedMasks oneRowLayer threeRequests none))
        (fun lc _ => denseStep oneRowLayer.cfg lc)
        ⟨fun _ _ _ => ⊤, fun _ _ => true, fun _ => []⟩ = .ok out ∧
      ∀ mem', lowRatioIndexTopkDense oneRowLayer threeRequests
        (.consumer (publishedMasks oneRowLayer threeRequests none)) (fun _ tLen => tLen) mem' =
          .ok out := by
  obtain ⟨out, hrun, hone, -⟩ := index_topk_dense oneRowLayer threeRequests _ publishedMasks_fits
    ⟨fun _ _ _ => ⊤, fun _ _ => true, fun _ => []⟩
  exact ⟨out, hrun, hone⟩

end LuzServing

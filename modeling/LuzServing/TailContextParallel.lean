import LuzServing.Buckets

/-!
# The tail under context parallelism

Under context parallelism a rank has the tokens whose index is the rank modulo the number of
ranks. The rows of the late layers' tail stay on the ranks of their tokens, so a rank has some of
them and pads up to the most that any has. Every rank works out for itself where each row is in
what the ranks gather (`gather_index`), and which rows of the metadata are its own. Rows are
sorted by owner, so a row's place in its block is its place among its owner's rows
(`tailSlot_eq`), and padding rows are numbered from where the lower ranks' end
(`flatMap_padRows`).
-/

namespace LuzServing

universe u

/-! ## The layout -/

/-- What `_late_layer_tail_cp_layout` returns, the metadata's fields among it. -/
structure TailCpLayout : Type where
  /-- `per_rank_actual_token` -/
  perRankActualToken : List ℕ
  /-- `max_rank_len` -/
  maxRankLen : List ℕ
  /-- `total_seq_lens` -/
  totalSeqLens : ℕ
  /-- `bs` -/
  bs : ℕ
  /-- `per_rank_logical_token` -/
  perRankLogicalToken : List ℕ
  /-- `gather_index` -/
  gatherIndex : List ℕ
  /-- `local_index`: the rows of the metadata -/
  localIndex : List ℕ
  /-- `local_token_indices`: the tokens' rows on the rank -/
  localTokenIndices : List ℕ
  /-- `local_positions` -/
  localPositions : List ℤ
  /-- `local_lens_cpu`: the rows of each request -/
  localLensCpu : List ℕ
  /-- `pad_rows` -/
  padRows : ℕ

/-- `owner_rank`, of a row -/
def ownerRank (cpSize : ℕ) (tokenIndices : List ℕ) (i : ℕ) : ℕ := tokenIndices.getD i 0 % cpSize

/-- `counts` -/
def ownerCounts (cpSize : ℕ) (tokenIndices : List ℕ) : List ℕ :=
  bincount ((List.range tokenIndices.length).map (ownerRank cpSize tokenIndices)) cpSize

/-- `max_local` -/
def maxLocal (cpSize : ℕ) (tokenIndices : List ℕ) : ℕ :=
  (ownerCounts cpSize tokenIndices).foldl max 0

/-- `slot`, in memory that held `uninit`. -/
def tailSlot (cpSize : ℕ) (tokenIndices : List ℕ) (uninit : ℕ → ℕ) : ℕ → ℕ :=
  let total := tokenIndices.length
  let owner := ownerRank cpSize tokenIndices
  let order := (List.range total).mergeSort fun i j => owner i ≤ owner j
  let rankStarts := fun r => ((ownerCounts cpSize tokenIndices).take r).sum
  storeAll uninit ((List.range total).map fun k =>
    (order.getD k 0, k - rankStarts (owner (order.getD k 0))))

/-- `_late_layer_tail_cp_layout` -/
def lateLayerTailCpLayout (cpRank cpSize batchSize : ℕ) (positions : ℕ → ℤ)
    (tokenIndices : List ℕ) (tailLens uninit : ℕ → ℕ) : TailCpLayout :=
  let total := tokenIndices.length
  let counts := ownerCounts cpSize tokenIndices
  let most := maxLocal cpSize tokenIndices
  let slot := tailSlot cpSize tokenIndices uninit
  let localTailRows :=
    (List.range total).filter fun i => ownerRank cpSize tokenIndices i = cpRank
  let padRows := most - counts.getD cpRank 0
  let padStart := total + ((counts.take cpRank).map fun c => most - c).sum
  let tailRequestIds := segRows tailLens batchSize
  { perRankActualToken := List.replicate cpSize most
    maxRankLen := List.replicate cpSize most
    totalSeqLens := total
    bs := batchSize
    perRankLogicalToken := counts
    gatherIndex := (List.range total).map fun i => ownerRank cpSize tokenIndices i * most + slot i
    localIndex := localTailRows ++ (List.range padRows).map (padStart + ·)
    localTokenIndices := localTailRows.map fun i => (tokenIndices.getD i 0 - cpRank) / cpSize
    localPositions := localTailRows.map (fun i => positions (tokenIndices.getD i 0)) ++
      List.replicate padRows 0
    localLensCpu := bincount (localTailRows.map fun i => tailRequestIds.getD i 0) batchSize
    padRows := padRows }

/-! ## The rows of a rank -/

section

variable {cpSize : ℕ} {tokenIndices : List ℕ}

/-- The rows of the tail that a rank owns, in order. -/
def ownedRows (cpSize : ℕ) (tokenIndices : List ℕ) (r : ℕ) : List ℕ :=
  (List.range tokenIndices.length).filter fun i => ownerRank cpSize tokenIndices i = r

theorem mem_ownedRows {r i : ℕ} : i ∈ ownedRows cpSize tokenIndices r ↔
    i < tokenIndices.length ∧ ownerRank cpSize tokenIndices i = r := by
  simp [ownedRows]

/-- How many rows a rank owns. -/
abbrev ownedLen (cpSize : ℕ) (tokenIndices : List ℕ) (r : ℕ) : ℕ :=
  (ownedRows cpSize tokenIndices r).length

/-- A place among a rank's rows holds a row of the rank. -/
theorem getD_ownedRows {r k : ℕ} (hk : k < ownedLen cpSize tokenIndices r) :
    (ownedRows cpSize tokenIndices r).getD k 0 < tokenIndices.length ∧
      ownerRank cpSize tokenIndices ((ownedRows cpSize tokenIndices r).getD k 0) = r := by
  rw [← mem_ownedRows, List.getD_eq_getElem _ _ hk]
  exact List.getElem_mem hk

/-- Every row of the tail has a place among the rows of the rank that owns it. -/
theorem exists_ownedRow (cpSize : ℕ) {i : ℕ} (hi : i < tokenIndices.length) :
    ∃ k, k < ownedLen cpSize tokenIndices (ownerRank cpSize tokenIndices i) ∧
      (ownedRows cpSize tokenIndices (ownerRank cpSize tokenIndices i)).getD k 0 = i := by
  obtain ⟨k, hk, hget⟩ := List.getElem_of_mem (mem_ownedRows.mpr ⟨hi, rfl⟩)
  exact ⟨k, hk, by rw [List.getD_eq_getElem _ _ hk, hget]⟩

variable (hcp : 0 < cpSize)

include hcp in
/-- The owner of a row of the tail is one of the ranks. -/
theorem ownerRank_lt (i : ℕ) : ownerRank cpSize tokenIndices i < cpSize :=
  Nat.mod_lt _ hcp

include hcp in
/-- The count of each rank is the number of the rows that the rank owns. -/
theorem ownerCounts_eq : ownerCounts cpSize tokenIndices =
    (List.range cpSize).map (ownedLen cpSize tokenIndices) := by
  rw [ownerCounts, bincount_eq fun x hx => ?_]
  · refine List.map_congr_left fun r _ => ?_
    rw [List.count_eq_countP, List.countP_map, ownedLen, ownedRows, ← List.countP_eq_length_filter]
    rfl
  · obtain ⟨i, -, rfl⟩ := List.mem_map.mp hx
    exact ownerRank_lt hcp i

include hcp in
/-- The `rank_starts` of the source are where the segments of the ranks' own rows begin. -/
theorem rankStarts_eq {r : ℕ} (hr : r ≤ cpSize) :
    ((ownerCounts cpSize tokenIndices).take r).sum =
      segStart (ownedLen cpSize tokenIndices) r := by
  rw [ownerCounts_eq hcp, ← List.map_take, List.take_range, min_eq_left hr, sum_map_range]

include hcp in
/-- Sorting the rows by owner, stably, lists the rows of each rank one rank after the other. -/
theorem ownerOrder_eq :
    ((List.range tokenIndices.length).mergeSort fun i j =>
        ownerRank cpSize tokenIndices i ≤ ownerRank cpSize tokenIndices j) =
      (List.range cpSize).flatMap (ownedRows cpSize tokenIndices) :=
  mergeSort_eq_buckets fun i _ => ownerRank_lt hcp i

include hcp in
/-- The rows that the ranks own, taken together, are all the rows of the tail, each once. -/
theorem ownedRows_perm : ((List.range cpSize).flatMap (ownedRows cpSize tokenIndices)).Perm
    (List.range tokenIndices.length) := by
  rw [← ownerOrder_eq hcp]
  exact List.mergeSort_perm _ _

include hcp in
/-- The numbers of the rows that the ranks own add up to the number of rows of the tail. -/
theorem segStart_ownedLen :
    segStart (ownedLen cpSize tokenIndices) cpSize = tokenIndices.length := by
  have hlen : ∀ r, r < cpSize →
      (ownedRows cpSize tokenIndices r).length = ownedLen cpSize tokenIndices r := fun _ _ => rfl
  rw [← length_flatMap_range hlen,
    (ownedRows_perm hcp).length_eq, List.length_range]

include hcp in
/-- No rank owns more rows than the greatest of the counts, to which every rank is padded. -/
theorem ownedLen_le {r : ℕ} (hr : r < cpSize) :
    ownedLen cpSize tokenIndices r ≤ maxLocal cpSize tokenIndices := by
  have hmax : ∀ (l : List ℕ) m c, c ∈ l ∨ c ≤ m → c ≤ l.foldl max m := by
    intro l
    induction l with
    | nil => exact fun m c h => h.resolve_left List.not_mem_nil
    | cons x l ih =>
      intro m c h
      refine ih _ c ?_
      rcases h with hmem | hle
      · rcases List.mem_cons.mp hmem with rfl | hmem
        · exact .inr (le_max_right _ _)
        · exact .inl hmem
      · exact .inr (hle.trans (le_max_left _ _))
  rw [maxLocal, ownerCounts_eq hcp]
  exact hmax _ 0 _ (.inl (List.mem_map.mpr ⟨r, List.mem_range.mpr hr, rfl⟩))

include hcp in
/-- **The slot of a row** is its place among its owner's rows, whatever was in the memory. -/
theorem tailSlot_eq (uninit : ℕ → ℕ) {r k : ℕ} (hr : r < cpSize)
    (hk : k < ownedLen cpSize tokenIndices r) :
    tailSlot cpSize tokenIndices uninit ((ownedRows cpSize tokenIndices r).getD k 0) = k := by
  have hplace : ∀ {r k}, r < cpSize → k < ownedLen cpSize tokenIndices r →
      ((List.range cpSize).flatMap (ownedRows cpSize tokenIndices)).getD
        (segStart (ownedLen cpSize tokenIndices) r + k) 0 =
          (ownedRows cpSize tokenIndices r).getD k 0 :=
    fun hr hk => getD_flatMap_range (fun _ _ => rfl) hr hk 0
  have hmem : segStart (ownedLen cpSize tokenIndices) r + k ∈ List.range tokenIndices.length :=
    List.mem_range.mpr ((seg_lt hr hk).trans_eq (segStart_ownedLen hcp))
  rw [tailSlot]
  dsimp only
  rw [ownerOrder_eq hcp, ← hplace hr hk]
  refine (storeAll_map_eq (fun k => ((List.range cpSize).flatMap
    (ownedRows cpSize tokenIndices)).getD k 0) _ hmem fun j hj heq => ?_).trans ?_
  · -- the order names no row twice
    rw [heq]
    congr 1
    have hperm : ((List.range cpSize).flatMap (ownedRows cpSize tokenIndices)).Perm
        (List.range tokenIndices.length) := ownedRows_perm hcp
    have hnodup := hperm.nodup_iff.mpr List.nodup_range
    have hlen := hperm.length_eq
    rw [List.length_range] at hlen
    have hj' : j < _ := (List.mem_range.mp hj).trans_eq hlen.symm
    have hk' : _ < _ := (List.mem_range.mp hmem).trans_eq hlen.symm
    rw [List.getD_eq_getElem _ _ hj', List.getD_eq_getElem _ _ hk'] at heq
    exact (hnodup.getElem_inj_iff).mp heq
  · rw [hplace hr hk, (getD_ownedRows hk).2, rankStarts_eq hcp hr.le, Nat.add_sub_cancel_left]

/-! ## Padding -/

include hcp in
/-- The ranks' padding rows are the numbers behind the rows of the tail. -/
theorem flatMap_padRows (most : ℕ) :
    ((List.range cpSize).flatMap fun r =>
      (List.range (most - ownedLen cpSize tokenIndices r)).map
        (tokenIndices.length + (((ownerCounts cpSize tokenIndices).take r).map
          fun c => most - c).sum + ·)) =
      (List.range (segStart (fun r => most - ownedLen cpSize tokenIndices r) cpSize)).map
        (tokenIndices.length + ·) := by
  rw [range_segStart, List.map_flatMap]
  refine List.flatMap_congr fun r hr => ?_
  have hstart : (((ownerCounts cpSize tokenIndices).take r).map fun c => most - c).sum =
      segStart (fun r => most - ownedLen cpSize tokenIndices r) r := by
    rw [ownerCounts_eq hcp, ← List.map_take, List.take_range,
      min_eq_left (List.mem_range.mp hr).le, List.map_map, ← sum_map_range]
    rfl
  rw [hstart, List.map_map]
  exact List.map_congr_left fun k _ => Nat.add_assoc _ _ _

include hcp in
/-- With their padding all the ranks together have the greatest count of rows each. -/
theorem length_add_pads : tokenIndices.length + segStart (fun r =>
    maxLocal cpSize tokenIndices - ownedLen cpSize tokenIndices r) cpSize =
      cpSize * maxLocal cpSize tokenIndices := by
  have hall : ∀ R, R ≤ cpSize → segStart (ownedLen cpSize tokenIndices) R + segStart (fun r =>
      maxLocal cpSize tokenIndices - ownedLen cpSize tokenIndices r) R =
        R * maxLocal cpSize tokenIndices := by
    intro R
    induction R with
    | zero => intro _; simp
    | succ R ih =>
      intro hR
      have hle : ownedLen cpSize tokenIndices R ≤ maxLocal cpSize tokenIndices := ownedLen_le hcp hR
      have hR := ih (by omega)
      rw [segStart_succ, segStart_succ, Nat.succ_mul]
      omega
  rw [← hall cpSize le_rfl, segStart_ownedLen hcp]

/-! ## Gathering -/

/-- A rank's block: its rows of the tail, of its rows `x` of the extend, and padding. -/
def TailCpLayout.block {H : Type u} (l : TailCpLayout) (x pad : ℕ → H) : List H :=
  l.localTokenIndices.map x ++ (List.range l.padRows).map pad

/-- The blocks of all ranks, one after the other. -/
def allGather {H : Type u} (cpSize : ℕ) (blocks : ℕ → List H) : List H :=
  (List.range cpSize).flatMap blocks

variable {batchSize : ℕ} (positions : ℕ → ℤ) (tailLens uninit : ℕ → ℕ)

theorem length_gatherIndex (r : ℕ) :
    (lateLayerTailCpLayout r cpSize batchSize positions tokenIndices tailLens
      uninit).gatherIndex.length = tokenIndices.length := by
  simp [lateLayerTailCpLayout]

theorem length_localTokenIndices (r : ℕ) :
    (lateLayerTailCpLayout r cpSize batchSize positions tokenIndices tailLens
      uninit).localTokenIndices.length = ownedLen cpSize tokenIndices r :=
  List.length_map _

include hcp in
/-- The count that is listed for a rank is the number of the rows that it owns. -/
theorem getD_ownerCounts {r : ℕ} (hr : r < cpSize) :
    (ownerCounts cpSize tokenIndices).getD r 0 = ownedLen cpSize tokenIndices r := by
  rw [ownerCounts_eq hcp, getD_map_range _ hr]

include hcp in
/-- The rows of the metadata that a rank takes are its own rows and then its padding. -/
theorem localIndex_eq {r : ℕ} (hr : r < cpSize) :
    (lateLayerTailCpLayout r cpSize batchSize positions tokenIndices tailLens uninit).localIndex =
      ownedRows cpSize tokenIndices r ++
        (List.range (maxLocal cpSize tokenIndices - ownedLen cpSize tokenIndices r)).map
          (tokenIndices.length + (((ownerCounts cpSize tokenIndices).take r).map
            fun c => maxLocal cpSize tokenIndices - c).sum + ·) := by
  rw [← getD_ownerCounts hcp hr]
  rfl

include hcp in
/-- A rank takes as many rows of the metadata as the greatest of the counts. -/
theorem length_localIndex {r : ℕ} (hr : r < cpSize) :
    (lateLayerTailCpLayout r cpSize batchSize positions tokenIndices tailLens
      uninit).localIndex.length = maxLocal cpSize tokenIndices := by
  rw [localIndex_eq hcp positions tailLens uninit hr, List.length_append, List.length_map,
    List.length_range]
  exact Nat.add_sub_cancel' (ownedLen_le hcp hr)

include hcp in
/-- The block of hidden states that a rank contributes has as many rows as the greatest of the
counts. -/
theorem length_block {H : Type u} {r : ℕ} (hr : r < cpSize) (x pad : ℕ → H) :
    ((lateLayerTailCpLayout r cpSize batchSize positions tokenIndices tailLens uninit).block x
      pad).length = maxLocal cpSize tokenIndices := by
  rw [TailCpLayout.block, List.length_append, List.length_map, List.length_map, List.length_range,
    length_localTokenIndices]
  have hpads : (lateLayerTailCpLayout r cpSize batchSize positions tokenIndices tailLens
      uninit).padRows = maxLocal cpSize tokenIndices - ownedLen cpSize tokenIndices r := by
    rw [← getD_ownerCounts hcp hr]
    rfl
  rw [hpads]
  exact Nat.add_sub_cancel' (ownedLen_le hcp hr)

variable (batchSize) in
include hcp in
/-- **The place of a row in what is gathered** is its place in its owner's block. -/
theorem exists_gatherIndex {i : ℕ} (hi : i < tokenIndices.length) (r : ℕ) :
    ∃ k, k < ownedLen cpSize tokenIndices (ownerRank cpSize tokenIndices i) ∧
      (ownedRows cpSize tokenIndices (ownerRank cpSize tokenIndices i)).getD k 0 = i ∧
      (lateLayerTailCpLayout r cpSize batchSize positions tokenIndices tailLens
        uninit).gatherIndex.getD i 0 =
          ownerRank cpSize tokenIndices i * maxLocal cpSize tokenIndices + k := by
  obtain ⟨k, hk, hki⟩ := exists_ownedRow cpSize hi
  have howner : ownerRank cpSize tokenIndices i < cpSize := ownerRank_lt hcp i
  have hslot := tailSlot_eq hcp uninit howner hk
  rw [hki] at hslot
  refine ⟨k, hk, hki, ?_⟩
  simp only [lateLayerTailCpLayout]
  rw [getD_map_range _ hi, hslot]

include hcp in
/-- The gather index has no repetition: no two rows of the tail are at one place of the gathered
blocks. -/
theorem nodup_gatherIndex (r : ℕ) :
    (lateLayerTailCpLayout r cpSize batchSize positions tokenIndices tailLens
      uninit).gatherIndex.Nodup := by
  have hlen : (lateLayerTailCpLayout r cpSize batchSize positions tokenIndices tailLens
      uninit).gatherIndex.length = tokenIndices.length :=
    length_gatherIndex positions tailLens uninit r
  refine List.nodup_iff_injective_getElem.mpr fun i j heq => Fin.ext ?_
  obtain ⟨k, hk, hki, hgi⟩ := exists_gatherIndex hcp batchSize positions tailLens
    uninit (i.2.trans_eq hlen) r
  obtain ⟨l, hl, hlj, hgj⟩ := exists_gatherIndex hcp batchSize positions tailLens
    uninit (j.2.trans_eq hlen) r
  rw [List.getD_eq_getElem _ _ i.2] at hgi
  rw [List.getD_eq_getElem _ _ j.2] at hgj
  -- two rows at one place have one owner and one place among its rows
  obtain ⟨hr, rfl⟩ := mul_add_inj (hk.trans_le (ownedLen_le hcp (ownerRank_lt hcp _)))
    (hl.trans_le (ownedLen_le hcp (ownerRank_lt hcp _))) (hgi.symm.trans (heq.trans hgj))
  rw [← hki, ← hlj, hr]

variable (batchSize) in
include hcp in
/-- **What is gathered has each row of the tail** where the row's gather index points. -/
theorem getD_allGather {H : Type u} (h pad : ℕ → H) (d : H) (mem : ℕ → ℕ → ℕ) {i : ℕ}
    (hi : i < tokenIndices.length) (r : ℕ) :
    (allGather cpSize fun r =>
      (lateLayerTailCpLayout r cpSize batchSize positions tokenIndices tailLens (mem r)).block
        (fun j => h (j * cpSize + r)) pad).getD
      ((lateLayerTailCpLayout r cpSize batchSize positions tokenIndices tailLens
        uninit).gatherIndex.getD i 0) d = h (tokenIndices.getD i 0) := by
  obtain ⟨k, hk, hki, hg⟩ := exists_gatherIndex hcp batchSize positions tailLens
    uninit hi r
  have howner : ownerRank cpSize tokenIndices i < cpSize := ownerRank_lt hcp i
  have hstart : ownerRank cpSize tokenIndices i * maxLocal cpSize tokenIndices =
      segStart (fun _ => maxLocal cpSize tokenIndices) (ownerRank cpSize tokenIndices i) :=
    (segStart_const fun _ _ => rfl).symm
  rw [hg, hstart, allGather, getD_flatMap_range
    (fun r hr => length_block hcp positions tailLens (mem r) hr _ pad) howner
    (hk.trans_le (ownedLen_le hcp howner)), TailCpLayout.block]
  have hlocal : (lateLayerTailCpLayout (ownerRank cpSize tokenIndices i) cpSize batchSize positions
      tokenIndices tailLens (mem (ownerRank cpSize tokenIndices i))).localTokenIndices =
        (ownedRows cpSize tokenIndices (ownerRank cpSize tokenIndices i)).map fun i' =>
          (tokenIndices.getD i' 0 - ownerRank cpSize tokenIndices i) / cpSize := rfl
  rw [hlocal, List.getD_append _ _ _ _ (by simpa using hk), List.map_map,
    List.getD_eq_getElem _ _ (by simpa using hk), List.getElem_map,
    ← List.getD_eq_getElem _ 0 hk, hki]
  -- the token is its row on the rank times the ranks, and the rank
  refine congrArg h ?_
  have hdiv := Nat.div_add_mod' (tokenIndices.getD i 0) cpSize
  have hsub : tokenIndices.getD i 0 - ownerRank cpSize tokenIndices i =
      tokenIndices.getD i 0 / cpSize * cpSize := by
    rw [ownerRank]
    omega
  dsimp only
  rw [hsub, Nat.mul_div_cancel _ hcp]
  exact hdiv

include hcp in
/-- **The rows of the metadata** that the ranks take are the rows of all blocks, each once. -/
theorem localIndex_perm (mem : ℕ → ℕ → ℕ) :
    ((List.range cpSize).flatMap fun r =>
      (lateLayerTailCpLayout r cpSize batchSize positions tokenIndices tailLens
        (mem r)).localIndex).Perm
      (List.range (cpSize * maxLocal cpSize tokenIndices)) := by
  rw [List.flatMap_congr fun r hr =>
    localIndex_eq hcp positions tailLens (mem r) (List.mem_range.mp hr)]
  refine (List.flatMap_append_perm _ _ _).symm.trans ?_
  rw [flatMap_padRows hcp, ← length_add_pads hcp, List.range_add]
  exact (ownedRows_perm hcp).append_right _

/-- A rank's lengths of the requests add up to its rows. -/
theorem localLensCpu_spec (hsplit : segStart tailLens batchSize = tokenIndices.length) (r : ℕ) :
    let layout := lateLayerTailCpLayout r cpSize batchSize positions tokenIndices tailLens uninit
    layout.localLensCpu.length = batchSize ∧
      layout.localLensCpu.sum = layout.localTokenIndices.length := by
  intro layout
  have hids : ∀ q ∈ (ownedRows cpSize tokenIndices r).map
      (fun i => (segRows tailLens batchSize).getD i 0), q < batchSize := by
    intro q hq
    obtain ⟨i, hi, rfl⟩ := List.mem_map.mp hq
    obtain ⟨q, hlt, j, hj, rfl⟩ := exists_seg ((mem_ownedRows.mp hi).1.trans_eq hsplit.symm)
    rwa [getD_segRows hlt hj]
  have hlens : layout.localLensCpu = bincount ((ownedRows cpSize tokenIndices r).map
      fun i => (segRows tailLens batchSize).getD i 0) batchSize := rfl
  rw [hlens, sum_bincount hids, length_localTokenIndices, List.length_map, bincount_eq hids,
    List.length_map, List.length_range]
  exact ⟨rfl, rfl⟩

end

/-! ## The tail's rows are gathered -/

/-- **The tail under context parallelism.** Every rank works out the same places of the tail's
rows in what the ranks gather, each in its owner's block, at its place among the owner's rows, and
no two the same; so the rows that are gathered are the tail's, in order. The rows of the metadata
that the ranks take, for padding too, are all rows of the blocks, each once. A rank's lengths of
the requests add up to its rows. -/
theorem late_layer_tail_cp_layout (tokenIndices : List ℕ) (tailLens : ℕ → ℕ)
    {cpSize batchSize : ℕ} (hcp : 0 < cpSize)
    (hsplit : segStart tailLens batchSize = tokenIndices.length) (positions : ℕ → ℤ)
    (uninit : ℕ → ℕ → ℕ) :
    let layout r :=
      lateLayerTailCpLayout r cpSize batchSize positions tokenIndices tailLens (uninit r)
    let most := maxLocal cpSize tokenIndices
    (∀ r, (layout r).gatherIndex.length = tokenIndices.length ∧ (layout r).gatherIndex.Nodup ∧
      ∀ i, i < tokenIndices.length → ∃ k,
        k < (layout (tokenIndices.getD i 0 % cpSize)).localTokenIndices.length ∧
        (layout (tokenIndices.getD i 0 % cpSize)).localIndex.getD k 0 = i ∧
        (layout r).gatherIndex.getD i 0 = tokenIndices.getD i 0 % cpSize * most + k ∧
        (layout r).gatherIndex.getD i 0 < cpSize * most) ∧
    (∀ {H : Type u} (h pad : ℕ → H) (d : H) r,
      (layout r).gatherIndex.map (fun g => (allGather cpSize fun r =>
        (layout r).block (fun j => h (j * cpSize + r)) pad).getD g d) = tokenIndices.map h) ∧
    (∀ r, r < cpSize → (layout r).localIndex.length = most) ∧
    ((List.range cpSize).flatMap fun r => (layout r).localIndex).Perm
      (List.range (cpSize * most)) ∧
    ∀ r, (layout r).localLensCpu.length = batchSize ∧
      (layout r).localLensCpu.sum = (layout r).localTokenIndices.length := by
  intro layout most
  have hlen : ∀ r, (layout r).gatherIndex.length = tokenIndices.length := fun r =>
    length_gatherIndex positions tailLens (uninit r) r
  refine ⟨fun r => ⟨hlen r, nodup_gatherIndex hcp positions tailLens (uninit r) r, fun i hi => ?_⟩,
    fun {H} h pad d r => ?_, fun r hr => length_localIndex hcp positions tailLens (uninit r) hr,
    localIndex_perm hcp positions tailLens uninit,
    fun r => localLensCpu_spec positions tailLens (uninit r) hsplit r⟩
  · obtain ⟨k, hk, hki, hg⟩ := exists_gatherIndex hcp batchSize positions tailLens
      (uninit r) hi r
    have howner : ownerRank cpSize tokenIndices i < cpSize := ownerRank_lt hcp i
    have hmost : k < most := hk.trans_le (ownedLen_le hcp howner)
    refine ⟨k, hk.trans_eq (length_localTokenIndices positions tailLens _ _).symm, ?_, hg, ?_⟩
    · exact ((congrArg (fun l => l.getD k 0)
        (localIndex_eq hcp positions tailLens _ howner)).trans
          (List.getD_append _ _ _ _ hk)).trans hki
    · rw [hg]
      calc ownerRank cpSize tokenIndices i * most + k
          < ownerRank cpSize tokenIndices i * most + most := Nat.add_lt_add_left hmost _
        _ = (ownerRank cpSize tokenIndices i + 1) * most := (Nat.succ_mul _ _).symm
        _ ≤ cpSize * most := Nat.mul_le_mul_right most howner
  · refine List.ext_getElem (by simp [hlen]) fun i hi hi' => ?_
    have hi' : i < tokenIndices.length := by simpa using hi'
    have h := getD_allGather hcp batchSize positions tailLens (uninit r) h pad d
      uninit hi' r
    rw [List.getElem_map, List.getElem_map, ← List.getD_eq_getElem tokenIndices 0 hi', ← h,
      List.getD_eq_getElem _ 0 (hi'.trans_eq (hlen r).symm)]

/-- Two ranks and five rows of the tail, of two requests. -/
theorem late_layer_tail_cp_layout_five :
    ((List.range 2).flatMap fun r => (lateLayerTailCpLayout r 2 2 (fun i => i) [3, 4, 7, 9, 11]
      (fun q => if q = 0 then 2 else 3) fun _ => 0).localIndex).Perm
        (List.range (2 * maxLocal 2 [3, 4, 7, 9, 11])) :=
  (@late_layer_tail_cp_layout.{0} [3, 4, 7, 9, 11] (fun q => if q = 0 then 2 else 3) 2 2
    (by decide) (by decide) (fun i => i) fun _ _ => 0).2.2.2.1

end LuzServing

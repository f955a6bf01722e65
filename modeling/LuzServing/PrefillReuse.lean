import LuzServing.TopkTransform

/-!
# One selection for a window of query rows

On the prefill fast path `maybe_apply_reuse` scores the first row of every window of query rows and
gives its selection to the rows of the window. The first row sees no more than they do. A
transform writes the slots of a row that it fills and no others, so what the others hold is what
the buffer held. The buffer of the page indices is made of -1 for that reason. That of the raw
indices is not initialized, so a slot that is not filled is whatever the memory held, in every
row of the window (`maybe_apply_reuse_iff`).
-/

namespace LuzServing

universe u v w

/-! ## Presets and transforms -/

/-- `ReusePreset` -/
structure ReusePreset : Type where
  /-- `window` -/
  window : ℕ
  /-- a window has a row -/
  window_pos : 0 < window
  /-- `deep_layers`: the layers that share one selection -/
  deepLayers : List ℕ

/-- `window_for` -/
def ReusePreset.windowFor (preset : ReusePreset) (layerId queryRows : ℕ) : ℕ :=
  if layerId ∈ preset.deepLayers then queryRows else preset.window

/-- A top-k transform of rows of logits `L`: the position with which it fills a column of a row
that sees so many positions, if it does. -/
structure PagedTransform (L : Type u) where
  /-- by logits, visible positions and column -/
  select : L → ℕ → ℕ → Option ℕ
  /-- it fills slots with positions that are visible -/
  select_lt : ∀ logits seqLen col p, select logits seqLen col = some p → p < seqLen

/-- A tensor of indices, by row and column. -/
abbrev IndexTable : Type := ℕ → ℕ → ℤ

/-- What a transform leaves in a table: the slots that it does not fill are left alone. -/
def writeFilled (select : ℕ → ℕ → Option ℕ) (value : ℕ → ℕ → ℤ) (table : IndexTable) :
    IndexTable := fun row col =>
  match select row col with
  | some p => value row p
  | none => table row col

/-! ## The reuse -/

/-- What `maybe_apply_reuse` is given: the query rows are those of one request, in order. -/
structure ReuseCall (Q : Type v) (W : Type w) : Type (max v w) where
  /-- `preset` -/
  preset : ReusePreset
  /-- `c4_indexer.layer_id` -/
  layerId : ℕ
  /-- `topk_backend.is_torch()` -/
  isTorch : Bool
  /-- `topk_backend.is_flashinfer()` -/
  isFlashinfer : Bool
  /-- `topk_backend.should_use_topk_v2()` -/
  shouldUseTopkV2 : Bool
  /-- `is_final_chunk` -/
  isFinalChunk : Bool
  /-- how many query rows there are -/
  queryRows : ℕ
  /-- there is one -/
  queryRows_pos : 0 < queryRows
  /-- `q_indexer` -/
  qIndexer : ℕ → Q
  /-- `weights` -/
  weights : ℕ → W
  /-- `plan.ke` -/
  ke : ℕ → ℕ
  /-- `c4_seq_lens`: the positions that a row sees -/
  seqLens : ℕ → ℕ
  /-- a later row sees no fewer -/
  seqLens_mono : Monotone seqLens
  /-- `page_table` -/
  pageTable : ℕ → ℕ → ℤ
  /-- `compressed_page_size` -/
  pageSize : ℕ
  /-- the columns of the tables of indices -/
  width : ℕ

variable {Q : Type v} {W : Type w} {L : Type u}

/-- What it returns, and what it leaves in `c4_sparse_page_indices` and `raw_indices`. -/
structure ReuseResult : Type where
  /-- the return value -/
  applied : Bool
  /-- `c4_sparse_page_indices` -/
  pages : IndexTable
  /-- `raw_indices` -/
  raw : Option IndexTable

namespace ReuseCall

variable (c : ReuseCall Q W)

/-- `window` -/
def window : ℕ := c.preset.windowFor c.layerId c.queryRows

/-- `num_leaders`, which is `-(-query_rows // window)` -/
def numLeaders : ℕ := (c.queryRows + c.window - 1) / c.window

/-- `leader_rows` -/
def leaderRows : List ℕ := chunkStarts c.queryRows c.window

/-- It does not return `False`. -/
def Applies : Prop :=
  c.isFinalChunk = false ∧ ¬ (c.isTorch = true ∨ c.isFlashinfer = true) ∧
    ¬ c.queryRows ≤ c.numLeaders

instance : Decidable c.Applies := inferInstanceAs (Decidable (_ ∧ _ ∧ ¬ _))

/-- The rows that a broadcast copies to the query rows; what is behind them stays. -/
def broadcast (leader table : IndexTable) : IndexTable := fun row col =>
  if row < c.queryRows ∧ col < c.width then leader (row / c.window) col else table row col

variable (logits : Q → W → ℕ → L) (v1 v2 : PagedTransform L)

/-- What the transform fills of a row of the leaders. -/
def leaderSelect (transform : PagedTransform L) (leader col : ℕ) : Option ℕ :=
  let row := c.leaderRows.getD leader 0
  transform.select (logits (c.qIndexer row) (c.weights row) (c.ke row)) (c.seqLens row) col

/-- The slot of a position of a row of the leaders. -/
def leaderSlot (leader p : ℕ) : ℤ :=
  slotOf c.pageSize (c.pageTable (c.leaderRows.getD leader 0)) p

/-- `maybe_apply_reuse`. `mem` is what new memory holds. -/
def maybeApplyReuse (mem pages : IndexTable) (rawIndices : Option IndexTable) : ReuseResult :=
  if c.Applies then
    let leaderPages : IndexTable := fun _ _ => -1
    if c.shouldUseTopkV2 = true ∧ rawIndices.isNone then
      let leaderPages := writeFilled (c.leaderSelect logits v2) c.leaderSlot leaderPages
      ⟨true, c.broadcast leaderPages pages, rawIndices⟩
    else
      let leaderRaw := rawIndices.map fun _ =>
        writeFilled (c.leaderSelect logits v1) (fun _ p => (p : ℤ)) mem
      let leaderPages := writeFilled (c.leaderSelect logits v1) c.leaderSlot leaderPages
      ⟨true, c.broadcast leaderPages pages,
        rawIndices.map fun raw => (leaderRaw.map fun leader => c.broadcast leader raw).getD raw⟩
  else ⟨false, pages, rawIndices⟩

/-! ## What is asked of it -/

/-- The first row of a row's window. -/
def firstRow (row : ℕ) : ℕ := row / c.window * c.window

/-- The selection of the first row of a row's window. -/
def selection (transform : PagedTransform L) (row col : ℕ) : Option ℕ :=
  let first := c.firstRow row
  transform.select (logits (c.qIndexer first) (c.weights first) (c.ke first)) (c.seqLens first) col

/-- The entries of a row and column are of a selection: -1, or a position that the row sees and its
slot. -/
def EntryOf (sel : Option ℕ) (row : ℕ) (page : ℤ) (raw : Option ℤ) : Prop :=
  match sel with
  | none => page = -1 ∧ ∀ v, raw = some v → v = -1
  | some p => p < c.seqLens row ∧ page = slotOf c.pageSize (c.pageTable (c.firstRow row)) p ∧
      ∀ v, raw = some v → v = p

/-- The transform that is used. -/
def transform (rawIndices : Option IndexTable) : PagedTransform L :=
  if c.shouldUseTopkV2 = true ∧ rawIndices.isNone then v2 else v1

/-- Nothing is touched, or every row has the selection of the first row of its window. -/
def Reuses (pages : IndexTable) (rawIndices : Option IndexTable) (out : ReuseResult) : Prop :=
  (out.applied = false ∧ out.pages = pages ∧ out.raw = rawIndices) ∨
    (out.applied = true ∧ ∀ row, row < c.queryRows → ∀ col, col < c.width →
      c.EntryOf (c.selection logits (c.transform v1 v2 rawIndices) row col) row
        (out.pages row col) (out.raw.map fun raw => raw row col))

/-! ## Windows -/

/-- A row of the reused layout has at least one position in its window. -/
theorem window_pos : 0 < c.window := by
  rw [window, ReusePreset.windowFor]
  split
  · exact c.queryRows_pos
  · exact c.preset.window_pos

/-- The leader of a row is the first row of its window. -/
theorem leaderRows_getD {row : ℕ} (hrow : row < c.queryRows) :
    c.leaderRows.getD (row / c.window) 0 = c.firstRow row := by
  have hlt : row / c.window < (c.queryRows + c.window - 1) / c.window := by
    have hpos := c.window_pos
    rw [Nat.div_lt_iff_lt_mul hpos]
    have hdiv := Nat.div_add_mod' (c.queryRows + c.window - 1) c.window
    have hmod := Nat.mod_lt (c.queryRows + c.window - 1) hpos
    omega
  rw [leaderRows, chunkStarts, getD_map_range _ hlt, firstRow]

/-- The first row of a window sees no more than the rows of the window. -/
theorem seqLens_firstRow (row : ℕ) : c.seqLens (c.firstRow row) ≤ c.seqLens row :=
  c.seqLens_mono (Nat.div_mul_le_self row c.window)

variable {c logits v1 v2}

/-- What the transform fills of the leader of a row is the selection for the row. -/
theorem leaderSelect_eq (transform : PagedTransform L) {row : ℕ} (hrow : row < c.queryRows)
    (col : ℕ) :
    c.leaderSelect logits transform (row / c.window) col =
      c.selection logits transform row col := by
  rw [leaderSelect, c.leaderRows_getD hrow, selection]

/-- Every position that a selection has is one that the row sees, below its sequence length. -/
theorem selection_lt {transform : PagedTransform L} {row col p : ℕ}
    (h : c.selection logits transform row col = some p) : p < c.seqLens row :=
  (transform.select_lt _ _ _ _ h).trans_le (c.seqLens_firstRow row)

/-- The page entry of a row and column, after the broadcast. -/
theorem broadcast_pages (transform : PagedTransform L) (pages : IndexTable) {row col : ℕ}
    (hrow : row < c.queryRows) (hcol : col < c.width) :
    c.broadcast (writeFilled (c.leaderSelect logits transform) c.leaderSlot fun _ _ => -1) pages row
        col = match c.selection logits transform row col with
      | some p => slotOf c.pageSize (c.pageTable (c.firstRow row)) p
      | none => -1 := by
  rw [broadcast, if_pos ⟨hrow, hcol⟩, writeFilled, leaderSelect_eq _ hrow]
  split
  next => rw [leaderSlot, c.leaderRows_getD hrow]
  next => rfl

/-- The raw entry, where a slot that is not filled holds what the memory held. -/
theorem broadcast_raw (transform : PagedTransform L) (mem raw : IndexTable) {row col : ℕ}
    (hrow : row < c.queryRows) (hcol : col < c.width) :
    c.broadcast (writeFilled (c.leaderSelect logits transform) (fun _ p => (p : ℤ)) mem) raw row
        col = match c.selection logits transform row col with
      | some p => (p : ℤ)
      | none => mem (row / c.window) col := by
  rw [broadcast, if_pos ⟨hrow, hcol⟩, writeFilled, leaderSelect_eq _ hrow]

/-! ## When every row has a selection -/

/-- Where nothing is asked of the raw indices, every row has the selection of the first row of its
window. -/
theorem reuses_pages (happlies : c.Applies) (mem pages : IndexTable) :
    c.Reuses logits v1 v2 pages none (c.maybeApplyReuse logits v1 v2 mem pages none) := by
  have hentry : ∀ transform : PagedTransform L, ∀ row, row < c.queryRows → ∀ col, col < c.width →
      c.EntryOf (c.selection logits transform row col) row
        (c.broadcast (writeFilled (c.leaderSelect logits transform) c.leaderSlot fun _ _ => -1)
          pages row col) none := by
    intro transform row hrow col hcol
    rw [broadcast_pages transform pages hrow hcol]
    cases hsel : c.selection logits transform row col with
    | none => exact ⟨rfl, fun v h => by cases h⟩
    | some p => exact ⟨selection_lt hsel, rfl, fun v h => by cases h⟩
  rw [maybeApplyReuse, if_pos happlies, Reuses, transform]
  by_cases hv2 : c.shouldUseTopkV2 = true ∧ (none : Option IndexTable).isNone = true
  · rw [if_pos hv2, if_pos hv2]
    exact .inr ⟨rfl, hentry v2⟩
  · rw [if_neg hv2, if_neg hv2]
    exact .inr ⟨rfl, hentry v1⟩

/-- Where they are asked for, every row has it, whatever the memory held, when every slot is
filled, and only then. -/
theorem reuses_raw_iff (happlies : c.Applies) (pages raw : IndexTable) :
    (∀ mem, c.Reuses logits v1 v2 pages (some raw)
      (c.maybeApplyReuse logits v1 v2 mem pages (some raw))) ↔
        ∀ row, row < c.queryRows → ∀ col, col < c.width →
          (c.selection logits v1 row col).isSome = true := by
  have hv2 : ¬ (c.shouldUseTopkV2 = true ∧ (some raw).isNone = true) := fun h => by
    cases h.2
  have hout : ∀ mem, c.maybeApplyReuse logits v1 v2 mem pages (some raw) =
      ⟨true, c.broadcast (writeFilled (c.leaderSelect logits v1) c.leaderSlot fun _ _ => -1) pages,
        some (c.broadcast
          (writeFilled (c.leaderSelect logits v1) (fun _ p => (p : ℤ)) mem) raw)⟩ := by
    intro mem
    rw [maybeApplyReuse, if_pos happlies, if_neg hv2]
    rfl
  have htransform : c.transform v1 v2 (some raw) = v1 := if_neg hv2
  constructor
  · intro h row hrow col hcol
    -- memory that holds what no index is
    rcases h fun _ _ => -2 with ⟨happ, -⟩ | ⟨-, hentry⟩
    · rw [hout] at happ
      cases happ
    · have hentry := hentry row hrow col hcol
      rw [htransform, hout, Option.map_some, broadcast_raw v1 _ raw hrow hcol] at hentry
      cases hsel : c.selection logits v1 row col with
      | none =>
        rw [hsel] at hentry
        exact absurd (hentry.2 _ rfl) (by decide)
      | some p => rfl
  · intro hfilled mem
    refine .inr ⟨by rw [hout], fun row hrow col hcol => ?_⟩
    obtain ⟨p, hp⟩ := Option.isSome_iff_exists.mp (hfilled row hrow col hcol)
    rw [htransform, hout, Option.map_some, broadcast_raw v1 mem raw hrow hcol]
    dsimp only
    rw [broadcast_pages v1 pages hrow hcol, hp]
    exact ⟨selection_lt hp, rfl, fun v hv => (Option.some.inj hv).symm⟩

/-- **When the reuse gives every row a selection.** For every preset, layer, number of query rows
and transforms: nothing is touched, or every row has the selection of the first row of its window,
in both tables, whatever new memory held, when it does not apply, the raw indices are not asked
for, or the transform fills every slot of the first rows of the windows; and only then. -/
theorem maybe_apply_reuse_iff (c : ReuseCall Q W) (logits : Q → W → ℕ → L)
    (v1 v2 : PagedTransform L) (pages : IndexTable) (rawIndices : Option IndexTable) :
    (∀ mem, c.Reuses logits v1 v2 pages rawIndices
      (c.maybeApplyReuse logits v1 v2 mem pages rawIndices)) ↔
        (c.Applies → rawIndices.isSome = true → ∀ row, row < c.queryRows →
          ∀ col, col < c.width → (c.selection logits v1 row col).isSome = true) := by
  by_cases happlies : c.Applies
  · cases rawIndices with
    | none =>
      refine iff_of_true (fun mem => reuses_pages happlies mem pages) fun _ h => ?_
      cases h
    | some raw =>
      rw [reuses_raw_iff happlies]
      exact ⟨fun h _ _ => h, fun h => h happlies rfl⟩
  · refine iff_of_true (fun mem => .inl ?_) fun h => absurd h happlies
    rw [maybeApplyReuse, if_neg happlies]
    exact ⟨rfl, rfl, rfl⟩

/-! ## A leader without positions -/

/-- A transform that fills the columns of a row's positions, in order. -/
def prefixTransform : PagedTransform Unit where
  select _ seqLen col := if col < seqLen then some col else none
  select_lt _ seqLen col p h := by
    split at h
    next hlt =>
      obtain rfl := Option.some.inj h
      exact hlt
    next => cases h

/-- Two query rows in a window of 4; the first sees no compressed position, the second one. -/
def twoRows : ReuseCall Unit Unit where
  preset := ⟨4, Nat.succ_pos 3, []⟩
  layerId := 2
  isTorch := false
  isFlashinfer := false
  shouldUseTopkV2 := false
  isFinalChunk := false
  queryRows := 2
  queryRows_pos := Nat.two_pos
  qIndexer _ := ()
  weights _ := ()
  ke _ := 0
  seqLens row := row
  seqLens_mono := monotone_id
  pageTable _ _ := 0
  pageSize := 64
  width := 1

/-- **The raw indices are what the memory held**: both rows have 7 for a raw index, with the page
index -1. -/
theorem maybe_apply_reuse_memory :
    ¬ twoRows.Reuses (fun _ _ _ => ()) prefixTransform prefixTransform (fun _ _ => 0)
        (some fun _ _ => 0)
        (twoRows.maybeApplyReuse (fun _ _ _ => ()) prefixTransform prefixTransform (fun _ _ => 7)
          (fun _ _ => 0) (some fun _ _ => 0)) ∧
      (twoRows.maybeApplyReuse (fun _ _ _ => ()) prefixTransform prefixTransform (fun _ _ => 7)
        (fun _ _ => 0) (some fun _ _ => 0)).pages 1 0 = -1 ∧
      (twoRows.maybeApplyReuse (fun _ _ _ => ()) prefixTransform prefixTransform (fun _ _ => 7)
        (fun _ _ => 0) (some fun _ _ => 0)).raw.map (fun raw => raw 1 0) = some 7 := by
  refine ⟨?_, by decide, by decide⟩
  rintro (⟨happ, -⟩ | ⟨-, hentry⟩)
  · exact absurd happ (by decide)
  · have hentry := hentry 1 (by decide) 0 (by decide)
    exact absurd (hentry.2 7 (by decide)) (by decide)

end ReuseCall

end LuzServing

import LuzServing.PageBits
import LuzServing.PartialMaps
import LuzServing.Segments
import LuzServing.TopK

/-!
# The vectorized top-k transform

`_topk_transform_vectorized` selects positions for every row of a batch and translates them
through the row's page table. A row that is no longer than the table's width has all its
positions, in order; another has those of the best scores. Both are worked out for every entry,
and masks pick one. An entry that has no position is filled with 0 or -1 on the way, so it is
gathered at 0: of scores or of a page table without columns there is nothing to gather
(`topkTransform_no_scores`, `topkTransform_no_pages`). Indices and slots are kept as `int32`, so a
page whose slots are too large is translated to other ones (`topkTransform_first`). Otherwise each
row is its positions, translated, and -1 for the rest (`topk_transform_vectorized`).
-/

namespace LuzServing

universe u

variable {S : Type u} [LinearOrder S] [OrderBot S]

/-! ## The transform -/

/-- An entry of a row of `n`, or an error. -/
def gather {α : Type*} (n : ℕ) (row : ℕ → α) (i : ℤ) : Option α :=
  if 0 ≤ i ∧ i < n then some (row i.toNat) else none

/-- `page_bits` -/
def pageBits (pageSize : ℕ) : ℕ := if 1 < pageSize then (pageSize - 1).size else 0

/-- `masked_scores`, of a row -/
def maskedScores (scores : ℕ → S) (seqLen : ℕ) : ℕ → S :=
  fun i => if i < seqLen then scores i else ⊥

/-- `raw_indices` of a row, as `int32` and padded with zeros -/
def topkRaw (op : TopkOp S) (width topk : ℕ) (scores : ℕ → S) (seqLen : ℕ) : List ℤ :=
  let actualK := min topk width
  (op.run (maskedScores scores seqLen) width actualK).map (fun i : ℕ => toInt32 i) ++
    List.replicate (topk - actualK) 0

/-- Entry `j` of a row, of the page indices and of the raw ones. -/
def topkEntry (op : TopkOp S) (width cols topk pageSize : ℕ) (scores : ℕ → S) (seqLen : ℕ)
    (pageTable : ℕ → ℤ) (j : ℕ) : Option (ℤ × ℤ) :=
  let actualK := min topk width
  let raw := (topkRaw op width topk scores seqLen).getD j 0
  (gather width scores (max raw 0)).bind fun gathered =>
    let valid := decide (gathered ≠ ⊥ ∧ ¬ (actualK < topk ∧ actualK ≤ j))
    let seqValid := decide (j < seqLen)
    let seqIndex : ℤ := if seqValid then toInt32 j else -1
    let raw := if seqLen ≤ topk then seqIndex else raw
    let valid := if seqLen ≤ topk then seqValid else valid
    (gather cols pageTable (max (raw >>> pageBits pageSize) 0)).map fun page : ℤ =>
      let slot :=
        toInt32 (Int.lor (page <<< pageBits pageSize) (Int.land raw (pageSize - 1 : ℕ)))
      (if valid then slot else -1, if valid then raw else -1)

/-- `_topk_transform_vectorized`: the rows of the page indices and of the raw ones, for the
first `batch` rows. -/
def topkTransformVectorized (op : TopkOp S) (batch width cols topk pageSize : ℕ)
    (scores : ℕ → ℕ → S) (seqLens : ℕ → ℕ) (pageTables : ℕ → ℕ → ℤ) :
    Option (List (List (ℤ × ℤ))) :=
  (List.range batch).mapM fun b => (List.range topk).mapM
    (topkEntry op width cols topk pageSize (scores b) (seqLens b) (pageTables b))

/-- `out_page_indices` -/
def pageIndices (out : List (List (ℤ × ℤ))) : List (List ℤ) := out.map (List.map Prod.fst)

/-- `out_raw_indices`, when they are asked for -/
def rawIndices (out : List (List (ℤ × ℤ))) : List (List ℤ) := out.map (List.map Prod.snd)

/-! ## What is asked of a row -/

/-- The slot of a position. -/
def slotOf (pageSize : ℕ) (pageTable : ℕ → ℤ) (p : ℕ) : ℤ :=
  pageTable (p / pageSize) * pageSize + (p % pageSize : ℕ)

/-- The slots of a row's positions are `int32`s. -/
def SlotsFit (pageSize : ℕ) (seqLen : ℕ) (pageTable : ℕ → ℤ) : Prop :=
  ∀ p, p < seqLen → -2 ^ 31 ≤ slotOf pageSize pageTable p ∧ slotOf pageSize pageTable p < 2 ^ 31

/-- The scores of a row's positions are there, and finite. -/
def FiniteRow (width : ℕ) (scores : ℕ → S) (seqLen : ℕ) : Prop :=
  seqLen ≤ width ∧ ∀ p, p < seqLen → scores p ≠ ⊥

/-- A row of the tables: positions of the row, none twice, all of them or the best, each with its
slot, and -1 for the rest. -/
def SelectedRow (topk : ℕ) (scores : ℕ → S) (seqLen : ℕ) (slot : ℕ → ℤ) (pages raws : List ℤ) :
    Prop :=
  ∃ sel : List ℕ, sel.Nodup ∧ (∀ p ∈ sel, p < seqLen) ∧
    (seqLen ≤ topk → sel = List.range seqLen) ∧
    (topk < seqLen → sel.length = topk ∧
      ∀ p ∈ sel, ∀ q, q < seqLen → q ∉ sel → scores q ≤ scores p) ∧
    pages = sel.map slot ++ List.replicate (topk - sel.length) (-1) ∧
    raws = sel.map (fun p : ℕ => (p : ℤ)) ++ List.replicate (topk - sel.length) (-1)

omit [OrderBot S] in
/-- Whether a row is selected depends only on the slots of the positions that the row sees. -/
theorem SelectedRow.congr {topk : ℕ} {scores : ℕ → S} {seqLen : ℕ} {slot slot' : ℕ → ℤ}
    {pages raws : List ℤ} (h : SelectedRow topk scores seqLen slot pages raws)
    (hslot : ∀ p, p < seqLen → slot p = slot' p) :
    SelectedRow topk scores seqLen slot' pages raws := by
  obtain ⟨sel, hnodup, hlt, hall, hbest, rfl, rfl⟩ := h
  refine ⟨sel, hnodup, hlt, hall, hbest, ?_, rfl⟩
  rw [List.map_congr_left fun p hp => hslot p (hlt p hp)]

/-! ## Gathering -/

theorem gather_natCast {α : Type*} {n i : ℕ} (row : ℕ → α) (h : i < n) :
    gather n row (i : ℤ) = some (row i) := by
  rw [gather, if_pos ⟨Int.natCast_nonneg i, Int.ofNat_lt.mpr h⟩, Int.toNat_natCast]

/-- From a row without entries nothing is gathered, whatever the index. -/
theorem gather_zero {α : Type*} (row : ℕ → α) (i : ℤ) : gather 0 row i = none :=
  if_neg fun h => absurd h.2 (not_lt.mpr h.1)

/-! ## An entry -/

variable {op : TopkOp S} {width cols topk bits : ℕ} {scores : ℕ → S} {seqLen : ℕ}
  {pageTable : ℕ → ℤ} {j : ℕ}

theorem pageBits_two_pow (bits : ℕ) : pageBits (2 ^ bits) = bits := by
  rw [pageBits, size_two_pow_sub_one]
  split
  next => rfl
  next h =>
    have : bits < 2 ^ bits := Nat.lt_two_pow_self
    omega

/-- An entry of the padded indices is a place of the scores. -/
theorem topkRaw_getD (op : TopkOp S) (topk : ℕ) (hwidth : 0 < width) (hint : width ≤ 2 ^ 31)
    (scores : ℕ → S) (seqLen j : ℕ) :
    ∃ i, i < width ∧ (topkRaw op width topk scores seqLen).getD j 0 = (i : ℤ) := by
  have hspec := op.spec (maskedScores scores seqLen) width (min topk width)
  rw [topkRaw]
  rcases lt_or_ge j (op.run (maskedScores scores seqLen) width (min topk width)).length
    with hlt | hge
  · rw [List.getD_append _ _ _ _ (by rwa [List.length_map]),
      List.getD_eq_getElem _ _ (by rwa [List.length_map]), List.getElem_map]
    have hin := hspec.lt _ (List.getElem_mem hlt)
    exact ⟨_, hin, toInt32_natCast (hin.trans_le hint)⟩
  · refine ⟨0, hwidth, ?_⟩
    rw [List.getD_append_right _ _ _ _ (by rwa [List.length_map])]
    rcases lt_or_ge (j - (List.map (fun i : ℕ => toInt32 i)
      (op.run (maskedScores scores seqLen) width (min topk width))).length)
      (topk - min topk width) with h | h
    · rw [List.getD_replicate _ h]
      rfl
    · rw [List.getD_eq_default _ _ (by rwa [List.length_replicate])]
      rfl

/-- The place of a position's page is one of the table's, and its slot is the page's, as an
`int32`. -/
theorem pageOf_position (pageTable : ℕ → ℤ) {p : ℕ} (hp : p < cols * 2 ^ bits) :
    gather cols pageTable (max ((p : ℤ) >>> pageBits (2 ^ bits)) 0) =
        some (pageTable (p / 2 ^ bits)) ∧
      toInt32 (Int.lor (pageTable (p / 2 ^ bits) <<< pageBits (2 ^ bits))
        (Int.land p (2 ^ bits - 1 : ℕ))) = toInt32 (slotOf (2 ^ bits) pageTable p) := by
  have hmod := Nat.mod_lt p (Nat.two_pow_pos bits)
  rw [pageBits_two_pow, shiftRight_natCast, max_eq_left (Int.natCast_nonneg _), land_mask,
    lor_shiftLeft _ hmod, slotOf]
  refine ⟨gather_natCast _ (Nat.div_lt_of_lt_mul (by rwa [Nat.mul_comm])), ?_⟩
  push_cast
  rfl

/-- When a row has no more positions than are asked for, they are taken in order and padding
follows. -/
theorem topkEntry_sequential (hwidth : 0 < width) (hint : width ≤ 2 ^ 31) (hcols : 0 < cols)
    (hlen : seqLen ≤ topk) (hout : topk ≤ 2 ^ 31) (hwide : seqLen ≤ cols * 2 ^ bits) :
    topkEntry op width cols topk (2 ^ bits) scores seqLen pageTable j =
      some (if j < seqLen then toInt32 (slotOf (2 ^ bits) pageTable j) else -1,
        if j < seqLen then (j : ℤ) else -1) := by
  obtain ⟨i, hi, hraw⟩ := topkRaw_getD op topk hwidth hint scores seqLen j
  rw [topkEntry, hraw, max_eq_left (Int.natCast_nonneg i), gather_natCast _ hi, Option.bind_some]
  simp only [if_pos hlen, decide_eq_true_eq]
  by_cases hj : j < seqLen
  · obtain ⟨hpage, hslot⟩ := pageOf_position pageTable (hj.trans_le hwide)
    simp only [if_pos hj, toInt32_natCast (hj.trans_le (hlen.trans hout))]
    rw [hpage, Option.map_some, hslot]
  · -- the page of -1 is gathered at 0
    simp only [if_neg hj]
    rw [shiftRight_neg_one, max_eq_right (by decide)]
    have hzero := gather_natCast pageTable hcols
    rw [Nat.cast_zero] at hzero
    rw [hzero, Option.map_some]

/-- An entry of a row that has the best of its positions: where the index is of a position. -/
theorem topkEntry_best {p : ℕ} (hlen : topk < seqLen) (hwidth : seqLen ≤ width)
    (hraw : (topkRaw op width topk scores seqLen).getD j 0 = (p : ℤ)) (hp : p < width)
    (hscore : scores p ≠ ⊥) (hwide : p < cols * 2 ^ bits) :
    topkEntry op width cols topk (2 ^ bits) scores seqLen pageTable j =
      some (toInt32 (slotOf (2 ^ bits) pageTable p), (p : ℤ)) := by
  obtain ⟨hpage, hslot⟩ := pageOf_position pageTable hwide
  have hk : min topk width = topk := min_eq_left (by omega)
  rw [topkEntry, hraw, max_eq_left (Int.natCast_nonneg p), gather_natCast _ hp, Option.bind_some]
  simp only [if_neg (not_le.mpr hlen), hk, lt_irrefl, false_and, not_false_eq_true, and_true,
    decide_eq_true_eq, if_pos hscore]
  rw [hpage, Option.map_some, hslot]

/-- An entry is worked out where the page table has the places that the indices may be. -/
theorem topkEntry_isSome (hwidth : 0 < width) (hint : width ≤ 2 ^ 31) (hlen : topk < seqLen)
    (hwide : width ≤ cols * 2 ^ bits) :
    ∃ entry, topkEntry op width cols topk (2 ^ bits) scores seqLen pageTable j = some entry := by
  obtain ⟨i, hi, hraw⟩ := topkRaw_getD op topk hwidth hint scores seqLen j
  obtain ⟨hpage, -⟩ := pageOf_position pageTable (hi.trans_le hwide)
  rw [topkEntry, hraw, max_eq_left (Int.natCast_nonneg i), gather_natCast _ hi, Option.bind_some]
  simp only [if_neg (not_le.mpr hlen)]
  rw [hpage]
  exact ⟨_, rfl⟩

/-! ## A row -/

/-- The best of a row's positions, when it has more than the table is wide. -/
theorem topk_positions (op : TopkOp S) (hrow : FiniteRow width scores seqLen)
    (hlen : topk < seqLen) :
    IsTopk scores seqLen topk (op.run (maskedScores scores seqLen) width (min topk width)) := by
  have hk : min topk width = topk := min_eq_left (hlen.le.trans hrow.1)
  have hspec := op.spec (maskedScores scores seqLen) width (min topk width)
  rw [hk] at hspec ⊢
  have hin : ∀ {p}, p < seqLen → maskedScores scores seqLen p = scores p := fun hp => if_pos hp
  generalize op.run (maskedScores scores seqLen) width topk = idx at hspec
  have hcount : idx.length = topk := hspec.length.trans hk
  -- a place past the row is below a position that is left out
  have hlt : ∀ i ∈ idx, i < seqLen := by
    intro i hi
    by_contra hpast
    have hmiss : ∃ p, p < seqLen ∧ p ∉ idx := by
      by_contra hall
      push Not at hall
      have hsub : Finset.range seqLen ⊆ idx.toFinset := fun p hp =>
        List.mem_toFinset.mpr (hall p (Finset.mem_range.mp hp))
      have hcard := (Finset.card_le_card hsub).trans (List.toFinset_card_le idx)
      rw [Finset.card_range] at hcard
      omega
    obtain ⟨p, hp, hmem⟩ := hmiss
    have hle := hspec.best i hi p (hp.trans_le hrow.1) hmem
    rw [hin hp, maskedScores, if_neg hpast] at hle
    exact hrow.2 p hp (le_bot_iff.mp hle)
  refine ⟨hspec.nodup, hlt, ?_, fun i hi q hq hmem => ?_⟩
  · rw [hcount, min_eq_left hlen.le]
  · have hle := hspec.best i hi q (hq.trans_le hrow.1) hmem
    rwa [hin hq, hin (hlt i hi)] at hle

/-- **A row of the tables** is its positions, translated and kept as `int32`, and -1 for the
rest. -/
theorem topkRow_spec (op : TopkOp S) {topk : ℕ} (hout : topk ≤ 2 ^ 31) (hwidth : 0 < width)
    (hint : width ≤ 2 ^ 31) (hcols : 0 < cols) (hrow : FiniteRow width scores seqLen)
    (hwide : seqLen ≤ cols * 2 ^ bits) (pageTable : ℕ → ℤ) :
    ∃ row, (List.range topk).mapM
        (topkEntry op width cols topk (2 ^ bits) scores seqLen pageTable) = some row ∧
      SelectedRow topk scores seqLen (fun p => toInt32 (slotOf (2 ^ bits) pageTable p))
        (row.map Prod.fst) (row.map Prod.snd) := by
  rcases le_or_gt seqLen topk with hlen | hlen
  · refine ⟨_, mapM_eq_some_map fun j _ =>
        topkEntry_sequential hwidth hint hcols hlen hout hwide,
      List.range seqLen, List.nodup_range, fun p => List.mem_range.mp, fun _ => rfl,
      fun h => absurd h (not_lt.mpr hlen), ?_, ?_⟩
    · rw [List.map_map, List.length_range]
      exact map_range_ite (fun p => toInt32 (slotOf (2 ^ bits) pageTable p)) (-1) hlen
    · rw [List.map_map, List.length_range]
      exact map_range_ite (fun j : ℕ => (j : ℤ)) (-1) hlen
  · have hbest := topk_positions op hrow hlen
    have hraw : topkRaw op width topk scores seqLen =
        (op.run (maskedScores scores seqLen) width (min topk width)).map
          (fun i : ℕ => toInt32 i) := by
      rw [topkRaw, min_eq_left (hlen.le.trans hrow.1), Nat.sub_self, List.replicate_zero,
        List.append_nil]
    generalize op.run (maskedScores scores seqLen) width (min topk width) = sel at hbest hraw
    have hcount : sel.length = topk := hbest.length.trans (min_eq_left hlen.le)
    have hentry : ∀ j ∈ List.range topk,
        topkEntry op width cols topk (2 ^ bits) scores seqLen pageTable j =
          some (toInt32 (slotOf (2 ^ bits) pageTable (sel.getD j 0)),
            ((sel.getD j 0 : ℕ) : ℤ)) := by
      intro j hj
      have hj := List.mem_range.mp hj
      have hjs : j < sel.length := hj.trans_eq hcount.symm
      have hlt : sel.getD j 0 < seqLen := by
        rw [List.getD_eq_getElem _ _ hjs]
        exact hbest.lt _ (List.getElem_mem hjs)
      refine topkEntry_best hlen hrow.1 ?_ (hlt.trans_le hrow.1) (hrow.2 _ hlt)
        (hlt.trans_le hwide)
      rw [hraw, List.getD_eq_getElem _ _ (by rwa [List.length_map]), List.getElem_map,
        ← List.getD_eq_getElem _ 0 hjs]
      exact toInt32_natCast ((hlt.trans_le hrow.1).trans_le hint)
    refine ⟨_, mapM_eq_some_map hentry, sel, hbest.nodup, hbest.lt,
      fun h => absurd h (not_le.mpr hlen), fun _ => ⟨hcount, hbest.best⟩, ?_, ?_⟩
    · rw [List.map_map, hcount, Nat.sub_self, List.replicate_zero, List.append_nil]
      conv_rhs => rw [← map_range_getD sel 0, List.map_map, hcount]
      rfl
    · rw [List.map_map, hcount, Nat.sub_self, List.replicate_zero, List.append_nil]
      conv_rhs => rw [← map_range_getD sel 0, List.map_map, hcount]
      rfl

/-! ## A batch -/

/-- The page table has the places that a row's indices may be: those of its positions, and where
its scores are not all finite those of all scores. -/
def WideEnough (width cols pageSize : ℕ) (scores : ℕ → S) (seqLen : ℕ) : Prop :=
  seqLen ≤ cols * pageSize ∧ (FiniteRow width scores seqLen ∨ width ≤ cols * pageSize)

/-- Every row of a page table that is wide enough is worked out. -/
theorem topkRow_isSome (op : TopkOp S) (hwidth : 0 < width) (hint : width ≤ 2 ^ 31)
    (hcols : 0 < cols) (hwide : WideEnough width cols (2 ^ bits) scores seqLen) {topk : ℕ}
    (hout : topk ≤ 2 ^ 31) (pageTable : ℕ → ℤ) :
    ∃ row, (List.range topk).mapM
      (topkEntry op width cols topk (2 ^ bits) scores seqLen pageTable) = some row := by
  rcases hwide.2 with hrow | hall
  · obtain ⟨row, hsome, -⟩ := topkRow_spec op hout hwidth hint hcols hrow hwide.1 pageTable
    exact ⟨row, hsome⟩
  · have hentry : ∀ j, ∃ entry,
        topkEntry op width cols topk (2 ^ bits) scores seqLen pageTable j = some entry := by
      intro j
      rcases le_or_gt seqLen topk with hlen | hlen
      · exact ⟨_, topkEntry_sequential hwidth hint hcols hlen hout hwide.1⟩
      · exact topkEntry_isSome hwidth hint hlen hall
    choose g hg using hentry
    exact ⟨_, mapM_eq_some_map fun j _ => hg j⟩

/-- **The vectorized top-k transform.** For every batch, width of the tables, page size and top-k
routine, where there are scores and pages and each row's page table is wide enough: each row
whose scores are finite and whose slots are `int32`s is its positions, all of them or the best,
translated, and -1 for the rest; and the raw indices are the positions. -/
theorem topk_transform_vectorized (op : TopkOp S) {batch width cols topk : ℕ} (bits : ℕ)
    (hout : topk ≤ 2 ^ 31) (hwidth : 0 < width) (hint : width ≤ 2 ^ 31) (hcols : 0 < cols)
    (scores : ℕ → ℕ → S) (seqLens : ℕ → ℕ) (pageTables : ℕ → ℕ → ℤ)
    (hwide : ∀ b, b < batch → WideEnough width cols (2 ^ bits) (scores b) (seqLens b)) :
    ∃ out, topkTransformVectorized op batch width cols topk (2 ^ bits) scores seqLens pageTables =
        some out ∧ out.length = batch ∧
      ∀ b, b < batch → FiniteRow width (scores b) (seqLens b) →
        SlotsFit (2 ^ bits) (seqLens b) (pageTables b) →
        SelectedRow topk (scores b) (seqLens b) (slotOf (2 ^ bits) (pageTables b))
          ((pageIndices out).getD b []) ((rawIndices out).getD b []) := by
  have hrows : ∀ b, ∃ row, b < batch → (List.range topk).mapM
      (topkEntry op width cols topk (2 ^ bits) (scores b) (seqLens b) (pageTables b)) =
        some row := by
    intro b
    by_cases hb : b < batch
    · obtain ⟨row, hrow⟩ := topkRow_isSome op hwidth hint hcols (hwide b hb) hout (pageTables b)
      exact ⟨row, fun _ => hrow⟩
    · exact ⟨[], fun h => absurd h hb⟩
  choose rows hrows using hrows
  refine ⟨(List.range batch).map rows, mapM_eq_some_map fun b hb => hrows b (List.mem_range.mp hb),
    by simp, fun b hb hfinite hslots => ?_⟩
  obtain ⟨row, hsome, hspec⟩ := topkRow_spec op hout hwidth hint hcols hfinite (hwide b hb).1
    (pageTables b)
  obtain rfl : rows b = row := Option.some.inj ((hrows b hb).symm.trans hsome)
  rw [pageIndices, rawIndices, List.map_map, List.map_map, getD_map_range _ hb,
    getD_map_range _ hb]
  exact hspec.congr fun p hp => toInt32_eq_self.mpr (hslots p hp)

/-- Two rows, of one position and of four, and a table of two. -/
theorem topk_transform_vectorized_two :
    ∃ out, topkTransformVectorized (sortTopk ℕ) 2 4 2 2 (2 ^ 1) (fun _ p => p + 1)
        (fun b => if b = 0 then 1 else 4) (fun b c => 2 * b + c) = some out ∧
      SelectedRow 2 (fun p => p + 1) 4 (slotOf (2 ^ 1) fun c => 2 * 1 + c)
        ((pageIndices out).getD 1 []) ((rawIndices out).getD 1 []) := by
  have hlen : ∀ b : ℕ, (if b = 0 then 1 else 4) ≤ 4 := fun b => by split <;> decide
  obtain ⟨out, hout, -, hrows⟩ := @topk_transform_vectorized ℕ _ _ (sortTopk ℕ) 2 4 2 2 1
    (by decide) (by decide) (by decide) (by decide) (fun _ p => p + 1)
    (fun b => if b = 0 then 1 else 4) (fun b c => 2 * b + c) fun b _ => ⟨hlen b, .inr (by decide)⟩
  refine ⟨out, hout, hrows 1 (by decide) ⟨by decide, fun p _ => Nat.succ_ne_zero p⟩ ?_⟩
  intro p hp
  have hp : p < 4 := hp
  interval_cases p <;> exact ⟨by decide, by decide⟩

/-! ## Where it does not -/

/-- Without scores there is nothing to gather, even for a row without positions. -/
theorem topkTransform_no_scores (op : TopkOp S) {batch cols topk pageSize : ℕ} (hbatch : 0 < batch)
    (htopk : 0 < topk) (scores : ℕ → ℕ → S) (seqLens : ℕ → ℕ) (pageTables : ℕ → ℕ → ℤ) :
    topkTransformVectorized op batch 0 cols topk pageSize scores seqLens pageTables = none := by
  refine mapM_eq_none (List.mem_range.mpr hbatch) (mapM_eq_none (List.mem_range.mpr htopk) ?_)
  rw [topkEntry, gather_zero]
  rfl

/-- A batch with rows is not transformed when its page tables have no columns. -/
theorem topkTransform_no_pages (op : TopkOp S) {batch width topk pageSize : ℕ}
    (hbatch : 0 < batch) (htopk : 0 < topk) (scores : ℕ → ℕ → S) (seqLens : ℕ → ℕ)
    (pageTables : ℕ → ℕ → ℤ) :
    topkTransformVectorized op batch width 0 topk pageSize scores seqLens pageTables = none := by
  refine mapM_eq_none (List.mem_range.mpr hbatch) (mapM_eq_none (List.mem_range.mpr htopk) ?_)
  simp only [topkEntry, gather_zero, Option.map_none, Option.bind_fun_none]

/-- The first position of a row is translated to the first slot of its page, as an `int32`. -/
theorem topkTransform_first (op : TopkOp S) (bits : ℕ) {score : S} (page : ℤ) :
    topkTransformVectorized op 1 1 1 1 (2 ^ bits) (fun _ _ => score) (fun _ => 1)
      (fun _ _ => page) = some [[(toInt32 (page * 2 ^ bits), 0)]] := by
  have hentry : topkEntry op 1 1 1 (2 ^ bits) (fun _ => score) 1 (fun _ => page) 0 =
      some (toInt32 (page * 2 ^ bits), 0) := by
    rw [topkEntry_sequential Nat.one_pos (by norm_num) Nat.one_pos le_rfl (by norm_num)
      (by rw [Nat.one_mul]; exact Nat.one_le_two_pow)]
    simp [slotOf]
  simp only [topkTransformVectorized, List.range_one, List.mapM_cons, List.mapM_nil, hentry]
  rfl

/-- One row without positions, a width of one, and no scores, or no pages: an error. And a row of
one position, in page 2 ^ 25 of 64 tokens: its slot is 2 ^ 31, and what is stored is -2 ^ 31. -/
theorem not_topk_transform_vectorized :
    topkTransformVectorized (sortTopk ℕ) 1 0 1 1 1 (fun _ _ => 0) (fun _ => 0) (fun _ _ => 0) =
        none ∧
      topkTransformVectorized (sortTopk ℕ) 1 1 0 1 1 (fun _ _ => 0) (fun _ => 0) (fun _ _ => 0) =
        none ∧
      topkTransformVectorized (sortTopk ℕ) 1 1 1 1 (2 ^ 6) (fun _ _ => 1) (fun _ => 1)
        (fun _ _ => 2 ^ 25) = some [[(-2 ^ 31, 0)]] ∧
      slotOf (2 ^ 6) (fun _ => 2 ^ 25) 0 = 2 ^ 31 := by
  refine ⟨topkTransform_no_scores _ (by decide) (by decide) _ _ _,
    topkTransform_no_pages _ (by decide) (by decide) _ _ _, ?_, by decide⟩
  rw [topkTransform_first]
  rfl

end LuzServing

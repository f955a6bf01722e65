import LuzServing.DecodeVariants

/-!
# The index page table

The indexer of a low ratio reads a pool that is cut into pages of 64 slots, while the page table of
a batch has pages of the full pool. `_expand_index_page_table` writes the table that the indexer
reads: a page of the full pool is a run of index pages.

A slot is found through the expanded table where the original one leads, exactly when the number of
its index page is an `int32` (`PageTable.expandIndexPageTable_resolves`): the page numbers are
multiplied in `int64` and then converted.
-/

namespace LuzServing

/-! ## Page tables -/

/-- A page table: a tensor of a row for each request. -/
structure PageTable : Type where
  /-- `bs` -/
  bs : ℕ
  /-- `n` -/
  n : ℕ
  /-- the page at a place -/
  entry : ℕ → ℕ → ℤ

namespace PageTable

variable (t : PageTable)

/-- The slot that a reader of pages of `size` slots finds for slot `j` of request `b`. -/
def slot (size b j : ℕ) : ℤ := t.entry b (j / size) * size + (j % size : ℕ)

/-- `_expand_index_page_table`, `none` if it divides by zero or its assertion fails. -/
def expandIndexPageTable (fullPageSize compressRatio indexSize : ℕ) : Option PageTable :=
  if compressRatio = 0 ∨ indexSize = 0 then none
  else
    let slotsPerPage := fullPageSize / compressRatio
    if slotsPerPage % indexSize ≠ 0 then none
    else
      let blocksPerPage := slotsPerPage / indexSize
      if blocksPerPage = 1 then some t
      else
        let base (b i : ℕ) : ℤ := toInt64 (toInt64 (t.entry b i) * blocksPerPage)
        let expanded (b i k : ℕ) : ℤ := toInt64 (base b i + k)
        -- a reshape leaves the elements in their order
        let reshaped (b c : ℕ) : ℤ :=
          let place := b * (t.n * blocksPerPage) + c
          expanded (place / blocksPerPage / t.n) (place / blocksPerPage % t.n)
            (place % blocksPerPage)
        some ⟨t.bs, t.n * blocksPerPage, fun b c => toInt32 (reshaped b c)⟩

/-- The index page that slot `j` of request `b` is in. -/
def indexPage (slotsPerPage indexSize b j : ℕ) : ℤ :=
  t.entry b (j / slotsPerPage) * (slotsPerPage / indexSize : ℕ) +
    (j % slotsPerPage / indexSize : ℕ)

end PageTable

/-! ## The expansion -/

/-- The arithmetic in `int64` is exact modulo the last conversion. -/
theorem toInt32_toInt64 (x : ℤ) : toInt32 (toInt64 x) = toInt32 x :=
  Int.bmod_bmod_of_dvd (by decide)

theorem toInt32_block (e : ℤ) (blocks k : ℕ) :
    toInt32 (toInt64 (toInt64 (toInt64 e * blocks) + k)) = toInt32 (e * blocks + k) := by
  have hadd : toInt64 (toInt64 (toInt64 e * blocks) + k) = toInt64 (e * blocks + k) := by
    rw [toInt64, toInt64, toInt64, Int.bmod_mul_bmod, Int.bmod_add_bmod]
    rfl
  rw [hadd, toInt32_toInt64]

namespace PageTable

variable {t e : PageTable} {fullPageSize ratio indexSize : ℕ}

/-- **What the expansion writes**: unless a page of the full pool is one index page, the `int32` of
the page's number of blocks and the block. -/
theorem expandIndexPageTable_eq_some
    (h : t.expandIndexPageTable fullPageSize ratio indexSize = some e) :
    ∃ blocks, 0 < indexSize ∧ fullPageSize / ratio = indexSize * blocks ∧ e.bs = t.bs ∧
      e.n = t.n * blocks ∧ ∀ b c, c < e.n → e.entry b c =
        if blocks = 1 then t.entry b c
        else toInt32 (t.entry b (c / blocks) * blocks + (c % blocks : ℕ)) := by
  rw [expandIndexPageTable] at h
  split at h
  · cases h
  next hzero =>
    obtain ⟨-, hindex⟩ := not_or.mp hzero
    have hpos : 0 < indexSize := Nat.pos_of_ne_zero hindex
    dsimp only at h
    split at h
    · cases h
    next htile =>
      obtain ⟨blocks, hblocks⟩ := Nat.dvd_of_mod_eq_zero (not_not.mp htile)
      rw [hblocks, Nat.mul_div_cancel_left _ hpos] at h
      refine ⟨blocks, hpos, hblocks, ?_⟩
      split at h
      next hone =>
        obtain rfl := Option.some.inj h
        exact ⟨rfl, by rw [hone, Nat.mul_one], fun b c _ => (if_pos hone).symm⟩
      next hone =>
        obtain rfl := Option.some.inj h
        refine ⟨rfl, rfl, fun b c (hc : c < t.n * blocks) => ?_⟩
        have hblock : 0 < blocks := Nat.pos_of_mul_pos_left (Nat.zero_lt_of_lt hc)
        have hn : c / blocks < t.n := (Nat.div_lt_iff_lt_mul hblock).mpr hc
        -- the place of the reshape, split again at the ends of the rows
        have hplace : b * (t.n * blocks) + c = c + b * t.n * blocks := by ring
        have hrow : c / blocks + b * t.n = c / blocks + t.n * b := by ring
        have hdiv : (b * (t.n * blocks) + c) / blocks = c / blocks + t.n * b := by
          rw [hplace, Nat.add_mul_div_right _ _ hblock, hrow]
        have hmod : (b * (t.n * blocks) + c) % blocks = c % blocks := by
          rw [hplace, Nat.add_mul_mod_self_right]
        rw [if_neg hone]
        dsimp only
        rw [hdiv, hmod, Nat.add_mul_div_left _ _ (Nat.zero_lt_of_lt hn), Nat.div_eq_of_lt hn,
          Nat.zero_add, Nat.add_mul_mod_self_left, Nat.mod_eq_of_lt hn, toInt32_block]

/-- In the tables of the decode graphs, of a row of pages, the expansion is that of the row. -/
theorem entry_eq_row (h : t.expandIndexPageTable fullPageSize ratio indexPageSize = some e)
    {row : ℕ → ℕ} {b c : ℕ} (hrow : ∀ i, t.entry b i = row i) (hc : c < e.n)
    (hfits : LuzServing.expandIndexPageTable row fullPageSize ratio c < 2 ^ 31) :
    e.entry b c = LuzServing.expandIndexPageTable row fullPageSize ratio c := by
  obtain ⟨blocks, hpos, hslots, -, -, hentry⟩ := expandIndexPageTable_eq_some h
  rw [LuzServing.expandIndexPageTable, hslots, Nat.mul_div_cancel_left _ hpos] at hfits ⊢
  rw [hentry b c hc]
  by_cases hone : blocks = 1
  · rw [if_pos hone, if_pos hone, hrow]
  · rw [if_neg hone] at hfits
    rw [if_neg hone, if_neg hone, hrow]
    have hlt : (row (c / blocks) * blocks + (c % blocks : ℕ) : ℤ) < 2 ^ 31 := by
      exact_mod_cast hfits
    have hle : (0 : ℤ) ≤ row (c / blocks) * blocks + (c % blocks : ℕ) := by positivity
    rw [Nat.cast_add, Nat.cast_mul, toInt32_eq_self]
    exact ⟨by omega, hlt⟩

/-- **The expanded table leads to the same slot, exactly where the page number that it writes is an
`int32`**, and everywhere if a page of the full pool is one index page. -/
theorem expandIndexPageTable_resolves
    (h : t.expandIndexPageTable fullPageSize ratio indexSize = some e) {b j : ℕ} (hb : b < t.bs)
    (hj : j < t.n * (fullPageSize / ratio)) : b < e.bs ∧ j / indexSize < e.n ∧
      (e.slot indexSize b j = t.slot (fullPageSize / ratio) b j ↔
        fullPageSize / ratio = indexSize ∨
          -2 ^ 31 ≤ t.indexPage (fullPageSize / ratio) indexSize b j ∧
            t.indexPage (fullPageSize / ratio) indexSize b j < 2 ^ 31) := by
  obtain ⟨blocks, hpos, hslots, hbs, hn, hentry⟩ := expandIndexPageTable_eq_some h
  have hcol : j / indexSize < e.n := by
    rw [hn, Nat.div_lt_iff_lt_mul hpos, Nat.mul_assoc, Nat.mul_comm blocks, ← hslots]
    exact hj
  refine ⟨hbs ▸ hb, hcol, ?_⟩
  rw [← toInt32_eq_self, indexPage, slot, slot, hentry _ _ hcol, hslots,
    Nat.mul_div_cancel_left _ hpos]
  by_cases hone : blocks = 1
  · rw [if_pos hone, hone, Nat.mul_one]
    simp
  · have hne : indexSize * blocks ≠ indexSize := fun h => hone (Nat.eq_of_mul_eq_mul_left hpos
      (h.trans (Nat.mul_one _).symm))
    have hmod : j % (indexSize * blocks) / indexSize = j / indexSize % blocks :=
      Nat.mod_mul_right_div_self ..
    rw [if_neg hone, Nat.div_div_eq_div_mul, hmod, or_iff_right hne]
    -- both slots are at the same place of their index page
    have hsplit : (t.entry b (j / (indexSize * blocks)) * (indexSize * blocks : ℕ) +
        (j % (indexSize * blocks) : ℕ) : ℤ) =
        (t.entry b (j / (indexSize * blocks)) * blocks + (j / indexSize % blocks : ℕ)) * indexSize +
          (j % indexSize : ℕ) := by
      rw [Nat.mod_mul]
      push_cast
      ring
    have hcancel : (indexSize : ℤ) ≠ 0 := by exact_mod_cast hpos.ne'
    rw [hsplit, add_left_inj, mul_left_inj' hcancel]

/-- A request that has the pages 5 and 3. -/
def twoPages : PageTable := ⟨1, 2, fun _ i => if i = 0 then 5 else 3⟩

theorem expandIndexPageTable_resolves_twoPages : ∃ e, twoPages.expandIndexPageTable 256 1 64 =
    some e ∧ e.slot 64 0 300 = twoPages.slot 256 0 300 :=
  ⟨_, rfl, (expandIndexPageTable_resolves
    (rfl : twoPages.expandIndexPageTable 256 1 64 = some _)
    (by decide : 0 < 1) (by decide : 300 < 2 * (256 / 1))).2.2.mpr (.inr (by decide))⟩

/-- The first index page of page `2 ^ 30` is `2 ^ 32`, which is 0 as an `int32`. -/
theorem not_expandIndexPageTable_resolves : ¬ ∀ (t e : PageTable)
    (fullPageSize ratio indexSize b j : ℕ),
    t.expandIndexPageTable fullPageSize ratio indexSize = some e → b < t.bs →
      j < t.n * (fullPageSize / ratio) →
      e.slot indexSize b j = t.slot (fullPageSize / ratio) b j := by
  intro h
  exact absurd (h ⟨1, 1, fun _ _ => 2 ^ 30⟩ _ 256 1 64 0 0 rfl (by decide) (by decide)) (by decide)

end PageTable

end LuzServing

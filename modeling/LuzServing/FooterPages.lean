import Mathlib.Tactic
import Mathlib.Order.CompletePartialOrder
import Mathlib.Order.Interval.Set.Disjoint

/-!
# Pages with a footer

A page of so many tokens has their data rows, one after the other, then their scale rows, then
padding up to a stride. `rowStart` is where a row starts. A byte is of one region, one token and one
column at most (`rowStart_inj`), so rows do not meet (`rows_disjoint`), and they stay in the page of
their token (`row_subset_page`).
-/

namespace LuzServing

/-- The two regions of a page. -/
inductive Region : Type where
  /-- the data rows -/
  | data
  /-- the scale rows, behind them -/
  | scale
  deriving DecidableEq

/-- Pages of data rows followed by scale rows. -/
structure FooterPages : Type where
  /-- the tokens of a page -/
  slots : ℕ
  /-- a page has one -/
  slots_pos : 0 < slots
  /-- the bytes of a token's row, by region -/
  width : Region → ℕ
  /-- the bytes from a page to the next -/
  stride : ℕ
  /-- the rows fit in a page -/
  fits : slots * (width .data + width .scale) ≤ stride

namespace FooterPages

variable (g : FooterPages)

/-- Where a region starts in a page. -/
def base : Region → ℕ
  | .data => 0
  | .scale => g.slots * g.width .data

/-- Where a token's row starts in its page. -/
def inPage (r : Region) (t : ℕ) : ℕ := g.base r + t % g.slots * g.width r

/-- Where a token's row starts. -/
def rowStart (r : Region) (t : ℕ) : ℕ := t / g.slots * g.stride + g.inPage r t

/-- The bytes of a token's row. -/
def row (r : Region) (t : ℕ) : Set ℕ := Set.Ico (g.rowStart r t) (g.rowStart r t + g.width r)

/-- The bytes of a page. -/
def page (p : ℕ) : Set ℕ := Set.Ico (p * g.stride) ((p + 1) * g.stride)

/-! ## Rows -/

theorem base_data : g.base .data = 0 := rfl

theorem base_scale : g.base .scale = g.slots * g.width .data := rfl

variable {g}

/-- A byte of a row is some bytes behind its start. -/
theorem mem_row {r : Region} {t a : ℕ} :
    a ∈ g.row r t ↔ ∃ i, i < g.width r ∧ a = g.rowStart r t + i := by
  constructor
  · rintro ⟨hle, hlt⟩
    exact ⟨a - g.rowStart r t, by omega, by omega⟩
  · rintro ⟨i, hi, rfl⟩
    exact ⟨by omega, by omega⟩

/-- The rows of a region end where the next region, or the padding, starts. -/
theorem inPage_add_lt (r : Region) (t : ℕ) {i : ℕ} (hi : i < g.width r) :
    g.inPage r t + i < g.base r + g.slots * g.width r := by
  have hslot : t % g.slots + 1 ≤ g.slots := Nat.mod_lt t g.slots_pos
  have hrow := Nat.mul_le_mul_right (g.width r) hslot
  rw [Nat.succ_mul] at hrow
  rw [inPage]
  omega

/-- Each region of a page ends within the page, so the rows of a page lie in it. -/
theorem base_add_le (r : Region) : g.base r + g.slots * g.width r ≤ g.stride := by
  have hfits := g.fits
  rw [Nat.mul_add] at hfits
  cases r with
  | data =>
    rw [base_data]
    omega
  | scale =>
    rw [base_scale]
    exact hfits

/-- A byte of a row is a byte of the page. -/
theorem inPage_lt_stride (r : Region) (t : ℕ) {i : ℕ} (hi : i < g.width r) :
    g.inPage r t + i < g.stride :=
  (inPage_add_lt r t hi).trans_le (base_add_le r)

/-- The page of a byte of a row is the page of the token that the row belongs to. -/
theorem rowStart_div (r : Region) (t : ℕ) {i : ℕ} (hi : i < g.width r) :
    (g.rowStart r t + i) / g.stride = t / g.slots := by
  have hlt := inPage_lt_stride r t hi
  have hpos : 0 < g.stride := Nat.zero_lt_of_lt hlt
  rw [rowStart, Nat.add_assoc, Nat.add_comm, Nat.add_mul_div_right _ _ hpos,
    Nat.div_eq_of_lt hlt, Nat.zero_add]

/-- A byte of a row is found in its page at the place that the layout gives it. -/
theorem rowStart_mod (r : Region) (t : ℕ) {i : ℕ} (hi : i < g.width r) :
    (g.rowStart r t + i) % g.stride = g.inPage r t + i := by
  rw [rowStart, Nat.add_assoc, Nat.add_comm, Nat.add_mul_mod_self_right,
    Nat.mod_eq_of_lt (inPage_lt_stride r t hi)]

/-- The rows of one region do not meet within a page: a byte tells its slot and its place in the
row. -/
theorem inPage_inj {r : Region} {t t' i i' : ℕ} (hi : i < g.width r) (hi' : i' < g.width r)
    (h : g.inPage r t + i = g.inPage r t' + i') : t % g.slots = t' % g.slots ∧ i = i' := by
  have hpos : 0 < g.width r := Nat.zero_lt_of_lt hi
  have hrow : t % g.slots * g.width r + i = t' % g.slots * g.width r + i' := by
    simp only [inPage] at h
    omega
  have hslot := congrArg (· / g.width r) hrow
  simp only [Nat.add_comm _ i, Nat.add_comm _ i', Nat.add_mul_div_right _ _ hpos,
    Nat.div_eq_of_lt hi, Nat.div_eq_of_lt hi', Nat.zero_add] at hslot
  rw [hslot] at hrow
  exact ⟨hslot, Nat.add_left_cancel hrow⟩

/-- The data rows of a page come before its scale rows. -/
theorem inPage_data_lt_scale (t t' : ℕ) {i : ℕ} (hi : i < g.width .data) (i' : ℕ) :
    g.inPage .data t + i < g.inPage .scale t' + i' := by
  have hlt := inPage_add_lt .data t hi
  rw [base_data] at hlt
  rw [inPage.eq_def g .scale, base_scale]
  omega

/-- **A byte has one place**: one region, one token and one column. -/
theorem rowStart_inj {r r' : Region} {t t' i i' : ℕ} (hi : i < g.width r) (hi' : i' < g.width r')
    (h : g.rowStart r t + i = g.rowStart r' t' + i') : r = r' ∧ t = t' ∧ i = i' := by
  have hpage : t / g.slots = t' / g.slots := by
    rw [← rowStart_div r t hi, ← rowStart_div r' t' hi', h]
  have hin : g.inPage r t + i = g.inPage r' t' + i' := by
    rw [← rowStart_mod r t hi, ← rowStart_mod r' t' hi', h]
  have hregion : r = r' := by
    cases r with
    | data =>
      cases r' with
      | data => rfl
      | scale => exact absurd hin (inPage_data_lt_scale t t' hi i').ne
    | scale =>
      cases r' with
      | data => exact absurd hin.symm (inPage_data_lt_scale t' t hi' i).ne
      | scale => rfl
  subst hregion
  obtain ⟨hslot, hcol⟩ := inPage_inj hi hi' hin
  refine ⟨rfl, ?_, hcol⟩
  rw [← Nat.div_add_mod t g.slots, hpage, hslot, Nat.div_add_mod]

/-- **Rows do not meet**: those of two tokens, or of two regions, have no byte in common. -/
theorem rows_disjoint :
    Pairwise (Function.onFun Disjoint fun k : Region × ℕ => g.row k.1 k.2) := by
  rintro ⟨r, t⟩ ⟨r', t'⟩ hne
  refine Set.disjoint_left.mpr fun a ha ha' => hne ?_
  obtain ⟨i, hi, rfl⟩ := mem_row.mp ha
  obtain ⟨i', hi', h⟩ := mem_row.mp ha'
  obtain ⟨rfl, rfl, -⟩ := rowStart_inj hi hi' h
  rfl

/-- **A row is in the page of its token**, with all of its bytes. -/
theorem row_subset_page (r : Region) (t : ℕ) : g.row r t ⊆ g.page (t / g.slots) := by
  intro a ha
  obtain ⟨i, hi, rfl⟩ := mem_row.mp ha
  have hlt := inPage_lt_stride r t hi
  refine ⟨?_, ?_⟩
  · rw [rowStart]
    omega
  · rw [rowStart, Nat.succ_mul]
    omega

end FooterPages

end LuzServing

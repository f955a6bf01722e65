import Mathlib.Tactic

/-!
# Rounding to a grid

A grid is an increasing sequence of values `g 0`, …, `g n`. A number rounds to the entry whose
rounding interval it is in (`RoundsTo`): the interval ends at the midpoints to the neighbours,
and has its ends when the entry's index is even. Such an entry is a nearest one, and of two
nearest it is the one of even index (`RoundsTo.nearest`, `RoundsTo.even_of_tie`). There is one
for every number (`roundsTo_bucketIndex`, `RoundsTo.unique`), and rounding is monotone
(`RoundsTo.mono`).
-/

namespace LuzServing

universe u

variable {K : Type u} [Field K] [LinearOrder K]

/-! ## Rounding intervals -/

/-- The midpoint of an entry and the next. -/
def mid (g : ℕ → K) (k : ℕ) : K := (g k + g (k + 1)) / 2

/-- `x` is in the rounding interval of the entry of index `k`. -/
structure RoundsTo (g : ℕ → K) (n : ℕ) (x : K) (k : ℕ) : Prop where
  /-- the index is one of the grid -/
  le : k ≤ n
  /-- not below the midpoint to the entry before -/
  lower : ∀ j, j + 1 = k → mid g j ≤ x
  /-- at it when the index is even -/
  lower_even : ∀ j, j + 1 = k → mid g j = x → Even k
  /-- not above the midpoint to the next entry -/
  upper : k < n → x ≤ mid g k
  /-- at it when the index is even -/
  upper_even : k < n → x = mid g k → Even k

/-- The entries of a grid increase. -/
def IsGrid (g : ℕ → K) (n : ℕ) : Prop := ∀ k, k < n → g k < g (k + 1)

variable {g : ℕ → K} {n k l j : ℕ} {x y : K}

omit [Field K] in
/-- Of two entries of a grid the one with the smaller index is strictly smaller. -/
theorem IsGrid.lt (hg : IsGrid g n) (hkl : k < l) (hl : l ≤ n) : g k < g l := by
  induction l, hkl using Nat.le_induction with
  | base => exact hg k hl
  | succ l _ ih => exact (ih (Nat.le_of_succ_le hl)).trans (hg l hl)

omit [Field K] in
/-- Of two entries of a grid the one with the smaller index is not larger. -/
theorem IsGrid.le (hg : IsGrid g n) (hkl : k ≤ l) (hl : l ≤ n) : g k ≤ g l := by
  rcases hkl.eq_or_lt with rfl | hlt
  · exact le_rfl
  · exact (hg.lt hlt hl).le

variable [IsStrictOrderedRing K]

/-- The midpoint of two neighbouring entries lies strictly between the two. -/
theorem IsGrid.mid_bounds (hg : IsGrid g n) (hk : k < n) : g k < mid g k ∧ mid g k < g (k + 1) := by
  have hlt := hg k hk
  constructor
  · rw [mid]
    linarith
  · rw [mid]
    linarith

/-- Of two midpoints of a grid the one with the smaller index is strictly smaller. -/
theorem IsGrid.mid_lt (hg : IsGrid g n) (hkl : k < l) (hl : l < n) : mid g k < mid g l :=
  ((hg.mid_bounds (hkl.trans hl)).2.trans_le (hg.le hkl hl.le)).trans (hg.mid_bounds hl).1

/-- Of two midpoints of a grid the one with the smaller index is not larger. -/
theorem IsGrid.mid_le (hg : IsGrid g n) (hkl : k ≤ l) (hl : l < n) : mid g k ≤ mid g l := by
  rcases hkl.eq_or_lt with rfl | hlt
  · exact le_rfl
  · exact (hg.mid_lt hlt hl).le

/-- **Rounding is monotone**: a number that is not larger has an entry whose index is not larger. -/
theorem RoundsTo.mono (hg : IsGrid g n) (hx : RoundsTo g n x k) (hy : RoundsTo g n y l)
    (hxy : x ≤ y) : k ≤ l := by
  by_contra hlt
  -- `y` is below the midpoint after `l`, and `x` above the one before `k`
  obtain ⟨m, rfl⟩ := Nat.exists_eq_succ_of_ne_zero (Nat.ne_zero_of_lt (not_le.mp hlt))
  have hm : m < n := hx.le
  have hlm : l ≤ m := by omega
  have hlower := hx.lower m rfl
  have hupper := hy.upper (hlm.trans_lt hm)
  have hle := hg.mid_le hlm hm
  rcases hlm.eq_or_lt with rfl | hlt
  · -- they are one midpoint, of neighbours, and both indices are even
    have hxm : mid g l = x := le_antisymm hlower (hxy.trans hupper)
    have hym : y = mid g l := le_antisymm hupper (hxm.le.trans hxy)
    have hevenSucc := hx.lower_even l rfl hxm
    have heven := hy.upper_even hm hym
    rw [Nat.even_add_one] at hevenSucc
    exact hevenSucc heven
  · have := hg.mid_lt hlt hm
    linarith

/-- A number rounds to one entry only, since ties are decided by the parity of the index. -/
theorem RoundsTo.unique (hg : IsGrid g n) (h : RoundsTo g n x k) (h' : RoundsTo g n x l) :
    k = l :=
  le_antisymm (h.mono hg h' le_rfl) (h'.mono hg h le_rfl)

/-- An entry of the grid rounds to itself, since it lies between the midpoints around it. -/
theorem RoundsTo.self (hg : IsGrid g n) (hk : k ≤ n) : RoundsTo g n (g k) k where
  le := hk
  lower j hj := by
    obtain rfl := hj
    exact (hg.mid_bounds hk).2.le
  lower_even j hj heq := by
    obtain rfl := hj
    exact absurd heq (hg.mid_bounds hk).2.ne
  upper hlt := (hg.mid_bounds hlt).1.le
  upper_even hlt heq := absurd heq (hg.mid_bounds hlt).1.ne

/-- A number that is not below the last entry of the grid saturates: it rounds to this entry. -/
theorem RoundsTo.last (hg : IsGrid g n) (hx : g n ≤ x) : RoundsTo g n x n where
  le := le_rfl
  lower j hj := by
    obtain rfl := hj
    exact (hg.mid_bounds (Nat.lt_succ_self j)).2.le.trans hx
  lower_even j hj heq := by
    obtain rfl := hj
    exact absurd hx (not_le.mpr (heq ▸ (hg.mid_bounds (Nat.lt_succ_self j)).2))
  upper hlt := absurd hlt (lt_irrefl n)
  upper_even hlt := absurd hlt (lt_irrefl n)

/-! ## Nearest entries -/

/-- To a number that is not below the midpoint of two, the larger is as near, and as near as
the smaller only at the midpoint. -/
theorem abs_sub_le_of_mid_le {a b : K} (hab : a < b) (hx : (a + b) / 2 ≤ x) :
    |x - b| ≤ |x - a| ∧ (|x - a| = |x - b| → (a + b) / 2 = x) := by
  have ha : |x - a| = x - a := abs_of_nonneg (by linarith)
  rw [ha]
  rcases le_total b x with hb | hb
  · rw [abs_of_nonneg (sub_nonneg.mpr hb)]
    exact ⟨by linarith, fun h => by linarith⟩
  · rw [abs_of_nonpos (sub_nonpos.mpr hb)]
    exact ⟨by linarith, fun h => by linarith⟩

/-- To a number that is not above the midpoint of two, the smaller is as near, and as near as
the larger only at the midpoint. -/
theorem abs_sub_le_of_le_mid {a b : K} (hab : a < b) (hx : x ≤ (a + b) / 2) :
    |x - a| ≤ |x - b| ∧ (|x - b| = |x - a| → x = (a + b) / 2) := by
  have hb : |x - b| = b - x := by
    rw [abs_of_nonpos (by linarith), neg_sub]
  rw [hb]
  rcases le_total a x with ha | ha
  · rw [abs_of_nonneg (sub_nonneg.mpr ha)]
    exact ⟨by linarith, fun h => by linarith⟩
  · rw [abs_of_nonpos (sub_nonpos.mpr ha)]
    exact ⟨by linarith, fun h => by linarith⟩

/-- An entry and a number that rounds to another: as near as the other, only at a midpoint
that the other's interval has. -/
theorem RoundsTo.nearest_and_even (hg : IsGrid g n) (h : RoundsTo g n x k) (hj : j ≤ n)
    (hne : j ≠ k) : |x - g k| ≤ |x - g j| ∧ (|x - g j| = |x - g k| → Even k) := by
  rcases hne.lt_or_gt with hlt | hgt
  · obtain ⟨m, rfl⟩ := Nat.exists_eq_succ_of_ne_zero (Nat.ne_zero_of_lt hlt)
    have hjm := hg.le (Nat.le_of_lt_succ hlt) (Nat.le_of_succ_le h.le)
    have hlower := h.lower m rfl
    rw [mid] at hlower
    obtain ⟨hle, htie⟩ := abs_sub_le_of_mid_le (x := x) (hg.lt hlt h.le) (by linarith)
    refine ⟨hle, fun heq => h.lower_even m rfl (le_antisymm (h.lower m rfl) ?_)⟩
    rw [← htie heq, mid]
    linarith
  · have hk : k < n := hgt.trans_le hj
    have hkj := hg.le hgt hj
    have hupper := h.upper hk
    rw [mid] at hupper
    obtain ⟨hle, htie⟩ := abs_sub_le_of_le_mid (x := x) (hg.lt hgt hj) (by linarith)
    refine ⟨hle, fun heq => h.upper_even hk (le_antisymm (h.upper hk) ?_)⟩
    rw [htie heq, mid]
    linarith

/-- **A number rounds to a nearest entry**: no entry of the grid is closer to it. -/
theorem RoundsTo.nearest (hg : IsGrid g n) (h : RoundsTo g n x k) (hj : j ≤ n) :
    |x - g k| ≤ |x - g j| := by
  rcases eq_or_ne j k with rfl | hne
  · exact le_rfl
  · exact (h.nearest_and_even hg hj hne).1

/-- When two entries are nearest, the number is rounded to the one whose index is even. -/
theorem RoundsTo.even_of_tie (hg : IsGrid g n) (h : RoundsTo g n x k) (hj : j ≤ n) (hne : j ≠ k)
    (heq : |x - g j| = |x - g k|) : Even k :=
  (h.nearest_and_even hg hj hne).2 heq

/-! ## Rounding with buckets -/

/-- `torch.bucketize`: how many of the boundaries are below, or with `right` not above. -/
def bucketize (x : K) (boundaries : List K) (right : Bool) : ℕ :=
  boundaries.countP fun b => if right then decide (b ≤ x) else decide (b < x)

omit [Field K] [LinearOrder K] [IsStrictOrderedRing K] in
/-- Boundaries that go up are counted up to the first that is not. -/
theorem countP_map_range {b : ℕ → K} {p : K → Bool} (hk : k ≤ n)
    (hbelow : ∀ j, j < k → p (b j) = true) (habove : ∀ j, k ≤ j → j < n → p (b j) = false) :
    ((List.range n).map b).countP p = k := by
  induction n with
  | zero => exact (Nat.le_zero.mp hk).symm
  | succ n ih =>
    rw [List.range_succ, List.map_append, List.countP_append]
    rcases Nat.le_succ_iff.mp hk with hle | rfl
    · rw [ih hle fun j hj hlt => habove j hj (Nat.lt_succ_of_lt hlt)]
      simp [habove n hle (Nat.lt_succ_self n)]
    · have hall : ((List.range n).map b).countP p = ((List.range n).map b).length :=
        List.countP_eq_length.mpr fun v hv => by
          obtain ⟨j, hj, rfl⟩ := List.mem_map.mp hv
          exact hbelow j ((List.mem_range.mp hj).trans (Nat.lt_succ_self n))
      rw [hall]
      simp [hbelow n (Nat.lt_succ_self n)]

/-- The midpoints of a grid. -/
def mids (g : ℕ → K) (n : ℕ) : List K := (List.range n).map (mid g)

/-- The index of the bucket between midpoints, and at a midpoint of the even neighbour. -/
def bucketIndex (g : ℕ → K) (n : ℕ) (x : K) : ℕ :=
  let code := bucketize x (mids g n) true
  let tieCode := bucketize x (mids g n) false
  if x ∈ mids g n then tieCode + (tieCode &&& 1) else code

/-- **Every number rounds to an entry**, the one that the buckets give. -/
theorem roundsTo_bucketIndex (hg : IsGrid g n) (x : K) : RoundsTo g n x (bucketIndex g n x) := by
  by_cases hmem : x ∈ mids g n
  · obtain ⟨t, ht, rfl⟩ := List.mem_map.mp hmem
    have ht := List.mem_range.mp ht
    have htie : bucketize (mid g t) (mids g n) false = t := by
      refine countP_map_range ht.le (fun j hj => ?_) fun j hj hlt => ?_
      · simpa using hg.mid_lt hj ht
      · simpa using hg.mid_le hj hlt
    have hindex : bucketIndex g n (mid g t) = t + t % 2 := by
      rw [bucketIndex, if_pos hmem, htie, Nat.and_one_is_mod]
    rw [hindex]
    have heven : Even (t + t % 2) := Nat.even_iff.mpr (by omega)
    -- the even neighbour is the entry before the midpoint or the one after
    rcases Nat.mod_two_eq_zero_or_one t with h0 | h1
    · rw [h0, Nat.add_zero] at heven ⊢
      refine ⟨ht.le, fun j hj => ?_, fun _ _ _ => heven, fun _ => le_rfl, fun _ _ => heven⟩
      exact hg.mid_le (by omega) ht
    · rw [h1] at heven ⊢
      refine ⟨ht, fun j hj => ?_, fun _ _ _ => heven, fun hlt => ?_, fun _ _ => heven⟩
      · obtain rfl := Nat.succ_injective hj
        exact le_rfl
      · exact hg.mid_le (Nat.le_succ t) hlt
  · have hindex : bucketIndex g n x = bucketize x (mids g n) true := if_neg hmem
    have hne : ∀ j, j < n → mid g j ≠ x := fun j hj heq =>
      hmem (List.mem_map.mpr ⟨j, List.mem_range.mpr hj, heq⟩)
    -- the first midpoint that is above
    obtain ⟨k, hk, hbelow, habove⟩ : ∃ k, k ≤ n ∧ (∀ j, j < k → mid g j ≤ x) ∧
        (k < n → x < mid g k) := by
      by_cases hex : ∃ j, j < n ∧ x < mid g j
      · refine ⟨Nat.find hex, (Nat.find_spec hex).1.le, fun j hj => ?_,
          fun _ => (Nat.find_spec hex).2⟩
        have hmin := Nat.find_min hex hj
        exact not_lt.mp fun hlt => hmin ⟨hj.trans (Nat.find_spec hex).1, hlt⟩
      · exact ⟨n, le_rfl, fun j hj => not_lt.mp fun hlt => hex ⟨j, hj, hlt⟩,
          fun h => absurd h (lt_irrefl n)⟩
    have hcount : bucketize x (mids g n) true = k := by
      refine countP_map_range hk (fun j hj => ?_) fun j hj hlt => ?_
      · simpa using hbelow j hj
      · simpa using (habove (hj.trans_lt hlt)).trans_le (hg.mid_le hj hlt)
    rw [hindex, hcount]
    refine ⟨hk, fun j hj => hbelow j (by omega), fun j hj heq => absurd heq (hne j (by omega)),
      fun hlt => (habove hlt).le, fun hlt heq => absurd heq.symm (hne k hlt)⟩

end LuzServing

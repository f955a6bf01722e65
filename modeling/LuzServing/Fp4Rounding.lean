import LuzServing.GridRounding
import LuzServing.ExactFloat

/-!
# Rounding to e2m1

The torch reference rounds to e2m1 in two ways. `round_fp4` takes a step by the magnitude and
rounds the quotient half to even; `quantize_to_e2m1_codes` looks up the bucket between the
midpoints of the grid, with a rule of its own for a midpoint. Over rational numbers both round
to the one entry of the grid whose rounding interval the magnitude is in
(`roundFp4_eq`, `dequantizeE2m1Codes_quantize`). For `round_fp4` this is because on each of the
three ranges of the magnitude the grid is a part of the natural numbers, scaled, and an index has
the parity of its number (`RoundsTo.window`).
-/

namespace LuzServing

universe u

/-! ## Rounding to natural numbers -/

/-- A number rounds to a natural number that is half of one away at most, and even where it is
half of one away. -/
theorem roundsTo_natCast {q : ℚ} {n k : ℕ} (hk : k ≤ n) (hlo : (k : ℚ) - 1 / 2 ≤ q)
    (hhi : q ≤ (k : ℚ) + 1 / 2) (htie : q = (k : ℚ) - 1 / 2 ∨ q = (k : ℚ) + 1 / 2 → Even k) :
    RoundsTo (fun k : ℕ => (k : ℚ)) n q k := by
  have hbelow : ∀ j, j + 1 = k → mid (fun k : ℕ => (k : ℚ)) j = (k : ℚ) - 1 / 2 := by
    rintro j rfl
    rw [mid]
    push_cast
    ring
  have habove : mid (fun k : ℕ => (k : ℚ)) k = (k : ℚ) + 1 / 2 := by
    rw [mid]
    push_cast
    ring
  refine ⟨hk, fun j hj => ?_, fun j hj h => ?_, fun _ => ?_, fun _ h => ?_⟩
  · rwa [hbelow j hj]
  · exact htie (.inl (h.symm.trans (hbelow j hj)))
  · rwa [habove]
  · exact htie (.inr (h.trans habove))

/-- `torch.round` of what is not negative rounds to the natural numbers. -/
theorem roundsTo_roundEven {q : ℚ} (hq : 0 ≤ q) {n : ℕ} (hn : q ≤ n) :
    RoundsTo (fun k : ℕ => (k : ℚ)) n q (Num.roundEven q) := by
  obtain ⟨f, hf⟩ := Int.eq_ofNat_of_zero_le (Int.floor_nonneg.mpr hq)
  have hfloor : q.floor.toNat = f := by
    rw [show q.floor = (f : ℤ) from hf, Int.toNat_natCast]
  have hlo : (f : ℚ) ≤ q := by
    have := Int.floor_le q
    rwa [hf, Int.cast_natCast] at this
  have hhi : q < f + 1 := by
    have := Int.lt_floor_add_one q
    rwa [hf, Int.cast_natCast] at this
  have hfn : f ≤ n := by
    have : (f : ℚ) ≤ n := hlo.trans hn
    exact_mod_cast this
  -- the quotient is up to the midpoint after `f`, beyond it, or at it
  have hround : Num.roundEven q = if q - f < 1 / 2 then f else if 1 / 2 < q - f then f + 1
      else f + f % 2 := by
    rw [Num.roundEven, hfloor]
  have hnext : 1 / 2 ≤ q - f → f + 1 ≤ n := by
    intro hge
    have : (f : ℚ) < n := by linarith
    exact_mod_cast this
  rw [hround]
  rcases lt_trichotomy (q - f) (1 / 2) with hlt | heq | hgt
  · rw [if_pos hlt]
    refine roundsTo_natCast hfn (by linarith) (by linarith) fun htie => ?_
    rcases htie with h | h
    · exact absurd h (by linarith)
    · exact absurd h (by linarith)
  · rw [if_neg heq.not_lt, if_neg heq.not_gt]
    have heven : Even (f + f % 2) := Nat.even_iff.mpr (by omega)
    rcases Nat.mod_two_eq_zero_or_one f with h0 | h1
    · rw [h0, Nat.add_zero] at heven ⊢
      exact roundsTo_natCast hfn (by linarith) (by linarith) fun _ => heven
    · rw [h1] at heven ⊢
      apply roundsTo_natCast (hnext heq.ge) _ _ fun _ => heven
      · push_cast
        linarith
      · push_cast
        linarith
  · rw [if_neg hgt.not_gt, if_pos hgt]
    refine roundsTo_natCast (hnext hgt.le) ?_ ?_ fun htie => ?_
    · push_cast
      linarith
    · push_cast
      linarith
    · push_cast at htie
      rcases htie with h | h
      · exact absurd h (by linarith)
      · exact absurd h (by linarith)

/-! ## The grid -/

/-- The entries of `_E2M1_MAGNITUDES`. -/
def e2m1Grid (k : ℕ) : ℚ := Num.e2m1Mags.getD k 0

theorem e2m1Grid_isGrid : IsGrid e2m1Grid 7 := by
  intro k hk
  interval_cases k <;> norm_num [e2m1Grid, Num.e2m1Mags]

/-- No entry of the E2M1 grid is negative, since it lists magnitudes. -/
theorem e2m1Grid_nonneg (k : ℕ) : 0 ≤ e2m1Grid k := by
  rcases lt_or_ge k 8 with hlt | hge
  · interval_cases k <;> norm_num [e2m1Grid, Num.e2m1Mags]
  · rw [e2m1Grid, List.getD_eq_default _ _ hge]

/-! ## The two roundings -/

/-- The `step` of a magnitude. -/
def fp4Step (magnitude : ℚ) : ℚ := if magnitude < 2 then 1 / 2 else if magnitude < 4 then 1 else 2

/-- `round_fp4` -/
def roundFp4 (x : ℚ) : ℚ :=
  let magnitude := |x|
  let step := fp4Step magnitude
  Num.roundEven (magnitude / step) * step * (SignType.sign x : ℚ)

/-- `torch.signbit`: no rational number is a negative zero. -/
def signbit (x : ℚ) : UInt8 := if x < 0 then 1 else 0

/-- `quantize_to_e2m1_codes` -/
def quantizeToE2m1Codes (x : ℚ) : UInt8 :=
  let mags := Num.e2m1Mags
  let sign := signbit x <<< 3
  let a := min |x| 6
  let mids := List.zipWith (fun lo hi => (lo + hi) / 2) mags.dropLast mags.tail
  let code := bucketize a mids true
  let onTie := a ∈ mids
  let tieCode := bucketize a mids false
  let code := if onTie then tieCode + (tieCode &&& 1) else code
  sign ||| UInt8.ofNat code

/-- `dequantize_e2m1_codes` -/
def dequantizeE2m1Codes (codes : UInt8) : ℚ :=
  let val := Num.e2m1Mags.getD (codes &&& 7).toNat 0
  if codes &&& 8 ≠ 0 then -val else val

/-! ## The buckets -/

theorem e2m1Mids_eq : List.zipWith (fun lo hi => (lo + hi) / 2) Num.e2m1Mags.dropLast
    Num.e2m1Mags.tail = mids e2m1Grid 7 := by
  norm_num [mids, mid, e2m1Grid, Num.e2m1Mags, List.range_succ]

/-- The index that a number rounds to. -/
def e2m1Index (x : ℚ) : ℕ := bucketIndex e2m1Grid 7 (min |x| 6)

/-- The magnitude of a number rounds to the entry of its index, also where it saturates. -/
theorem roundsTo_e2m1Index (x : ℚ) : RoundsTo e2m1Grid 7 |x| (e2m1Index x) := by
  have hindex := roundsTo_bucketIndex e2m1Grid_isGrid (min |x| 6)
  have hlast : e2m1Grid 7 = 6 := rfl
  rcases le_total |x| 6 with hle | hge
  · rw [e2m1Index]
    rwa [min_eq_left hle] at hindex ⊢
  · have hseven := RoundsTo.last e2m1Grid_isGrid (hlast.le.trans hge)
    rw [min_eq_right hge] at hindex
    have hsix := RoundsTo.last e2m1Grid_isGrid hlast.le
    rw [e2m1Index, min_eq_right hge, hindex.unique e2m1Grid_isGrid hsix]
    exact hseven

/-- The code of a number is its sign bit above the three bits of its index in the grid. -/
theorem quantizeToE2m1Codes_eq (x : ℚ) :
    quantizeToE2m1Codes x = signbit x <<< 3 ||| UInt8.ofNat (e2m1Index x) := by
  rw [quantizeToE2m1Codes, e2m1Mids_eq]
  rfl

/-- The fields of a code: its index, its sign, its parity; it has four bits. -/
theorem e2m1Code_fields (x : ℚ) {k : ℕ} (hk : k ≤ 7) :
    let code := signbit x <<< 3 ||| UInt8.ofNat k
    (code &&& 7).toNat = k ∧ (code &&& 8 ≠ 0 ↔ x < 0) ∧ (code &&& 1 = 0 ↔ Even k) ∧
      code < 16 := by
  rw [signbit]
  by_cases hx : x < 0
  · simp only [hx, iff_true]
    interval_cases k <;> decide
  · simp only [hx, iff_false]
    interval_cases k <;> decide

/-- Zero is rounded to the first entry of the grid, which is zero. -/
theorem e2m1Index_zero : e2m1Index 0 = 0 := by
  have hround := roundsTo_e2m1Index 0
  rw [abs_zero] at hround
  exact hround.unique e2m1Grid_isGrid (RoundsTo.self e2m1Grid_isGrid (Nat.zero_le 7))

/-- A code decodes to the entry of the index, with the sign. -/
theorem dequantizeE2m1Codes_quantize (x : ℚ) :
    dequantizeE2m1Codes (quantizeToE2m1Codes x) =
      e2m1Grid (e2m1Index x) * (SignType.sign x : ℚ) := by
  obtain ⟨hindex, hsign, -, -⟩ := e2m1Code_fields x (roundsTo_e2m1Index x).le
  have hdecode : dequantizeE2m1Codes (quantizeToE2m1Codes x) =
      if x < 0 then -e2m1Grid (e2m1Index x) else e2m1Grid (e2m1Index x) := by
    rw [dequantizeE2m1Codes, quantizeToE2m1Codes_eq, hindex]
    exact if_congr hsign rfl rfl
  rw [hdecode]
  rcases lt_trichotomy x 0 with hneg | rfl | hpos
  · rw [if_pos hneg, sign_neg hneg]
    simp
  · rw [if_neg (lt_irrefl 0), e2m1Index_zero]
    simp [e2m1Grid, Num.e2m1Mags]
  · rw [if_neg hpos.not_gt, sign_pos hpos]
    simp

/-! ## A step by the magnitude -/

/-- Where a grid is a part of another, scaled, and its indices have the parity of the other's, a
number rounds to the entry that its quotient rounds to. -/
theorem RoundsTo.window {K : Type u} [Field K] [LinearOrder K] [IsStrictOrderedRing K]
    {g h : ℕ → K} {n N m lo hi shift : ℕ} {step x y : K} (hg : IsGrid g n) (hh : IsGrid h N)
    (hround : RoundsTo h N y m) (hx : x = step * y) (hstep : 0 < step) (hshift : Even shift)
    (hlohi : lo ≤ hi) (hin : hi + shift ≤ n) (hhi : hi ≤ N)
    (hscale : ∀ k, lo ≤ k → k ≤ hi → g (k + shift) = step * h k) (hly : h lo ≤ y)
    (hyh : y ≤ h hi) : RoundsTo g n x (m + shift) := by
  have hlom : lo ≤ m := (RoundsTo.self hh (hlohi.trans hhi)).mono hh hround hly
  have hmhi : m ≤ hi := hround.mono hh (RoundsTo.self hh hhi) hyh
  have hmid : ∀ k, lo ≤ k → k < hi → mid g (k + shift) = step * mid h k := by
    intro k hlo hlt
    have hnext : k + shift + 1 = k + 1 + shift := by omega
    rw [mid, mid, hnext, hscale k hlo hlt.le, hscale (k + 1) (by omega) hlt]
    ring
  have heven : Even m → Even (m + shift) := fun h => h.add hshift
  -- below the first entry of the part there is nothing to round to
  have hlower : ∀ j, j + 1 = m + shift →
      mid g j ≤ x ∧ (mid g j = x → Even (m + shift)) := by
    intro j hj
    rcases hlom.eq_or_lt with rfl | hlt
    · have hmem : lo + shift ≤ n := by omega
      have hbelow := (hg.mid_bounds (k := j) (by omega)).2
      rw [hj, hscale lo le_rfl hlohi] at hbelow
      have hx' := hbelow.trans_le ((mul_le_mul_of_nonneg_left hly hstep.le).trans hx.ge)
      exact ⟨hx'.le, fun heq => absurd heq hx'.ne⟩
    · obtain ⟨i, rfl⟩ := Nat.exists_eq_succ_of_ne_zero (Nat.ne_zero_of_lt hlt)
      obtain rfl : j = i + shift := by omega
      rw [hmid i (by omega) (by omega), hx]
      refine ⟨mul_le_mul_of_nonneg_left (hround.lower i rfl) hstep.le, fun heq => ?_⟩
      exact heven (hround.lower_even i rfl (mul_left_cancel₀ hstep.ne' heq))
  have hupper : m + shift < n → x ≤ mid g (m + shift) ∧
      (x = mid g (m + shift) → Even (m + shift)) := by
    intro hlt
    rcases hmhi.eq_or_lt with rfl | hlt'
    · have habove := (hg.mid_bounds hlt).1
      rw [hscale m hlohi le_rfl] at habove
      have hx' := (hx.le.trans (mul_le_mul_of_nonneg_left hyh hstep.le)).trans_lt habove
      exact ⟨hx'.le, fun heq => absurd heq hx'.ne⟩
    · rw [hmid m hlom hlt', hx]
      refine ⟨mul_le_mul_of_nonneg_left (hround.upper (by omega)) hstep.le, fun heq => ?_⟩
      exact heven (hround.upper_even (by omega) (mul_left_cancel₀ hstep.ne' heq))
  exact ⟨by omega, fun j hj => (hlower j hj).1, fun j hj => (hlower j hj).2,
    fun hlt => (hupper hlt).1, fun hlt => (hupper hlt).2⟩

/-- The natural numbers up to a bound are a grid: they ascend strictly. -/
theorem natCast_isGrid (n : ℕ) : IsGrid (fun k : ℕ => (k : ℚ)) n := by
  intro k _
  push_cast
  linarith

/-- In a range of the magnitude where `round_fp4` takes steps of one size, it rounds to the grid's
entry. -/
theorem roundsTo_step {a step : ℚ} (lo hi : ℕ) {shift : ℕ} (hstep : 0 < step) (hshift : Even shift)
    (hlohi : lo ≤ hi) (hin : hi + shift ≤ 7)
    (hscale : ∀ k, lo ≤ k → k ≤ hi → e2m1Grid (k + shift) = step * k) (hla : step * lo ≤ a)
    (hah : a ≤ step * hi) :
    RoundsTo e2m1Grid 7 a (Num.roundEven (a / step) + shift) ∧
      Num.roundEven (a / step) * step = e2m1Grid (Num.roundEven (a / step) + shift) := by
  have hlq : (lo : ℚ) ≤ a / step := by
    rwa [le_div_iff₀ hstep, mul_comm]
  have hqh : a / step ≤ hi := by
    rwa [div_le_iff₀ hstep, mul_comm]
  have hround := roundsTo_roundEven ((Nat.cast_nonneg lo).trans hlq) hqh
  have hgrid := natCast_isGrid hi
  refine ⟨hround.window e2m1Grid_isGrid hgrid (mul_div_cancel₀ a hstep.ne').symm hstep hshift hlohi
    hin le_rfl hscale hlq hqh, ?_⟩
  rw [hscale _ ((RoundsTo.self hgrid hlohi).mono hgrid hround hlq) hround.le, mul_comm]

/-- `round_fp4` gives the entry that the magnitude rounds to, with the sign. -/
theorem roundFp4_eq {x : ℚ} (hx : |x| ≤ 6) :
    roundFp4 x = e2m1Grid (e2m1Index x) * (SignType.sign x : ℚ) := by
  obtain ⟨shift, hround, hvalue⟩ : ∃ shift,
      RoundsTo e2m1Grid 7 |x| (Num.roundEven (|x| / fp4Step |x|) + shift) ∧
        Num.roundEven (|x| / fp4Step |x|) * fp4Step |x| =
          e2m1Grid (Num.roundEven (|x| / fp4Step |x|) + shift) := by
    have hpos := abs_nonneg x
    rw [fp4Step]
    rcases lt_or_ge |x| 2 with h2 | h2
    · rw [if_pos h2]
      refine ⟨0, roundsTo_step 0 4 (by norm_num) Even.zero (by decide) (by decide)
        (fun k _ hk => ?_) (by norm_num) (by norm_num; linarith)⟩
      interval_cases k <;> norm_num [e2m1Grid, Num.e2m1Mags]
    · rw [if_neg (not_lt.mpr h2)]
      rcases lt_or_ge |x| 4 with h4 | h4
      · rw [if_pos h4]
        refine ⟨2, roundsTo_step 2 4 (by norm_num) even_two (by decide) (by decide)
          (fun k hlo hk => ?_) (by norm_num; linarith) (by norm_num; linarith)⟩
        interval_cases k <;> norm_num [e2m1Grid, Num.e2m1Mags]
      · rw [if_neg (not_lt.mpr h4)]
        refine ⟨4, roundsTo_step 2 3 (by norm_num) (by decide) (by decide)
          (by decide) (fun k hlo hk => ?_) (by norm_num; linarith) (by norm_num; linarith)⟩
        interval_cases k <;> norm_num [e2m1Grid, Num.e2m1Mags]
  rw [roundFp4, hvalue, hround.unique e2m1Grid_isGrid (roundsTo_e2m1Index x)]

/-! ## The rounding -/

/-- The value that a number is rounded to. -/
def e2m1Round (x : ℚ) : ℚ := dequantizeE2m1Codes (quantizeToE2m1Codes x)

/-- **The two roundings agree**: `round_fp4` and the grid give the same number up to magnitude
six. -/
theorem roundFp4_eq_round {x : ℚ} (hx : |x| ≤ 6) : roundFp4 x = e2m1Round x := by
  rw [roundFp4_eq hx, e2m1Round, dequantizeE2m1Codes_quantize]

/-- Rounding is odd: the negative of a number is rounded to the negative of its rounding. -/
theorem e2m1Round_neg (x : ℚ) : e2m1Round (-x) = -e2m1Round x := by
  have hindex : e2m1Index (-x) = e2m1Index x := by
    rw [e2m1Index, abs_neg]
    rfl
  rw [e2m1Round, e2m1Round, dequantizeE2m1Codes_quantize, dequantizeE2m1Codes_quantize, hindex,
    Left.sign_neg]
  simp

/-- The magnitude of a rounded number is the grid's entry at the number's index. -/
theorem abs_e2m1Round (x : ℚ) : |e2m1Round x| = e2m1Grid (e2m1Index x) := by
  rw [e2m1Round, dequantizeE2m1Codes_quantize, abs_mul, abs_of_nonneg (e2m1Grid_nonneg _)]
  rcases lt_trichotomy x 0 with hneg | rfl | hpos
  · rw [sign_neg hneg]
    simp
  · rw [e2m1Index_zero]
    simp [e2m1Grid, Num.e2m1Mags]
  · rw [sign_pos hpos]
    simp

/-- A number that is not negative rounds to one that is not. -/
theorem e2m1Round_of_nonneg {x : ℚ} (hx : 0 ≤ x) : e2m1Round x = e2m1Grid (e2m1Index x) := by
  rw [← abs_e2m1Round]
  refine (abs_of_nonneg ?_).symm
  rw [e2m1Round, dequantizeE2m1Codes_quantize]
  refine mul_nonneg (e2m1Grid_nonneg _) ?_
  rcases hx.eq_or_lt with rfl | hpos
  · rw [sign_zero]
    exact le_rfl
  · rw [sign_pos hpos]
    exact zero_le_one

/-- Rounding is monotone: a number that is not larger is not rounded to a larger one. -/
theorem e2m1Round_mono {x y : ℚ} (hxy : x ≤ y) : e2m1Round x ≤ e2m1Round y := by
  have hnonneg : ∀ {x y : ℚ}, 0 ≤ x → x ≤ y → e2m1Round x ≤ e2m1Round y := by
    intro x y hx hxy
    have hle : |x| ≤ |y| := abs_le_abs_of_nonneg hx hxy
    rw [e2m1Round_of_nonneg hx, e2m1Round_of_nonneg (hx.trans hxy)]
    exact e2m1Grid_isGrid.le
      ((roundsTo_e2m1Index x).mono e2m1Grid_isGrid (roundsTo_e2m1Index y) hle)
      (roundsTo_e2m1Index y).le
  have hzero : e2m1Round 0 = 0 := by
    rw [e2m1Round_of_nonneg le_rfl, e2m1Index_zero]
    rfl
  rcases le_total 0 x with hx | hx
  · exact hnonneg hx hxy
  · have hnegx := hnonneg le_rfl (neg_nonneg.mpr hx)
    rw [hzero, e2m1Round_neg] at hnegx
    rcases le_total 0 y with hy | hy
    · have hposy := hnonneg le_rfl hy
      rw [hzero] at hposy
      linarith
    · have hneg := hnonneg (neg_nonneg.mpr hy) (neg_le_neg hxy)
      rw [e2m1Round_neg, e2m1Round_neg] at hneg
      linarith

/-- A number that has been rounded is an entry, so rounding it again changes nothing. -/
theorem e2m1Round_idem (x : ℚ) : e2m1Round (e2m1Round x) = e2m1Round x := by
  have hnonneg : ∀ {x : ℚ}, 0 ≤ x → e2m1Round (e2m1Round x) = e2m1Round x := by
    intro x hx
    have hround := roundsTo_e2m1Index (e2m1Round x)
    rw [abs_e2m1Round] at hround
    have hindex := hround.unique e2m1Grid_isGrid
      (RoundsTo.self e2m1Grid_isGrid (roundsTo_e2m1Index x).le)
    have hpos : 0 ≤ e2m1Round x := by
      rw [e2m1Round_of_nonneg hx]
      exact e2m1Grid_nonneg _
    rw [e2m1Round_of_nonneg hpos, hindex, e2m1Round_of_nonneg hx]
  rcases le_total 0 x with hx | hx
  · exact hnonneg hx
  · have hneg := hnonneg (neg_nonneg.mpr hx)
    rwa [e2m1Round_neg, e2m1Round_neg, neg_inj] at hneg

/-- **Rounding gives a nearest value**, and of two nearest the one of an even code. -/
theorem e2m1Round_nearest (x : ℚ) (c : UInt8) :
    |x - e2m1Round x| ≤ |x - dequantizeE2m1Codes c| ∧
      (|x - dequantizeE2m1Codes c| = |x - e2m1Round x| → dequantizeE2m1Codes c ≠ e2m1Round x →
        quantizeToE2m1Codes x &&& 1 = 0) := by
  have hround := roundsTo_e2m1Index x
  -- the distance is that of the magnitudes, and no code's is less than that of the magnitudes
  have hdist : |x - e2m1Round x| = |(|x|) - e2m1Grid (e2m1Index x)| := by
    rw [e2m1Round, dequantizeE2m1Codes_quantize]
    rcases lt_trichotomy x 0 with hneg | rfl | hpos
    · rw [sign_neg hneg, abs_of_neg hneg, ← abs_neg]
      congr 1
      rw [SignType.coe_neg, SignType.coe_one]
      ring
    · rw [e2m1Index_zero]
      simp [e2m1Grid, Num.e2m1Mags]
    · rw [sign_pos hpos, abs_of_pos hpos]
      simp
  obtain ⟨j, hj, hvalue⟩ : ∃ j, j ≤ 7 ∧ |dequantizeE2m1Codes c| = e2m1Grid j := by
    refine ⟨(c &&& 7).toNat, ?_, ?_⟩
    · rw [UInt8.toNat_and]
      exact Nat.and_le_right
    · rw [dequantizeE2m1Codes, apply_ite abs, abs_neg, ite_self]
      exact abs_of_nonneg (e2m1Grid_nonneg _)
  have hle : |(|x|) - e2m1Grid j| ≤ |x - dequantizeE2m1Codes c| := by
    rw [← hvalue]
    exact abs_abs_sub_abs_le _ _
  have hnear := hround.nearest e2m1Grid_isGrid hj
  refine ⟨hdist.le.trans (hnear.trans hle), fun heq hne => ?_⟩
  obtain ⟨-, -, heven, -⟩ := e2m1Code_fields x hround.le
  rw [quantizeToE2m1Codes_eq, heven]
  by_cases hsame : j = e2m1Index x
  · -- the other value is the one of the other sign, and as near only to zero
    rw [hsame, ← abs_e2m1Round] at hvalue
    have hsign := (abs_eq_abs.mp hvalue).resolve_left hne
    rw [hsign] at heq hne
    have hzero : x = 0 := by
      rcases abs_eq_abs.mp heq with h | h
      · exact absurd (by linarith) hne
      · linarith
    rw [hzero, e2m1Index_zero]
    exact Even.zero
  · rw [hdist] at heq
    exact hround.even_of_tie e2m1Grid_isGrid hj hsame (le_antisymm (hle.trans heq.le) hnear)

/-- Numbers from 6 on have the code of 6, and numbers up to -6 that of -6. -/
theorem quantizeToE2m1Codes_saturate {x : ℚ} :
    (6 ≤ x → quantizeToE2m1Codes x = quantizeToE2m1Codes 6) ∧
      (x ≤ -6 → quantizeToE2m1Codes x = quantizeToE2m1Codes (-6)) := by
  constructor
  · intro hx
    have habs : min |x| 6 = min |6| 6 := by
      rw [abs_of_nonneg (by linarith), abs_of_nonneg (by norm_num), min_eq_right hx, min_self]
    rw [quantizeToE2m1Codes_eq, quantizeToE2m1Codes_eq, e2m1Index, e2m1Index, habs, signbit,
      signbit, if_neg (by linarith), if_neg (by norm_num)]
  · intro hx
    have habs : min |x| 6 = min |-6| 6 := by
      rw [abs_of_nonpos (by linarith), abs_of_nonpos (by norm_num), min_eq_right (by linarith)]
      norm_num
    rw [quantizeToE2m1Codes_eq, quantizeToE2m1Codes_eq, e2m1Index, e2m1Index, habs, signbit,
      signbit, if_pos (by linarith), if_pos (by norm_num)]

end LuzServing

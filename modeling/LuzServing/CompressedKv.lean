import LuzServing.Fp4Rounding
import LuzServing.Fp4Agreement

/-!
# Fake quantization of the compressed KV

`fake_quant_compressed_kv` rounds a row to the values that the V41_FP4 cache can hold, without
packing it. The reference pack writes codes and scale bytes into pages and reads them back. Over
rational numbers both give the same row, element by element, for every page size and with
whatever positive scales, those of the source among them (`fake_quant_compressed_kv_pack`).
-/

namespace LuzServing

/-! ## Scales -/

/-- `torch.clamp` -/
def clampTo (lo hi x : ℚ) : ℚ := min (max x lo) hi

/-- The e4m3 scale of a tile's greatest magnitude: a sixth of it, clamped to what is positive and
finite. -/
def compressedKvScale (amax : ℚ) : UInt8 :=
  Num.toE4m3 (.num false (clampTo (1 / 512) 448 (amax * (1 / 6))))

/-- The value of an e4m3 byte that is not NaN-coded. -/
def e4m3Value (s : UInt8) : ℚ :=
  match Num.e4m3 s with
  | .nan => 0
  | .num neg q => Num.value neg q

theorem shift_pos {q : ℚ} (hq : 0 < q) (k : ℤ) : 0 < Num.shift q k := by
  have hpow : ∀ m : ℕ, (0 : ℚ) < (2 ^ m : ℕ) := fun m => Nat.cast_pos.mpr (Nat.two_pow_pos m)
  rw [Num.shift]
  split
  · exact mul_pos hq (hpow _)
  · exact div_pos hq (hpow _)

/-- A byte between zero and the NaN code has a positive value. -/
theorem e4m3Value_pos {n : ℕ} (hpos : 0 < n) (hlt : n < 127) : 0 < e4m3Value (UInt8.ofNat n) := by
  have hnan : nanCoded (UInt8.ofNat n) = false := by
    interval_cases n <;> rfl
  have hself : (UInt8.ofNat n).toNat = n := UInt8.toNat_ofNat_of_lt' (hlt.trans (by decide))
  have hsign : ¬ 128 ≤ UInt8.ofNat n := by
    rw [UInt8.le_iff_toNat_le, hself]
    exact not_le.mpr (hlt.trans (by decide))
  rw [e4m3Value, Num.e4m3, if_neg (by rw [hnan]; exact Bool.false_ne_true)]
  dsimp only
  rw [decide_eq_false hsign, Num.value, if_neg Bool.false_ne_true, hself, Nat.mod_eq_of_lt
    (by omega : n < 128)]
  split
  next hzero => exact shift_pos (Nat.cast_pos.mpr (by omega)) _
  next => exact shift_pos (Nat.cast_pos.mpr (by omega)) _

/-- The scale of a tile decodes to a positive value, whatever the magnitudes in it are. -/
theorem compressedKvScale_pos (amax : ℚ) : 0 < e4m3Value (compressedKvScale amax) := by
  have hlo : 1 / 512 ≤ clampTo (1 / 512) 448 (amax * (1 / 6)) :=
    le_min (le_max_right _ _) (by norm_num)
  rw [compressedKvScale]
  generalize clampTo (1 / 512) 448 (amax * (1 / 6)) = q at hlo
  have hq : q ≠ 0 := by
    rintro rfl
    norm_num at hlo
  rw [Num.toE4m3, if_neg Bool.false_ne_true, if_neg hq, UInt8.zero_add]
  -- the least exponent is that of the subnormal bytes, the first of which is 1 / 512
  have hmag : 1 ≤ ((max (-6) (Num.floorLog2 q) + 7) * 8 +
      Num.roundEven (Num.shift q (3 - max (-6) (Num.floorLog2 q))) - 8).toNat := by
    rcases (le_max_left (-6) (Num.floorLog2 q)).eq_or_lt with heq | hlt
    · rw [← heq]
      have hshift : Num.shift q (3 - -6) = q * 512 := by
        have hpow : 2 ^ (3 - -6 : ℤ).toNat = 512 := rfl
        rw [Num.shift, if_pos (by decide), hpow]
        norm_num
      have hround : 1 ≤ Num.roundEven (q * 512) := by
        have hone : (1 : ℚ) ≤ q * 512 := by linarith
        have hceil : q * 512 ≤ ⌈q * 512⌉₊ := Nat.le_ceil _
        have hgrid := natCast_isGrid ⌈q * 512⌉₊
        have hself := RoundsTo.self hgrid (k := 1) (Nat.one_le_ceil_iff.mpr (by linarith))
        refine hself.mono hgrid (roundsTo_roundEven (by linarith) hceil) ?_
        rwa [Nat.cast_one]
      rw [hshift]
      omega
    · omega
  exact e4m3Value_pos (by omega) (by omega)

/-! ## The two ways -/

/-- A value rounded under a scale. -/
def fakeQuantValue (scale v : ℚ) : ℚ := roundFp4 (clampTo (-6) 6 (v / scale)) * scale

/-- The greatest magnitude of the tile of element `e`. -/
def kvAmax (x : ℕ → ℚ) (e : ℕ) : ℚ := foldRange max (fun e => |x e|) (16 * (e / 16)) 16

/-- `fake_quant_compressed_kv`, element `e`, with the scales `scaleByte`. -/
def fakeQuantCompressedKv (scaleByte : ℚ → UInt8) (x : ℕ → ℚ) (e : ℕ) : ℚ :=
  fakeQuantValue (e4m3Value (scaleByte (kvAmax x e))) (x e)

/-- The scalars of the reference pack, with the scales `scaleByte`. -/
def torchEncoder (scaleByte : ℚ → UInt8) : Fp4Encoder ℚ where
  abs x := |x|
  fmax := max
  scaleByte := scaleByte
  scale := e4m3Value
  code x s := quantizeToE2m1Codes (x / s + 0)
  code_lt x s := by
    rw [quantizeToE2m1Codes_eq]
    exact (e2m1Code_fields (x / s + 0) (roundsTo_e2m1Index _).le).2.2.2
  fmax_assoc := max_assoc

/-- `dequantize_k_cache_v41_fp4`, element `e` of a page's slot: the products need no rounding. -/
def dequantizeKCacheExact (pages : Memory) (pageSize pageBytes page slot e : ℕ) : ℚ :=
  let data (b : ℕ) := pages (page * pageBytes + slot * srcDataBytes + b)
  let scale (g : ℕ) :=
    pages (page * pageBytes + pageSize * srcDataBytes + slot * srcScaleBytes + g)
  let codes := if e % 2 = 0 then data (e / 2) &&& 0xF else data (e / 2) >>> 4
  dequantizeE2m1Codes codes * e4m3Value (scale (e / 16))

/-- A value rounded under a positive scale is its code's value under the scale. -/
theorem fakeQuantValue_eq {scale : ℚ} (v : ℚ) :
    fakeQuantValue scale v = dequantizeE2m1Codes (quantizeToE2m1Codes (v / scale + 0)) * scale := by
  have hclamp : |clampTo (-6) 6 (v / scale)| ≤ 6 :=
    abs_le.mpr ⟨le_min (le_max_right _ _) (by norm_num), min_le_right _ _⟩
  rw [fakeQuantValue, roundFp4_eq_round hclamp, add_zero, e2m1Round]
  have hcode : quantizeToE2m1Codes (clampTo (-6) 6 (v / scale)) =
      quantizeToE2m1Codes (v / scale) := by
    rcases le_total (v / scale) (-6) with hlo | hlo
    · rw [clampTo, max_eq_right hlo, min_eq_left (by norm_num)]
      exact (quantizeToE2m1Codes_saturate.2 hlo).symm
    · rw [clampTo, max_eq_left hlo]
      rcases le_total (v / scale) 6 with hhi | hhi
      · rw [min_eq_left hhi]
      · rw [min_eq_right hhi]
        exact (quantizeToE2m1Codes_saturate.1 hhi).symm
  rw [hcode]

/-- The pages of the reference pack hold what fake quantization gives. -/
theorem dequantizeKCacheExact_pack (scaleByte : ℚ → UInt8) {pageSize pageBytes slot e : ℕ}
    (hbytes : pageSize * (srcDataBytes + srcScaleBytes) ≤ pageBytes) (k : ℕ → ℕ → ℕ → ℚ)
    (page : ℕ) (hslot : slot < pageSize) (he : e < 512) :
    dequantizeKCacheExact ((torchEncoder scaleByte).quantizeKCacheV41Fp4 pageSize pageBytes k)
        pageSize pageBytes page slot e = fakeQuantCompressedKv scaleByte (k page slot) e := by
  have hpos : 0 < pageSize := (Nat.zero_le slot).trans_lt hslot
  have hdiv : (page * pageSize + slot) / pageSize = page := by
    rw [Nat.mul_comm, Nat.mul_add_div hpos, Nat.div_eq_of_lt hslot, Nat.add_zero]
  have hmod : (page * pageSize + slot) % pageSize = slot := by
    rw [Nat.mul_comm, Nat.mul_add_mod, Nat.mod_eq_of_lt hslot]
  have hholds := (torchEncoder scaleByte).quantizeKCacheV41Fp4_holds hpos hbytes k
    (page * pageSize + slot)
  rw [hdiv, hmod] at hholds
  obtain ⟨hcode, hscale⟩ := hholds e he
  rw [tokenRow, hdiv, hmod] at hcode hscale
  rw [fakeQuantCompressedKv, fakeQuantValue_eq]
  exact congrArg₂ (fun c s => dequantizeE2m1Codes c * e4m3Value s) hcode hscale

/-! ## Fake quantization is the pack, read back -/

/-- A rounding to e2m1 values, and the codes of these. -/
structure E2m1Rounding (round : ℚ → ℚ) (code : ℚ → UInt8) : Prop where
  /-- the rounding is the code's value -/
  decode : ∀ x, |x| ≤ 6 → round x = dequantizeE2m1Codes (code x)
  /-- which is a nearest value -/
  nearest : ∀ x c, |x - dequantizeE2m1Codes (code x)| ≤ |x - dequantizeE2m1Codes c|
  /-- of two nearest the one of an even code -/
  tie : ∀ x c, |x - dequantizeE2m1Codes c| = |x - dequantizeE2m1Codes (code x)| →
    dequantizeE2m1Codes c ≠ dequantizeE2m1Codes (code x) → code x &&& 1 = 0
  /-- rounding is odd -/
  odd : ∀ x, |x| ≤ 6 → round (-x) = -round x
  /-- and monotone -/
  monotone : ∀ x y, |x| ≤ 6 → |y| ≤ 6 → x ≤ y → round x ≤ round y
  /-- and rounding again changes nothing -/
  idempotent : ∀ x, |x| ≤ 6 → round (round x) = round x
  /-- what is above the range has the code of the greatest value -/
  above : ∀ x, 6 ≤ x → code x = code 6
  /-- what is below it has that of the least -/
  below : ∀ x, x ≤ -6 → code x = code (-6)

/-- The two roundings of the reference are one: to the nearest value, ties to the even code. -/
theorem roundFp4_rounding : E2m1Rounding roundFp4 quantizeToE2m1Codes where
  decode _ hx := roundFp4_eq_round hx
  nearest x c := (e2m1Round_nearest x c).1
  tie x c := (e2m1Round_nearest x c).2
  odd x hx := by
    rw [roundFp4_eq_round hx, roundFp4_eq_round (by rwa [abs_neg])]
    exact e2m1Round_neg x
  monotone x y hx hy hxy := by
    rw [roundFp4_eq_round hx, roundFp4_eq_round hy]
    exact e2m1Round_mono hxy
  idempotent x hx := by
    have hround : |e2m1Round x| ≤ 6 := by
      rw [abs_e2m1Round]
      exact e2m1Grid_isGrid.le (roundsTo_e2m1Index x).le le_rfl
    rw [roundFp4_eq_round hx, roundFp4_eq_round hround]
    exact e2m1Round_idem x
  above _ hx := quantizeToE2m1Codes_saturate.1 hx
  below _ hx := quantizeToE2m1Codes_saturate.2 hx

/-- **Fake quantization is the pack, read back.** The two roundings are one, to the nearest
e2m1 value with ties to the even code; so a value that is rounded under a positive scale is its
code's value under the scale, and a row that is fake-quantized is what the pages of the reference
pack hold of it, with the scales of the source, which are positive, or any others. -/
theorem fake_quant_compressed_kv_pack :
    E2m1Rounding roundFp4 quantizeToE2m1Codes ∧
      (∀ scale v, 0 < scale → fakeQuantValue scale v =
        dequantizeE2m1Codes (quantizeToE2m1Codes (v / scale + 0)) * scale) ∧
      (∀ amax, 0 < e4m3Value (compressedKvScale amax)) ∧
      ∀ scaleByte pageSize pageBytes k page slot e,
        pageSize * (srcDataBytes + srcScaleBytes) ≤ pageBytes → slot < pageSize → e < 512 →
        dequantizeKCacheExact ((torchEncoder scaleByte).quantizeKCacheV41Fp4 pageSize pageBytes k)
          pageSize pageBytes page slot e = fakeQuantCompressedKv scaleByte (k page slot) e := by
  refine ⟨roundFp4_rounding, fun _ v _ => fakeQuantValue_eq v, compressedKvScale_pos, ?_⟩
  intro scaleByte pageSize pageBytes k page slot e hbytes hslot he
  exact dequantizeKCacheExact_pack scaleByte hbytes k page hslot he

/-- A value at the midpoint of 5 goes to the even code, by either way. -/
example : roundFp4 5 = 4 ∧ quantizeToE2m1Codes 5 = 6 := by
  decide +kernel

end LuzServing

import LuzServing.Fp4Reference

/-!
# Floats that compute

The scalar operations of the FP4 codecs on numbers that are exact: a sign, a rational
magnitude, or NaN. Conversions round to nearest even, as the formats do; products and
quotients are not rounded, which the codecs' own are not either, save for the one quotient
whose bits are taken. The laws that the codecs' results rest on hold of them (`exactLaws`).
-/

namespace LuzServing

/-- A number as a sign and a magnitude, or NaN. -/
inductive Num : Type where
  /-- not a number -/
  | nan
  /-- a number -/
  | num (neg : Bool) (mag : ℚ)
  deriving DecidableEq

namespace Num

/-! ## Formats -/

/-- `q * 2 ^ k` -/
def shift (q : ℚ) (k : ℤ) : ℚ := if 0 ≤ k then q * (2 ^ k.toNat : ℕ) else q / (2 ^ (-k).toNat : ℕ)

/-- The exponent of a positive number, rounded down. -/
def floorLog2 (q : ℚ) : ℤ :=
  let e : ℤ := Nat.log2 q.num.natAbs - Nat.log2 q.den
  if shift 1 e ≤ q then e else e - 1

/-- The nearest natural number, the even one of two. -/
def roundEven (q : ℚ) : ℕ :=
  let f := q.floor.toNat
  let r := q - f
  if r < 1 / 2 then f else if 1 / 2 < r then f + 1 else f + f % 2

/-- The 31 magnitude bits of a binary32: a number that is not zero is rounded to a normal
one. -/
def magBits (q : ℚ) : ℕ :=
  if q = 0 then 0
  else
    let e := (max 1 (min 254 (floorLog2 q + 127))).toNat
    (e - 1) * 2 ^ 23 + max (2 ^ 23) (min (2 ^ 24) (roundEven (shift q (150 - e))))

/-- The bits of a binary32. -/
def bits : Num → UInt32
  | .nan => 0x7FC00000
  | .num neg q => UInt32.ofNat ((if neg then 2 ^ 31 else 0) + magBits q)

/-- A binary32 of these bits. -/
def ofBits (u : UInt32) : Num :=
  if exponentBits u = 255 then .nan
  else
    let e : ℤ := max 1 (exponentBits u).toNat
    let hidden := if exponentBits u = 0 then 0 else 2 ^ 23
    .num (2 ^ 31 ≤ u.toNat) (shift (hidden + (mantissaBits u).toNat : ℕ) (e - 150))

/-- The magnitudes of e2m1. -/
def e2m1Mags : List ℚ := [0, 1 / 2, 1, 3 / 2, 2, 3, 4, 6]

/-- An e2m1 code as a number. -/
def e2m1 (c : UInt8) : Num := .num (8 ≤ c.toNat % 16) (e2m1Mags.getD (c.toNat % 8) 0)

/-- An e4m3 byte as a number. -/
def e4m3 (s : UInt8) : Num :=
  if nanCoded s then .nan
  else
    let e := s.toNat % 128 / 8
    let m := s.toNat % 8
    .num (128 ≤ s) (if e = 0 then shift m (-9) else shift (8 + m : ℕ) (e - 10))

/-- The nearest e4m3 byte, saturating. -/
def toE4m3 : Num → UInt8
  | .nan => 0x7F
  | .num neg q =>
    let e := max (-6) (floorLog2 q)
    let mag := ((e + 7) * 8 + roundEven (shift q (3 - e)) - 8).toNat
    (if neg then 128 else 0) + UInt8.ofNat (if q = 0 then 0 else min 0x7E mag)

/-- The bits of the bfloat16 that is nearest to a number. -/
def toBf16 : Num → UInt16
  | .nan => 0x7FC0
  | .num neg q =>
    let u := (if neg then 2 ^ 31 else 0) + magBits q
    UInt16.ofNat ((u + 0x7FFF + u / 2 ^ 16 % 2) / 2 ^ 16)

/-- The nearest e2m1 code, saturating: how many of the midpoints are below, a midpoint going
to the even code. -/
def toE2m1 : Num → UInt8
  | .nan => 0
  | .num neg q =>
    let above : List Bool :=
      [1 / 4 < q, 3 / 4 ≤ q, 5 / 4 < q, 7 / 4 ≤ q, 5 / 2 < q, 7 / 2 ≤ q, 5 < q]
    UInt8.ofNat ((if neg then 8 else 0) + above.countP id)

/-! ## Operations -/

/-- The product of two numbers, which is NaN where one of them is. -/
def mul : Num → Num → Num
  | .num a p, .num b q => .num (a ^^ b) (p * q)
  | _, _ => .nan

/-- The magnitude of a number, which is NaN for NaN. -/
def abs : Num → Num
  | .nan => .nan
  | .num _ q => .num false q

/-- The quotient of two numbers, which is NaN where one of them is; the divisor is not to be
zero. -/
def fdiv : Num → Num → Num
  | .num a p, .num b q => .num (a ^^ b) (p / q)
  | _, _ => .nan

/-- The number as a rational. -/
def value (neg : Bool) (mag : ℚ) : ℚ := if neg then -mag else mag

/-- The maximum that passes over a NaN. -/
def maxNum : Num → Num → Num
  | .nan, y => y
  | x, .nan => x
  | .num a p, .num b q => if value a p < value b q then .num b q else .num a p

/-- The maximum that propagates a NaN. -/
def maximum : Num → Num → Num
  | .num a p, .num b q => maxNum (.num a p) (.num b q)
  | _, _ => .nan

/-- `x + 0.0`: a negative zero becomes zero. -/
def addZero : Num → Num
  | .nan => .nan
  | .num neg q => .num (neg && q ≠ 0) q

end Num

/-- `1e-4` as a binary32. -/
def minAmaxMag : ℚ := 13743895 / 137438953472

/-- The scalar operations of the kernels. -/
def exactOps : FloatOps Num where
  zero := .num false 0
  one := .num false 1
  minAmax := .num false minAmaxMag
  maxE4m3 := .num false 448
  e2m1 := Num.e2m1
  e4m3 := Num.e4m3
  mul := Num.mul
  abs := Num.abs
  max := Num.maxNum
  fdiv := Num.fdiv
  bits := Num.bits
  ofBits := Num.ofBits
  toE4m3 := Num.toE4m3
  toBf16 := Num.toBf16
  mul_one x := by cases x <;> simp [Num.mul]

namespace Num

/-! ## Their laws -/

/-- Whether a number is NaN. -/
def isNaN : Num → Bool
  | .nan => true
  | .num .. => false

/-- The sign bit of a number. -/
def sign : Num → Bool
  | .nan => false
  | .num neg _ => neg

@[simp] theorem maxNum_nan (x : Num) : maxNum x .nan = x := by
  cases x <;> rfl

theorem maxNum_num (a b : Bool) (p q : ℚ) : maxNum (.num a p) (.num b q) =
    if value a p < value b q then .num b q else .num a p := rfl

/-- Maxima may be taken in any grouping, since NaN is neutral for them and the numbers are
ordered. -/
theorem maxNum_assoc (x y z : Num) : maxNum (maxNum x y) z = maxNum x (maxNum y z) := by
  cases x with
  | nan => rfl
  | num a p =>
    cases y with
    | nan => rfl
    | num b q =>
      cases z with
      | nan => rw [maxNum_nan, maxNum_nan]
      | num c r =>
        by_cases hab : value a p < value b q <;> by_cases hbc : value b q < value c r
        · simp only [maxNum_num, if_pos hab, if_pos hbc, if_pos (hab.trans hbc)]
        · simp only [maxNum_num, if_pos hab, if_neg hbc]
        · simp only [maxNum_num, if_neg hab, if_pos hbc]
        · have hac : ¬ value a p < value c r := by
            rw [not_lt] at hab hbc ⊢
            exact hbc.trans hab
          simp only [maxNum_num, if_neg hab, if_neg hbc, if_neg hac]

/-- The maximum with a positive number is a number that is not zero. -/
theorem maxNum_ne_zero (x : Num) {q : ℚ} (hq : 0 < q) :
    ∃ neg mag, maxNum x (.num false q) = .num neg mag ∧ mag ≠ 0 := by
  cases x with
  | nan => exact ⟨false, q, rfl, hq.ne'⟩
  | num a p =>
    rw [maxNum]
    split
    next => exact ⟨false, q, rfl, hq.ne'⟩
    next hge =>
      refine ⟨a, p, rfl, ?_⟩
      rintro rfl
      simp [value] at hge
      linarith

/-- The magnitude bits of a number that is not zero are those of a normal number, or of
infinity. -/
theorem magBits_bounds {q : ℚ} (hq : q ≠ 0) : 2 ^ 23 ≤ magBits q ∧ magBits q ≤ 255 * 2 ^ 23 := by
  rw [magBits, if_neg hq]
  dsimp only
  generalize floorLog2 q + 127 = k
  generalize roundEven _ = m
  omega

/-- The code of a number has four bits, so two of them fit into one byte. -/
theorem toE2m1_lt (neg : Bool) (q : ℚ) : toE2m1 (.num neg q) < 16 := by
  rw [toE2m1]
  generalize hl : ([decide (1 / 4 < q), decide (3 / 4 ≤ q), decide (5 / 4 < q), decide (7 / 4 ≤ q),
    decide (5 / 2 < q), decide (7 / 2 ≤ q), decide (5 < q)] : List Bool) = above
  have hlen : above.length = 7 := by rw [← hl]; rfl
  have hcount : above.countP id ≤ 7 := hlen ▸ List.countP_le_length
  have hlt : (if neg = true then 8 else 0) + above.countP id < 16 := by
    split <;> omega
  rw [UInt8.lt_iff_toNat_lt, UInt8.toNat_ofNat_of_lt' (hlt.trans (by decide))]
  exact hlt

/-- The exponent and the mantissa of bits that are given by number. -/
theorem fields_ofNat {u : ℕ} (hu : u < 2 ^ 32) :
    (exponentBits (UInt32.ofNat u)).toNat = u / 2 ^ 23 % 2 ^ 8 ∧
      (mantissaBits (UInt32.ofNat u)).toNat = u % 2 ^ 23 := by
  have hself : (UInt32.ofNat u).toNat = u := UInt32.toNat_ofNat_of_lt hu
  constructor
  · rw [exponentBits, UInt32.toNat_and, UInt32.toNat_shiftRight, hself, Nat.shiftRight_eq_div_pow]
    exact Nat.and_two_pow_sub_one_eq_mod _ 8
  · rw [mantissaBits, UInt32.toNat_and, hself]
    exact Nat.and_two_pow_sub_one_eq_mod _ 23

/-- The bits of a number that is not zero are not those of a subnormal or of NaN. -/
theorem bits_normal {neg : Bool} {q : ℚ} (hq : q ≠ 0) :
    exponentBits (bits (.num neg q)) ≠ 0 ∧
      (exponentBits (bits (.num neg q)) = 255 → mantissaBits (bits (.num neg q)) = 0) := by
  obtain ⟨hlo, hhi⟩ := magBits_bounds hq
  have hsign : (if neg = true then 2 ^ 31 else 0) ≤ 2 ^ 31 := by
    split
    · exact le_rfl
    · exact Nat.zero_le _
  have hsign' : (if neg = true then 2 ^ 31 else 0) % 2 ^ 31 = 0 := by
    split
    · rfl
    · rfl
  rw [bits]
  generalize (if neg = true then 2 ^ 31 else 0) = b at hsign hsign'
  obtain ⟨hexp, hman⟩ := fields_ofNat (u := b + magBits q) (by omega)
  rw [Ne, ← UInt32.toNat_inj, ← UInt32.toNat_inj, ← UInt32.toNat_inj, hexp, hman]
  simp only [UInt32.toNat_ofNat]
  omega

/-- The bits of NaN have the exponent of all ones and a mantissa that is not zero. -/
theorem bits_nan : exponentBits (bits .nan) = 255 ∧ mantissaBits (bits .nan) ≠ 0 := by
  decide

end Num

/-- **The laws of the formats** hold of the exact operations. -/
def exactLaws : FloatLaws exactOps Num.maximum where
  isNaN := Num.isNaN
  sign := Num.sign
  negZero := .num true 0
  e2m1_nan _ := rfl
  e2m1_sign c hc := by
    have hlt : c.toNat < 16 := hc
    simp only [exactOps, Num.e2m1, Num.sign, Nat.mod_eq_of_lt hlt, UInt8.le_iff_toNat_le]
    rfl
  e4m3_nan s := by
    simp only [exactOps, Num.e4m3]
    cases nanCoded s <;> rfl
  e4m3_sign s hs := by
    simp only [exactOps, Num.e4m3, hs]
    rfl
  nan_mul x y h := by
    cases x with
    | nan => rfl
    | num a p =>
      cases y with
      | nan => rfl
      | num b q => simp [Num.isNaN] at h
  mul_e4m3 c s hs := by
    simp only [exactOps, Num.e4m3, hs]
    exact ⟨rfl, rfl⟩
  mul_zero c s hs := by
    simp only [exactOps, Num.e4m3, hs, Num.e2m1, Num.mul, Num.sign, Bool.false_eq_true, if_false,
      mul_zero, Bool.xor_false]
    split
    next h => rw [h]
    next h => rw [Bool.eq_false_of_not_eq_true h]
  zero_nan := rfl
  minAmax_nan := rfl
  abs_nan x := by cases x <;> rfl
  abs_zero := rfl
  abs_negZero := rfl
  max_number x y hx hy := by
    cases x with
    | nan => cases hx
    | num a p =>
      cases y with
      | nan => cases hy
      | num b q =>
        refine ⟨?_, rfl⟩
        simp only [exactOps, Num.maxNum_num]
        split <;> rfl
  max_assoc x y z _ _ _ := Num.maxNum_assoc x y z
  max_zero := by
    simp only [exactOps, Num.maxNum_num, lt_self_iff_false, if_false]
  torchMax_nan x y h := by
    cases x with
    | nan => rfl
    | num a p =>
      cases y with
      | nan => rfl
      | num b q => simp [Num.isNaN] at h
  fdiv_nan x y h := by
    cases x with
    | nan => rfl
    | num a p => cases h
  bits_nan x h := by
    cases x with
    | nan => exact Num.bits_nan
    | num a p => cases h
  bits_scale x := by
    obtain ⟨neg, mag, hmax, hne⟩ := Num.maxNum_ne_zero x
      (by norm_num [minAmaxMag] : 0 < minAmaxMag)
    simp only [exactOps, hmax, Num.fdiv]
    exact Num.bits_normal (div_ne_zero hne (by norm_num))
  zero_scale := by
    have hscale : exactOps.invScale (exactOps.ue8m0 exactOps.zero) = .num false (2 ^ 22) := by
      decide +kernel
    rw [hscale]
    simp [exactOps, Num.mul]
  toE4m3_zero := by decide +kernel
  toE4m3_ne x h := by
    rcases h with rfl | h
    · decide +kernel
    · cases x with
      | nan => decide
      | num a p => cases h
  toBf16_zero := by decide +kernel
  toBf16_ne x h := by
    rcases h with rfl | h
    · decide +kernel
    · cases x with
      | nan => decide
      | num a p => cases h

/-- The scalar operations of the writers. -/
def exactEncoder : Fp4Encoder Num where
  abs := Num.abs
  fmax := Num.maxNum
  scaleByte amax := Num.toE4m3
    (match Num.maxNum (Num.mul amax (.num false (1 / 6))) (.num false (1 / 512)) with
      | .nan => .nan
      | .num neg q => .num neg (min q 448))
  scale := Num.e4m3
  code x s := Num.toE2m1 (Num.addZero (Num.fdiv x s))
  code_lt x s := by
    cases Num.addZero (Num.fdiv x s) with
    | nan => decide
    | num neg q => exact Num.toE2m1_lt neg q
  fmax_assoc := Num.maxNum_assoc

end LuzServing

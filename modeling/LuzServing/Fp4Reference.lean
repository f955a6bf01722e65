import LuzServing.Fp4Codec
import LuzServing.Segments

/-!
# The repack kernel and its reference

`repack_fp4_extra_to_v4_ref` computes with torch operations what the repack kernel computes
with Triton's. Both read the nibble and the scale that the writers place, both multiply the
values of a masked slot by zero. They differ in the maximum: Triton's passes over a NaN,
torch's does not (`FloatLaws`).

A NaN times zero is a NaN, and a negative number times zero is a negative zero, so what a
masked slot yields depends on slot 0 after all: `repack_iff` says when it does not show.
-/

namespace LuzServing

/-! ## The reference -/

section

variable {F : Type*} (o : FloatOps F) (torchMax : F → F → F)

/-- `vals`: a row's values, times `valid`. -/
def refVals (u8 : Memory) (srcPageSize pageBytes : ℕ) (loc : ℤ) : ℕ → F :=
  let safe := (max loc 0).toNat
  let pageBase := safe / srcPageSize * pageBytes
  let scaleOff := srcPageSize * srcDataBytes
  let dataBase := pageBase + safe % srcPageSize * srcDataBytes
  let scaleBase := pageBase + scaleOff + safe % srcPageSize * srcScaleBytes
  let packed (b : ℕ) := u8 (dataBase + b)
  let codes (e : ℕ) := if e % 2 = 0 then packed (e / 2) &&& 0xF else packed (e / 2) >>> 4
  let scales (e : ℕ) := o.e4m3 (u8 (scaleBase + e / 16))
  fun e => o.mul (o.mul (o.e2m1 (codes e)) (scales e)) (if 0 ≤ loc then o.one else o.zero)

/-- `tiles.abs().amax(dim=2)` -/
def refAmax (x : ℕ → F) (tile : ℕ) : F := foldRange torchMax (fun e => o.abs (x e)) (64 * tile) 64

/-- `ue8m0` -/
def refUe8m0 (amax : F) : UInt32 :=
  let u := o.bits (o.fdiv (torchMax amax o.minAmax) o.maxE4m3)
  ((u >>> 23) &&& 0xFF) + if u &&& 0x7FFFFF ≠ 0 then 1 else 0

/-- `data` -/
def refData (x : ℕ → F) (i : ℕ) : UInt8 :=
  if i < nopeValues then
    o.toE4m3 (o.mul (x i) (o.invScale (refUe8m0 o torchMax (refAmax o torchMax x (i / 64)))))
  else o.bf16Byte (x (nopeValues + (i - nopeValues) / 2)) (i % 2)

/-- `sfoot` -/
def refScale (x : ℕ → F) (t : ℕ) : UInt8 :=
  if t < 7 then (refUe8m0 o torchMax (refAmax o torchMax x t)).toUInt8 else 0

/-- `repack_fp4_extra_to_v4_ref` over `n` indices: the scratch. -/
def repackFp4ExtraToV4Ref (u8 : Memory) (srcPageSize pageBytes : ℕ) (indices : ℕ → ℤ) (n : ℕ) :
    Memory :=
  let vals (r : ℕ) := refVals o u8 srcPageSize pageBytes (indices r)
  let scratch := storeAll (fun _ => 0) ((List.range n).flatMap fun r =>
    (List.range dstDataStride).map fun i => (dstBase r + i, refData o torchMax (vals r) i))
  storeAll scratch ((List.range n).flatMap fun r =>
    (List.range dstScaleStride).map fun t => (dstScaleBase r + t, refScale o torchMax (vals r) t))

/-- The V4 row of the values `x`, as the reference computes it. -/
def refV4 (x : ℕ → F) : V4Row where
  data := (List.range dstDataStride).map (refData o torchMax x)
  scale := (List.range dstScaleStride).map (refScale o torchMax x)

/-- What is decoded is decoded from the code and the scale. -/
theorem gated_eq (row : Fp4Row) (idx : ℤ) (e : ℕ) :
    gated o row idx e = o.mul (o.mul (o.e2m1 (row.code e)) (o.e4m3 (row.scale (e / 16))))
      (if 0 ≤ idx then o.one else o.zero) := rfl

/-- A row of the reference's result holds the reference's encoding of the gated values of its
slot. -/
theorem readV4_ref (u8 : Memory) (srcPageSize pageBytes : ℕ) (indices : ℕ → ℤ) {n pid : ℕ}
    (hpid : pid < n) :
    readV4 (repackFp4ExtraToV4Ref o torchMax u8 srcPageSize pageBytes indices n) pid =
      refV4 o torchMax (gated o (tokenRow u8 srcPageSize pageBytes (max (indices pid) 0).toNat)
        (indices pid)) := by
  have hpid := List.mem_range.mpr hpid
  rw [repackFp4ExtraToV4Ref]
  dsimp only
  rw [← storeAll_append]
  refine readV4_storeAll
    (fun r => refData o torchMax (refVals o u8 srcPageSize pageBytes (indices r)))
    (fun r => refScale o torchMax (refVals o u8 srcPageSize pageBytes (indices r)))
    _ (fun s hs => ?_) (fun i hi => ?_) fun t ht => ?_
  · rcases List.mem_append.mp hs with hs | hs
    · obtain ⟨r, -, hs⟩ := List.mem_flatMap.mp hs
      obtain ⟨i, hi, rfl⟩ := List.mem_map.mp hs
      exact .inl ⟨r, i, List.mem_range.mp hi, rfl⟩
    · obtain ⟨r, -, hs⟩ := List.mem_flatMap.mp hs
      obtain ⟨t, ht, rfl⟩ := List.mem_map.mp hs
      exact .inr ⟨r, t, List.mem_range.mp ht, rfl⟩
  · exact List.mem_append_left _ (List.mem_flatMap.mpr ⟨pid, hpid,
      List.mem_map.mpr ⟨i, List.mem_range.mpr hi, rfl⟩⟩)
  · exact List.mem_append_right _ (List.mem_flatMap.mpr ⟨pid, hpid,
      List.mem_map.mpr ⟨t, List.mem_range.mpr ht, rfl⟩⟩)

end

/-! ## Floats -/

/-- The scale byte is one of the two NaN codes of e4m3. -/
def nanCoded (s : UInt8) : Bool := s &&& 0x7F = 0x7F

/-- The biased exponent of a float's bits. -/
def exponentBits (u : UInt32) : UInt32 := (u >>> 23) &&& 0xFF

/-- The mantissa of a float's bits. -/
def mantissaBits (u : UInt32) : UInt32 := u &&& 0x7FFFFF

/-- What the formats say of the operations: which codes are NaN, how products carry signs and
NaN, how either maximum treats a NaN, how zeros and NaN are converted. -/
structure FloatLaws {F : Type*} (o : FloatOps F) (torchMax : F → F → F) where
  /-- the number is a NaN -/
  isNaN : F → Bool
  /-- its sign bit -/
  sign : F → Bool
  /-- `-0.0` -/
  negZero : F
  /-- a code is not a NaN -/
  e2m1_nan : ∀ c, isNaN (o.e2m1 c) = false
  /-- bit 3 is a code's sign -/
  e2m1_sign : ∀ c, c < 16 → sign (o.e2m1 c) = decide (8 ≤ c)
  /-- the NaN codes of a scale -/
  e4m3_nan : ∀ s, isNaN (o.e4m3 s) = nanCoded s
  /-- bit 7 is a scale's sign -/
  e4m3_sign : ∀ s, nanCoded s = false → sign (o.e4m3 s) = decide (128 ≤ s)
  /-- a NaN times anything is a NaN -/
  nan_mul : ∀ x y, isNaN x = true ∨ isNaN y = true → isNaN (o.mul x y) = true
  /-- a code times a scale is a number, of the product's sign -/
  mul_e4m3 : ∀ c s, nanCoded s = false → isNaN (o.mul (o.e2m1 c) (o.e4m3 s)) = false ∧
    sign (o.mul (o.e2m1 c) (o.e4m3 s)) = (sign (o.e2m1 c) ^^ sign (o.e4m3 s))
  /-- such a number times zero is a zero of its sign -/
  mul_zero : ∀ c s, nanCoded s = false → o.mul (o.mul (o.e2m1 c) (o.e4m3 s)) o.zero =
    if sign (o.mul (o.e2m1 c) (o.e4m3 s)) then negZero else o.zero
  /-- zero is a number -/
  zero_nan : isNaN o.zero = false
  /-- so is the least amax -/
  minAmax_nan : isNaN o.minAmax = false
  /-- a magnitude is a NaN when the number is -/
  abs_nan : ∀ x, isNaN (o.abs x) = isNaN x
  /-- the magnitude of zero -/
  abs_zero : o.abs o.zero = o.zero
  /-- the magnitude of `-0.0` -/
  abs_negZero : o.abs negZero = o.zero
  /-- of two numbers a maximum is a number, and torch's is Triton's -/
  max_number : ∀ x y, isNaN x = false → isNaN y = false →
    isNaN (o.max x y) = false ∧ torchMax x y = o.max x y
  /-- maxima of numbers may be taken in any grouping -/
  max_assoc : ∀ x y z, isNaN x = false → isNaN y = false → isNaN z = false →
    o.max (o.max x y) z = o.max x (o.max y z)
  /-- of two zeros -/
  max_zero : o.max o.zero o.zero = o.zero
  /-- torch's maximum propagates a NaN -/
  torchMax_nan : ∀ x y, isNaN x = true ∨ isNaN y = true → isNaN (torchMax x y) = true
  /-- a quotient of a NaN is a NaN -/
  fdiv_nan : ∀ x y, isNaN x = true → isNaN (o.fdiv x y) = true
  /-- the bits of a NaN -/
  bits_nan : ∀ x, isNaN x = true → exponentBits (o.bits x) = 255 ∧ mantissaBits (o.bits x) ≠ 0
  /-- a 448th of what is at least `1e-4` is a normal number, or infinite: Triton's maximum
  passes over a NaN -/
  bits_scale : ∀ x, exponentBits (o.bits (o.fdiv (o.max x o.minAmax) o.maxE4m3)) ≠ 0 ∧
    (exponentBits (o.bits (o.fdiv (o.max x o.minAmax) o.maxE4m3)) = 255 →
      mantissaBits (o.bits (o.fdiv (o.max x o.minAmax) o.maxE4m3)) = 0)
  /-- the reciprocal of the scale of zeros is a positive number -/
  zero_scale : o.mul o.zero (o.invScale (o.ue8m0 o.zero)) = o.zero ∧
    o.mul negZero (o.invScale (o.ue8m0 o.zero)) = negZero
  /-- zero as e4m3 -/
  toE4m3_zero : o.toE4m3 o.zero = 0
  /-- `-0.0` and NaN are not zero bytes -/
  toE4m3_ne : ∀ x, x = negZero ∨ isNaN x = true → o.toE4m3 x ≠ 0
  /-- zero as bf16 -/
  toBf16_zero : o.toBf16 o.zero = 0
  /-- nor as bf16 -/
  toBf16_ne : ∀ x, x = negZero ∨ isNaN x = true → o.toBf16 x ≠ 0

theorem exponentBits_le (u : UInt32) : (exponentBits u).toNat ≤ 255 := by
  rw [exponentBits, UInt32.toNat_and]
  exact Nat.and_le_right

/-- The scale byte is not zero when the exponent is not zero, and rounding it up does not wrap. -/
theorem scaleByte_ne_zero {e m : UInt32} (hle : e.toNat ≤ 255) (hne : e ≠ 0)
    (hinf : e = 255 → m = 0) : (e + if m ≠ 0 then 1 else 0).toUInt8 ≠ 0 := by
  have hpos : e.toNat ≠ 0 := fun h => hne (UInt32.toNat_inj.mp h)
  rw [Ne, ← UInt8.toNat_inj, UInt32.toNat_toUInt8, UInt32.toNat_add]
  by_cases hm : m = 0
  · rw [if_neg (not_not.mpr hm)]
    simp only [UInt32.toNat_zero, UInt8.toNat_zero]
    omega
  · have hlt : e.toNat ≠ 255 := fun h => hm (hinf (UInt32.toNat_inj.mp h))
    rw [if_pos hm]
    simp only [UInt32.toNat_one, UInt8.toNat_zero]
    omega

namespace FloatLaws

variable {F : Type*} {o : FloatOps F} {torchMax : F → F → F} (laws : FloatLaws o torchMax)

theorem negZero_nan : laws.isNaN laws.negZero = false := by
  rw [← laws.abs_nan, laws.abs_negZero, laws.zero_nan]

/-! ### The values of a row -/

/-- A value is a NaN when its group's scale is NaN-coded, masked or not. -/
theorem gated_nan (row : Fp4Row) (idx : ℤ) (e : ℕ) :
    laws.isNaN (gated o row idx e) = nanCoded (row.scale (e / 16)) := by
  rw [gated_eq]
  cases hs : nanCoded (row.scale (e / 16)) with
  | true => exact laws.nan_mul _ _ (.inl (laws.nan_mul _ _ (.inr (by rw [laws.e4m3_nan, hs]))))
  | false =>
    split
    next => rw [o.mul_one, (laws.mul_e4m3 _ _ hs).1]
    next =>
      rw [laws.mul_zero _ _ hs]
      split
      · exact laws.negZero_nan
      · exact laws.zero_nan

/-- A masked value is a zero, of the sign of the code times the scale. -/
theorem gated_masked {row : Fp4Row} {e : ℕ} (hcode : row.code e < 16)
    (hs : nanCoded (row.scale (e / 16)) = false) :
    gated o row (-1) e =
      if (8 ≤ row.code e ↔ 128 ≤ row.scale (e / 16)) then o.zero else laws.negZero := by
  have hsign : laws.sign (o.mul (o.e2m1 (row.code e)) (o.e4m3 (row.scale (e / 16)))) =
      (decide (8 ≤ row.code e) ^^ decide (128 ≤ row.scale (e / 16))) := by
    rw [(laws.mul_e4m3 _ _ hs).2, laws.e2m1_sign _ hcode, laws.e4m3_sign _ hs]
  rw [gated_eq, if_neg (by decide), laws.mul_zero _ _ hs, hsign]
  by_cases hc : 8 ≤ row.code e <;> by_cases hsc : 128 ≤ row.scale (e / 16) <;> simp [hc, hsc]

/-! ### The two maxima -/

variable {x : ℕ → F} {t : ℕ}

/-- On a tile without NaN, Triton's reduction and torch's give the same maximum, and it is a
number. -/
theorem refAmax_eq (hx : ∀ e, 64 * t ≤ e → e < 64 * t + 64 → laws.isNaN (x e) = false) :
    refAmax o torchMax x t = o.tileAmax x t ∧ laws.isNaN (o.tileAmax x t) = false := by
  have hclosed : ∀ a b, laws.isNaN a = false → laws.isNaN b = false →
      laws.isNaN (o.max a b) = false := fun a b ha hb => (laws.max_number a b ha hb).1
  have habs : ∀ e, 64 * t ≤ e → e < 64 * t + 64 → laws.isNaN (o.abs (x e)) = false :=
    fun e hlo hhi => by rw [laws.abs_nan, hx e hlo hhi]
  have hpairs : o.tileAmax x t = foldRange o.max (fun e => o.abs (x e)) (64 * t) 64 := by
    have hblocks : foldRange o.max (fun l => foldRange o.max (fun e => o.abs (x e)) (l * 2) 2)
        (32 * t) 32 = foldRange o.max (fun e => o.abs (x e)) (32 * t * 2) (32 * 2) :=
      foldRange_blocks hclosed laws.max_assoc (by decide) (by decide)
        fun e hlo hhi => habs e (by omega) (by omega)
    have hpair : ∀ l, foldRange o.max (fun e => o.abs (x e)) (l * 2) 2 =
        o.max (o.abs (x (2 * l))) (o.abs (x (2 * l + 1))) := by
      intro l
      rw [Nat.mul_comm l 2]
      rfl
    have hstart : 32 * t * 2 = 64 * t := by ring
    simp only [hpair, hstart] at hblocks
    exact hblocks
  rw [hpairs, refAmax]
  exact ⟨foldRange_congr_op hclosed (fun a b ha hb => (laws.max_number a b ha hb).2) (by decide)
    habs, foldRange_of hclosed (by decide) habs⟩

/-- For a maximum that is a number the reference computes the same scale as the kernel. -/
theorem refUe8m0_eq {amax : F} (h : laws.isNaN amax = false) :
    refUe8m0 o torchMax amax = o.ue8m0 amax := by
  rw [refUe8m0, FloatOps.ue8m0, (laws.max_number _ _ h laws.minAmax_nan).2]

include laws in
/-- The scale byte that the Triton kernel computes is never zero, whatever the maximum of the tile
is. -/
theorem ue8m0_ne_zero (amax : F) : (o.ue8m0 amax).toUInt8 ≠ 0 := by
  obtain ⟨hne, hinf⟩ := laws.bits_scale amax
  exact scaleByte_ne_zero (exponentBits_le _) hne hinf

include laws in
/-- Torch's is zero where a value of the tile is a NaN. -/
theorem refUe8m0_nan {e : ℕ} (hlo : 64 * t ≤ e) (hhi : e < 64 * t + 64)
    (hnan : laws.isNaN (x e) = true) :
    (refUe8m0 o torchMax (refAmax o torchMax x t)).toUInt8 = 0 := by
  have hamax : laws.isNaN (refAmax o torchMax x t) = true :=
    foldRange_of_exists (P := fun a => laws.isNaN a = true)
      (fun a b ha => laws.torchMax_nan a b (.inl ha))
      (fun a b hb => laws.torchMax_nan a b (.inr hb))
      hlo hhi (by rw [laws.abs_nan, hnan])
  obtain ⟨hexp, hman⟩ := laws.bits_nan _
    (laws.fdiv_nan _ o.maxE4m3 (laws.torchMax_nan _ o.minAmax (.inl hamax)))
  rw [exponentBits] at hexp
  rw [mantissaBits] at hman
  rw [refUe8m0, hexp, if_pos hman]
  rfl

end FloatLaws

/-! ## When kernel and reference agree -/

/-- No group of the nope values has a NaN-coded scale. -/
def Fp4Row.Clean (row : Fp4Row) : Prop := ∀ g, g < 28 → nanCoded (row.scale g) = false

/-- No value is a NaN or has its sign bit set: each code's sign is its scale's. -/
def Fp4Row.Positive (row : Fp4Row) : Prop :=
  ∀ e, e < 512 → nanCoded (row.scale (e / 16)) = false ∧
    (8 ≤ row.code e ↔ 128 ≤ row.scale (e / 16))

/-- The V4 row of a masked slot: zero bytes, under the scales of zeros. -/
def zeroV4 {F : Type*} (o : FloatOps F) : V4Row where
  data := List.replicate dstDataStride 0
  scale := (o.requantV4 fun _ => o.zero).scale

namespace FloatLaws

variable {F : Type*} {o : FloatOps F} {torchMax : F → F → F} (laws : FloatLaws o torchMax)

include laws in
/-- A row is repacked by the kernel as by the reference exactly when the row is clean. -/
theorem requantV4_eq_refV4 (row : Fp4Row) (idx : ℤ) :
    o.requantV4 (gated o row idx) = refV4 o torchMax (gated o row idx) ↔ row.Clean := by
  constructor
  · intro heq g hg
    by_contra hnan
    rw [Bool.not_eq_false] at hnan
    have ht : g / 4 < 7 := by omega
    have hbyte : o.v4Scale (gated o row idx) (g / 4) =
        refScale o torchMax (gated o row idx) (g / 4) := by
      have hget := congrArg (fun r : V4Row => r.scale.getD (g / 4) 0) heq
      have ht8 : g / 4 < dstScaleStride := by rw [dstScaleStride]; omega
      simpa only [FloatOps.requantV4, refV4, getD_map_range _ ht8] using hget
    rw [FloatOps.v4Scale, refScale, if_pos ht, if_pos ht] at hbyte
    refine laws.ue8m0_ne_zero _
      (hbyte.trans (laws.refUe8m0_nan (e := 16 * g) (by omega) (by omega) ?_))
    rw [laws.gated_nan, Nat.mul_div_cancel_left g (by decide)]
    exact hnan
  · intro hclean
    have htile : ∀ t, t < 7 → refUe8m0 o torchMax (refAmax o torchMax (gated o row idx) t) =
        o.ue8m0 (o.tileAmax (gated o row idx) t) := by
      intro t ht
      have hx : ∀ e, 64 * t ≤ e → e < 64 * t + 64 →
          laws.isNaN (gated o row idx e) = false := by
        intro e hlo hhi
        rw [laws.gated_nan]
        exact hclean _ (by omega)
      obtain ⟨hamax, hnum⟩ := laws.refAmax_eq hx
      rw [hamax, laws.refUe8m0_eq hnum]
    rw [FloatOps.requantV4, refV4, V4Row.mk.injEq]
    constructor
    · refine List.map_congr_left fun i _ => ?_
      rw [FloatOps.v4Data, refData]
      split
      next hi =>
        rw [htile _ (by simp only [nopeValues] at hi; omega)]
      next => rfl
    · refine List.map_congr_left fun t _ => ?_
      rw [FloatOps.v4Scale, refScale]
      split
      next ht => rw [htile t ht]
      next => rfl

include laws in
/-- A tile of zeros of either sign has the magnitude of zero. -/
theorem tileAmax_zero {x : ℕ → F} {t : ℕ}
    (hx : ∀ e, 64 * t ≤ e → e < 64 * t + 64 → o.abs (x e) = o.zero) : o.tileAmax x t = o.zero := by
  have hfold : foldRange o.max (fun b => o.max (o.abs (x (2 * b))) (o.abs (x (2 * b + 1))))
      (32 * t) 32 = o.zero := by
    refine foldRange_of (P := fun a => a = o.zero) (fun a b ha hb => ?_) (by decide)
      fun b hlo hhi => ?_
    · rw [ha, hb, laws.max_zero]
    · rw [hx _ (by omega) (by omega), hx _ (by omega) (by omega), laws.max_zero]
  exact hfold

include laws in
/-- The maximum of each tile of a clean row is zero when the row is masked. -/
theorem tileAmax_masked {row : Fp4Row} (hclean : row.Clean) {t : ℕ} (ht : t < 7) :
    o.tileAmax (gated o row (-1)) t = o.zero := by
  refine laws.tileAmax_zero fun e _ hhi => ?_
  rw [laws.gated_masked (row.code_lt e) (hclean _ (by omega))]
  split
  · exact laws.abs_zero
  · exact laws.abs_negZero

include laws in
/-- A nope byte of a masked clean row is zero when the value is positive. -/
theorem nopeByte_masked {row : Fp4Row} (hclean : row.Clean) {e : ℕ} (he : e < nopeValues) :
    o.v4Data (gated o row (-1)) e = 0 ↔ (8 ≤ row.code e ↔ 128 ≤ row.scale (e / 16)) := by
  have he' : e < 448 := he
  rw [FloatOps.v4Data, if_pos he, laws.tileAmax_masked hclean (by omega),
    laws.gated_masked (row.code_lt e) (hclean _ (by omega))]
  split
  next hsign =>
    rw [laws.zero_scale.1, laws.toE4m3_zero]
    exact iff_of_true rfl hsign
  next hsign =>
    rw [laws.zero_scale.2]
    exact iff_of_false (laws.toE4m3_ne _ (.inl rfl)) hsign

/-- The two bytes of a bf16 are zero when it is. -/
theorem bf16Byte_eq_zero (v : F) : o.bf16Byte v 0 = 0 ∧ o.bf16Byte v 1 = 0 ↔ o.toBf16 v = 0 := by
  have hlt := (o.toBf16 v).toNat_lt
  have hshift : (o.toBf16 v >>> 8).toNat = (o.toBf16 v).toNat / 256 := by
    rw [UInt16.toNat_shiftRight, Nat.shiftRight_eq_div_pow]
    rfl
  rw [FloatOps.bf16Byte, FloatOps.bf16Byte, if_pos rfl, if_neg one_ne_zero, ← UInt8.toNat_inj,
    ← UInt8.toNat_inj, ← UInt16.toNat_inj, UInt16.toNat_toUInt8, UInt16.toNat_toUInt8, hshift]
  simp only [UInt8.toNat_zero, UInt16.toNat_zero]
  omega

include laws in
/-- A rope value of a masked row is zero when it is no NaN, and positive. -/
theorem ropeByte_masked (row : Fp4Row) (e : ℕ) :
    o.toBf16 (gated o row (-1) e) = 0 ↔ nanCoded (row.scale (e / 16)) = false ∧
      (8 ≤ row.code e ↔ 128 ≤ row.scale (e / 16)) := by
  cases hs : nanCoded (row.scale (e / 16)) with
  | true =>
    refine iff_of_false (laws.toBf16_ne _ (.inr ?_)) fun h => by cases h.1
    rw [laws.gated_nan, hs]
  | false =>
    rw [laws.gated_masked (row.code_lt e) hs]
    split
    next hsign => exact iff_of_true laws.toBf16_zero ⟨rfl, hsign⟩
    next hsign => exact iff_of_false (laws.toBf16_ne _ (.inl rfl)) fun h => hsign h.2

include laws in
/-- **A masked clean row is the zero row when slot 0's values are positive**, and only then. -/
theorem requantV4_masked {row : Fp4Row} (hclean : row.Clean) :
    o.requantV4 (gated o row (-1)) = zeroV4 o ↔ row.Positive := by
  have hscale : (List.range dstScaleStride).map (o.v4Scale (gated o row (-1))) =
      (o.requantV4 fun _ => o.zero).scale := by
    refine List.map_congr_left fun t _ => ?_
    rw [FloatOps.v4Scale, FloatOps.v4Scale]
    split
    next ht => rw [laws.tileAmax_masked hclean ht, laws.tileAmax_zero fun _ _ _ => laws.abs_zero]
    next => rfl
  have hdata : o.requantV4 (gated o row (-1)) = zeroV4 o ↔
      ∀ i, i < dstDataStride → o.v4Data (gated o row (-1)) i = 0 := by
    rw [FloatOps.requantV4, zeroV4, V4Row.mk.injEq, and_iff_left hscale, List.eq_replicate_iff]
    simp
  have hrope : ∀ e, nopeValues ≤ e → (o.v4Data (gated o row (-1)) (2 * e - nopeValues) = 0 ∧
      o.v4Data (gated o row (-1)) (2 * e - nopeValues + 1) = 0 ↔
        o.toBf16 (gated o row (-1) e) = 0) := by
    intro e he
    obtain ⟨r, rfl⟩ := Nat.exists_eq_add_of_le he
    have hlow : 2 * (nopeValues + r) - nopeValues = nopeValues + (2 * r + 0) := by omega
    have hhigh : nopeValues + (2 * r + 0) + 1 = nopeValues + (2 * r + 1) := rfl
    rw [hlow, hhigh, v4Data_rope o _ r 0 (by decide), v4Data_rope o _ r 1 (by decide),
      bf16Byte_eq_zero]
  rw [hdata]
  constructor
  · intro hzero e he
    by_cases hnope : e < nopeValues
    · have he' : e < 448 := hnope
      have hdst : e < dstDataStride := he'.trans (by decide)
      exact ⟨hclean _ (by omega), (laws.nopeByte_masked hclean hnope).mp (hzero e hdst)⟩
    · refine (laws.ropeByte_masked row e).mp
        ((hrope e (not_lt.mp hnope)).mp ⟨hzero _ ?_, hzero _ ?_⟩)
      · simp only [nopeValues, dstDataStride] at *
        omega
      · simp only [nopeValues, dstDataStride] at *
        omega
  · intro hpos i hi
    by_cases hnope : i < nopeValues
    · have hi' : i < 448 := hnope
      exact (laws.nopeByte_masked hclean hnope).mpr (hpos i (by omega)).2
    · have hi' : i < 576 := hi
      have hge : 448 ≤ i := not_lt.mp hnope
      obtain ⟨e, he, he512, hie⟩ : ∃ e, nopeValues ≤ e ∧ e < 512 ∧
          (i = 2 * e - nopeValues ∨ i = 2 * e - nopeValues + 1) := by
        simp only [nopeValues]
        exact ⟨448 + (i - 448) / 2, by omega, by omega, by omega⟩
      obtain ⟨hlow, hhigh⟩ := (hrope e he).mpr ((laws.ropeByte_masked row e).mpr (hpos e he512))
      rcases hie with hie | hie
      · rw [hie]
        exact hlow
      · rw [hie]
        exact hhigh

end FloatLaws

end LuzServing

import LuzServing.ExactFloat

/-!
# Repairing block scales

A linear layer's `float32` block scales are encoded as powers of two, by an encoder that raises
on anything else. Padded shards have blocks of zeros whose scales may hold anything, and two
repairs stand before the encoder. The first (`repairPaddedScales`) sets bad scales of zero blocks
to one and leaves those of other blocks alone. The second (`encode`) sets every scale that is not
positive to one, as soon as one of them is zero or negative, whatever its block holds: there the
encoder no longer raises for a corrupt scale of live weights, and encodes another one
(`keepsLive_iff`).
-/

namespace LuzServing

/-! ## Scales -/

/-- `f > 0` of the `float32` of these bits: the positive numbers and the infinity come after
zero, the NaNs after them. -/
def isPositive (u : UInt32) : Bool := 0 < u && u ≤ 0x7F800000

/-- `f <= 0`: zero, and the patterns from the negative zero to the negative infinity. -/
def isNonpositive (u : UInt32) : Bool := u = 0 || (0x80000000 ≤ u && u ≤ 0xFF800000)

/-- The bits of `1.0`. -/
def oneBits : UInt32 := 0x3F800000

/-- The scale is a positive power of two. -/
def IsPowerOfTwo (u : UInt32) : Prop := ∃ k : ℤ, Num.ofBits u = .num false (2 ^ k)

/-- `bad`: a mantissa, or not positive. -/
def badScale (u : UInt32) : Bool := !(mantissaBits u = 0 && isPositive u)

/-- A matrix of block scales. -/
structure ScaleMatrix : Type where
  /-- `dtype == torch.float32`; scales of another type are given by the `float32` of their
  value -/
  isFloat32 : Bool
  /-- rows of blocks -/
  sn : ℕ
  /-- blocks in a row -/
  sk : ℕ
  /-- the bits -/
  bits : ℕ → ℕ → UInt32

/-- The blocks, row after row. -/
def ScaleMatrix.blocks (s : ScaleMatrix) : List (ℕ × ℕ) := List.range s.sn ×ˢ List.range s.sk

/-- `weight_block_size` -/
structure BlockSize : Type where
  /-- rows of a block -/
  bn : ℕ
  /-- columns of a block -/
  bk : ℕ
  /-- a block has rows -/
  bn_pos : 0 < bn
  /-- and columns -/
  bk_pos : 0 < bk

/-- A linear layer in block fp8. -/
structure BlockLayer : Type where
  /-- rows of the weight -/
  n : ℕ
  /-- its columns -/
  k : ℕ
  /-- its bytes -/
  weight : ℕ → ℕ → UInt8
  /-- the bytes can be viewed in blocks -/
  viewable : Bool
  /-- the checkpoint's scales -/
  scales : ScaleMatrix

/-- An element is zero, of either sign. -/
def isZeroByte (b : UInt8) : Bool := b &&& 0x7F = 0

/-! ## The repair -/

/-- What the repair reports of what it has done. -/
inductive RepairNote : Type where
  /-- `scale dtype … (not float32), left alone` -/
  | dtype
  /-- `… bad scales but shape … does not tile by …, left alone` -/
  | shape (bad : ℕ)
  /-- `… invalid scales (e.g. …), … on all-zero weight blocks set to 1.0, … on non-zero blocks
  left alone` -/
  | repaired (bad : ℕ) (vals : List UInt32) (fix left : ℕ)
  /-- `repair failed: …` -/
  | failed
  deriving DecidableEq

variable (l : BlockLayer) (size : BlockSize)

/-- The weight and its scales tile by the block size. -/
def BlockLayer.tiles : Bool :=
  l.n % size.bn = 0 && l.k % size.bk = 0 && l.scales.sn = l.n / size.bn &&
    l.scales.sk = l.k / size.bk

/-- `zero`: all bytes of the block are. -/
def BlockLayer.zeroBlock (i j : ℕ) : Bool :=
  (List.range size.bn).all fun r => (List.range size.bk).all fun c =>
    isZeroByte (l.weight (i * size.bn + r) (j * size.bk + c))

/-- `_repair_padded_scales`, and what it raises `prepare` catches: the scales that are left, and
the note. -/
def repairPaddedScales : ScaleMatrix × Option RepairNote :=
  let s := l.scales
  let bad := s.blocks.filter fun p => badScale (s.bits p.1 p.2)
  if !s.isFloat32 then (s, some .dtype)
  else if bad = [] then (s, none)
  else if !l.tiles size then (s, some (.shape bad.length))
  else if !l.viewable then (s, some .failed)
  else
    let fix := fun i j => badScale (s.bits i j) && l.zeroBlock size i j
    ({ s with bits := fun i j => if fix i j then oneBits else s.bits i j },
      some (.repaired bad.length ((bad.take 4).map fun p => s.bits p.1 p.2)
        (bad.countP fun p => fix p.1 p.2) (bad.countP fun p => !fix p.1 p.2)))

/-! ## The encoder -/

/-- `block_fp8_scale_to_mxfp8_e8m0`, of the scales, the weight's shape and the block size. It
may raise. -/
def ScaleEncoder (Code : Type*) : Type _ :=
  ScaleMatrix → ℕ × ℕ → BlockSize → Option (ℕ → ℕ → Code)

variable {Code : Type*} (original : ScaleEncoder Code) (decode : Code → Num)

/-- What is relied on: it raises unless every scale is a positive power of two, and encodes them
exactly. -/
structure ScaleEncoder.Documented : Prop where
  /-- when it raises -/
  isSome_iff : ∀ s shape size, (original s shape size).isSome ↔
    ∀ i j, i < s.sn → j < s.sk → IsPowerOfTwo (s.bits i j)
  /-- what it encodes -/
  exact : ∀ s shape size codes, original s shape size = some codes → ∀ i j, i < s.sn → j < s.sk →
    decode (codes i j) = Num.ofBits (s.bits i j)

/-- `encode`: once a scale is not above zero, those that are not become one. -/
def encode : ScaleEncoder Code := fun s shape size =>
  if s.blocks.any fun p => isNonpositive (s.bits p.1 p.2) then
    original { s with bits := fun i j => if isPositive (s.bits i j) then s.bits i j else oneBits }
      shape size
  else original s shape size

/-- `prepare`: the repair, and the preparation that was there, which encodes the layer's
scales. -/
def prepare : Option (ℕ → ℕ → Code) :=
  encode original (repairPaddedScales l size).1 (l.n, l.k) size

/-! ## What the encoder is handed -/

/-- A scale that is a power of two is positive, so the repair leaves it alone. -/
theorem IsPowerOfTwo.isPositive {u : UInt32} (h : IsPowerOfTwo u) : isPositive u = true := by
  obtain ⟨k, hk⟩ := h
  have hu : UInt32.ofNat u.toNat = u := UInt32.ofNat_toNat
  have hbits := (Num.fields_ofNat u.toNat_lt).1
  rw [hu] at hbits
  rw [Num.ofBits] at hk
  split at hk
  · cases hk
  next hexp =>
    have hne : u ≠ 0 := by
      rintro rfl
      have hzero : Num.ofBits 0 = .num false 0 := by decide +kernel
      rw [Num.ofBits, if_neg hexp, hk] at hzero
      exact (zpow_pos two_pos k).ne' (Num.num.inj hzero).2
    obtain ⟨hneg, -⟩ := Num.num.inj hk
    have hneg : u.toNat < 2 ^ 31 := not_le.mp (of_decide_eq_false hneg)
    have hexp : u.toNat / 2 ^ 23 % 2 ^ 8 ≠ 255 := fun h =>
      hexp (UInt32.toNat_inj.mp (hbits.trans h))
    have hzero : u.toNat ≠ 0 := fun h => hne (UInt32.toNat_inj.mp h)
    rw [LuzServing.isPositive, Bool.and_eq_true, decide_eq_true_eq, decide_eq_true_eq,
      UInt32.lt_iff_toNat_lt, UInt32.le_iff_toNat_le]
    exact ⟨Nat.pos_of_ne_zero hzero, by change u.toNat ≤ 0x7F800000; omega⟩

/-- The bits of the scale `1.0` are decoded to the number one. -/
theorem ofBits_oneBits : Num.ofBits oneBits = .num false 1 := by decide +kernel

theorem isPowerOfTwo_oneBits : IsPowerOfTwo oneBits := ⟨0, by rw [ofBits_oneBits, zpow_zero]⟩

theorem ScaleMatrix.mem_blocks (s : ScaleMatrix) (p : ℕ × ℕ) :
    p ∈ s.blocks ↔ p.1 < s.sn ∧ p.2 < s.sk := by
  rw [blocks, List.mem_product, List.mem_range, List.mem_range]

/-- A scale that is zero or negative is there. -/
def ScaleMatrix.HasNonpositive (s : ScaleMatrix) : Prop :=
  ∃ i j, i < s.sn ∧ j < s.sk ∧ isNonpositive (s.bits i j) = true

/-- The scales that the encoder is handed. -/
def ScaleMatrix.cleaned (s : ScaleMatrix) : ScaleMatrix :=
  if s.blocks.any fun p => isNonpositive (s.bits p.1 p.2) then
    { s with bits := fun i j => if isPositive (s.bits i j) then s.bits i j else oneBits }
  else s

theorem encode_eq (s : ScaleMatrix) (shape : ℕ × ℕ) :
    encode original s shape size = original s.cleaned shape size := by
  rw [encode, ScaleMatrix.cleaned]
  split <;> rfl

theorem ScaleMatrix.any_iff (s : ScaleMatrix) :
    (s.blocks.any fun p => isNonpositive (s.bits p.1 p.2)) = true ↔ s.HasNonpositive := by
  rw [List.any_eq_true]
  constructor
  · rintro ⟨⟨i, j⟩, hp, hbad⟩
    obtain ⟨hi, hj⟩ := (s.mem_blocks _).mp hp
    exact ⟨i, j, hi, hj, hbad⟩
  · rintro ⟨i, j, hi, hj, hbad⟩
    exact ⟨(i, j), (s.mem_blocks _).mpr ⟨hi, hj⟩, hbad⟩

/-- Cleaning the scales changes neither the number of their rows nor that of their columns. -/
theorem ScaleMatrix.cleaned_size (s : ScaleMatrix) : s.cleaned.sn = s.sn ∧ s.cleaned.sk = s.sk := by
  rw [cleaned]
  split <;> exact ⟨rfl, rfl⟩

/-- A scale that is positive is handed on unchanged by the cleaning. -/
theorem ScaleMatrix.cleaned_of_positive {s : ScaleMatrix} {i j : ℕ}
    (h : isPositive (s.bits i j) = true) : s.cleaned.bits i j = s.bits i j := by
  rw [cleaned]
  split
  · exact if_pos h
  · rfl

/-- A scale that is not positive becomes one, once some scale of the matrix is zero or negative. -/
theorem ScaleMatrix.cleaned_of_not_positive {s : ScaleMatrix} {i j : ℕ}
    (h : isPositive (s.bits i j) = false) (hs : s.HasNonpositive) :
    s.cleaned.bits i j = oneBits := by
  rw [cleaned, if_pos (s.any_iff.mpr hs)]
  exact if_neg (by rw [h]; exact Bool.false_ne_true)

/-- A matrix without any scale that is zero or negative is handed on as it is. -/
theorem ScaleMatrix.cleaned_of_not {s : ScaleMatrix} (hs : ¬ s.HasNonpositive) : s.cleaned = s := by
  rw [cleaned, if_neg fun h => hs (s.any_iff.mp h)]

/-! ## What the repair leaves -/

/-- A block of the weight has an element that is not zero. -/
def BlockLayer.Live (i j : ℕ) : Prop :=
  ∃ r c, r < l.n ∧ c < l.k ∧ r / size.bn = i ∧ c / size.bk = j ∧ isZeroByte (l.weight r c) = false

/-- A block's scale is reset by the repair: it is bad, and the block is zero. -/
def BlockLayer.Reset (i j : ℕ) : Prop :=
  l.scales.isFloat32 = true ∧ l.tiles size = true ∧ l.viewable = true ∧
    badScale (l.scales.bits i j) = true ∧ ¬ l.Live size i j

/-- Place `r` of the `i`-th block of `b` places lies in the `i`-th block. -/
theorem block_place {b i r : ℕ} (hr : r < b) : (i * b + r) / b = i := by
  rw [Nat.mul_comm, Nat.mul_add_div (Nat.zero_lt_of_lt hr), Nat.div_eq_of_lt hr, Nat.add_zero]

/-- A place of block `i` of a length that `b` divides is below the length. -/
theorem block_lt {b i r n : ℕ} (hr : r < b) (hi : i < n / b) : i * b + r < n := by
  have hle : (i + 1) * b ≤ n := (Nat.mul_le_mul_right b hi).trans (Nat.div_mul_le_self n b)
  rw [Nat.add_one_mul] at hle
  omega

variable {l size}

/-- A block of a weight that tiles is zero when it is not live. -/
theorem BlockLayer.zeroBlock_iff (htiles : l.tiles size = true) {i j : ℕ} (hi : i < l.scales.sn)
    (hj : j < l.scales.sk) : l.zeroBlock size i j = true ↔ ¬ l.Live size i j := by
  simp only [tiles, Bool.and_eq_true, decide_eq_true_eq] at htiles
  obtain ⟨⟨-, hsn⟩, hsk⟩ := htiles
  rw [hsn] at hi
  rw [hsk] at hj
  simp only [zeroBlock, List.all_eq_true, List.mem_range]
  constructor
  · rintro hzero ⟨r, c, -, -, rfl, rfl, hlive⟩
    have h := hzero (r % size.bn) (Nat.mod_lt _ size.bn_pos) (c % size.bk)
      (Nat.mod_lt _ size.bk_pos)
    rw [Nat.div_add_mod', Nat.div_add_mod', hlive] at h
    exact Bool.false_ne_true h
  · intro hlive r hr c hc
    by_contra hne
    exact hlive ⟨_, _, block_lt hr hi, block_lt hc hj, block_place hr, block_place hc,
      Bool.eq_false_iff.mpr hne⟩

variable (l size) in
/-- The first repair changes neither the number of the scales' rows nor that of their columns. -/
theorem repairPaddedScales_size : (repairPaddedScales l size).1.sn = l.scales.sn ∧
    (repairPaddedScales l size).1.sk = l.scales.sk := by
  rw [repairPaddedScales]
  split_ifs <;> exact ⟨rfl, rfl⟩

/-- **The first repair** sets the bad scales of blocks that are zero to one. -/
theorem repairPaddedScales_reset {i j : ℕ} (hi : i < l.scales.sn) (hj : j < l.scales.sk)
    (h : l.Reset size i j) : (repairPaddedScales l size).1.bits i j = oneBits := by
  obtain ⟨hfloat, htiles, hview, hbad, hlive⟩ := h
  have hmem : (i, j) ∈ l.scales.blocks.filter fun p => badScale (l.scales.bits p.1 p.2) :=
    List.mem_filter.mpr ⟨(l.scales.mem_blocks _).mpr ⟨hi, hj⟩, hbad⟩
  rw [repairPaddedScales]
  simp only [hfloat, htiles, hview, List.ne_nil_of_mem hmem, Bool.not_true, Bool.false_eq_true,
    ↓reduceIte, hbad, (BlockLayer.zeroBlock_iff htiles hi hj).mpr hlive, Bool.and_self]

/-- The first repair leaves every other scale as it was, be it good or of a block that is live. -/
theorem repairPaddedScales_of_not {i j : ℕ} (hi : i < l.scales.sn) (hj : j < l.scales.sk)
    (h : ¬ l.Reset size i j) : (repairPaddedScales l size).1.bits i j = l.scales.bits i j := by
  rw [repairPaddedScales]
  split_ifs with hfloat hbad htiles hview
  · rfl
  · rfl
  · rfl
  · rfl
  · refine if_neg fun hfix => h ?_
    obtain ⟨hb, hz⟩ := (Bool.and_eq_true _ _).mp hfix
    have htiles : l.tiles size = true := by simpa using htiles
    exact ⟨by simpa using hfloat, htiles, by simpa using hview, hb,
      (BlockLayer.zeroBlock_iff htiles hi hj).mp hz⟩

/-! ## Live weights -/

variable (l size)

/-- The scale that block `i`, `j` is encoded with. -/
def BlockLayer.finalBits (i j : ℕ) : UInt32 := (repairPaddedScales l size).1.cleaned.bits i j

/-- A scale is zero or negative after the first repair. -/
def BlockLayer.LeavesNonpositive : Prop :=
  ∃ i j, i < l.scales.sn ∧ j < l.scales.sk ∧ ¬ l.Reset size i j ∧
    isNonpositive (l.scales.bits i j) = true

/-- The encoder is handed a scale that it raises for, out of those that the first repair does
not reset: a positive one that is no power of two, or, when none is zero or negative, a NaN. -/
def BlockLayer.Caught : Prop :=
  ∃ i j, i < l.scales.sn ∧ j < l.scales.sk ∧ ¬ l.Reset size i j ∧
    ((isPositive (l.scales.bits i j) = true ∧ ¬ IsPowerOfTwo (l.scales.bits i j)) ∨
      (isPositive (l.scales.bits i j) = false ∧ ¬ l.LeavesNonpositive size))

/-- An element of the dequantized matrix; a zero is zero whatever its scale. -/
def dequantElement (b : UInt8) (scale : Num) : Num :=
  if isZeroByte b then .num false 0 else Num.mul (Num.e4m3 b) scale

/-- When the pipeline does not raise, each block with an element that is not zero is encoded
with the checkpoint's scale, and the matrix is the checkpoint's. -/
structure BlockLayer.KeepsLive : Prop where
  /-- the scales of live blocks -/
  scale : ∀ codes, prepare l size original = some codes → ∀ i j, i < l.scales.sn →
    j < l.scales.sk → l.Live size i j → decode (codes i j) = Num.ofBits (l.scales.bits i j)
  /-- the elements -/
  element : ∀ codes, prepare l size original = some codes → ∀ r c, r < l.n → c < l.k →
    r / size.bn < l.scales.sn → c / size.bk < l.scales.sk →
    dequantElement (l.weight r c) (decode (codes (r / size.bn) (c / size.bk))) =
      dequantElement (l.weight r c) (Num.ofBits (l.scales.bits (r / size.bn) (c / size.bk)))

variable {l size}

theorem hasNonpositive_repaired :
    (repairPaddedScales l size).1.HasNonpositive ↔ l.LeavesNonpositive size := by
  obtain ⟨hsn, hsk⟩ := repairPaddedScales_size l size
  rw [ScaleMatrix.HasNonpositive, BlockLayer.LeavesNonpositive, hsn, hsk]
  refine exists_congr fun i => exists_congr fun j => and_congr_right fun hi =>
    and_congr_right fun hj => ?_
  by_cases hreset : l.Reset size i j
  · rw [repairPaddedScales_reset hi hj hreset]
    exact iff_of_false (by decide) fun h => h.1 hreset
  · rw [repairPaddedScales_of_not hi hj hreset]
    exact (and_iff_right hreset).symm

/-- A scale that the first repair leaves and that is positive is encoded. -/
theorem finalBits_of_positive {i j : ℕ} (hi : i < l.scales.sn) (hj : j < l.scales.sk)
    (hreset : ¬ l.Reset size i j) (hpos : isPositive (l.scales.bits i j) = true) :
    l.finalBits size i j = l.scales.bits i j := by
  have hbits := repairPaddedScales_of_not hi hj hreset
  rw [BlockLayer.finalBits, ScaleMatrix.cleaned_of_positive (by rw [hbits]; exact hpos), hbits]

/-- A scale that is not positive is replaced by one, once one of those left is zero or negative. -/
theorem finalBits_of_not_positive {i j : ℕ} (hi : i < l.scales.sn) (hj : j < l.scales.sk)
    (hreset : ¬ l.Reset size i j) (hpos : isPositive (l.scales.bits i j) = false)
    (hleaves : l.LeavesNonpositive size) : l.finalBits size i j = oneBits := by
  rw [BlockLayer.finalBits, ScaleMatrix.cleaned_of_not_positive
    (by rw [repairPaddedScales_of_not hi hj hreset]; exact hpos)
    (hasNonpositive_repaired.mpr hleaves)]

/-- When none of the scales left is zero or negative, they reach the encoder as they are. -/
theorem finalBits_of_not_leaves {i j : ℕ} (hi : i < l.scales.sn) (hj : j < l.scales.sk)
    (hreset : ¬ l.Reset size i j) (hleaves : ¬ l.LeavesNonpositive size) :
    l.finalBits size i j = l.scales.bits i j := by
  rw [BlockLayer.finalBits, ScaleMatrix.cleaned_of_not fun h =>
    hleaves (hasNonpositive_repaired.mp h), repairPaddedScales_of_not hi hj hreset]

/-- A scale that the first repair resets reaches the encoder as one. -/
theorem finalBits_reset {i j : ℕ} (hi : i < l.scales.sn) (hj : j < l.scales.sk)
    (hreset : l.Reset size i j) : l.finalBits size i j = oneBits := by
  have hbits := repairPaddedScales_reset hi hj hreset
  rw [BlockLayer.finalBits, ScaleMatrix.cleaned_of_positive (by rw [hbits]; decide), hbits]

/-- The encoder is handed a scale that is no power of two exactly when a scale of the layer is
caught. -/
theorem exists_not_isPowerOfTwo_iff : (∃ i j, i < l.scales.sn ∧ j < l.scales.sk ∧
    ¬ IsPowerOfTwo (l.finalBits size i j)) ↔ l.Caught size := by
  refine exists_congr fun i => exists_congr fun j => and_congr_right fun hi =>
    and_congr_right fun hj => ?_
  by_cases hreset : l.Reset size i j
  · rw [finalBits_reset hi hj hreset]
    exact iff_of_false (not_not_intro isPowerOfTwo_oneBits) fun h => h.1 hreset
  cases hpos : isPositive (l.scales.bits i j) with
  | true =>
    rw [finalBits_of_positive hi hj hreset hpos]
    simp [hreset]
  | false =>
    have hnot : ¬ IsPowerOfTwo (l.scales.bits i j) := fun h => by
      rw [h.isPositive] at hpos
      cases hpos
    by_cases hleaves : l.LeavesNonpositive size
    · rw [finalBits_of_not_positive hi hj hreset hpos hleaves]
      simp [isPowerOfTwo_oneBits, hleaves]
    · rw [finalBits_of_not_leaves hi hj hreset hleaves]
      simp [hnot, hreset, hleaves]

variable {original decode} (hdoc : original.Documented decode)
include hdoc

/-- The pipeline returns exactly when no scale of the layer is caught, and raises when one is. -/
theorem prepare_isSome_iff : (prepare l size original).isSome ↔ ¬ l.Caught size := by
  obtain ⟨hsn, hsk⟩ := repairPaddedScales_size l size
  obtain ⟨hsn', hsk'⟩ := (repairPaddedScales l size).1.cleaned_size
  rw [prepare, encode_eq, hdoc.isSome_iff, hsn', hsk', hsn, hsk, ← exists_not_isPowerOfTwo_iff]
  simp only [not_exists, not_and, not_not, BlockLayer.finalBits]

/-- When the pipeline returns, the codes that it returns decode to the final scales. -/
theorem decode_prepare {codes : ℕ → ℕ → Code} (h : prepare l size original = some codes) {i j : ℕ}
    (hi : i < l.scales.sn) (hj : j < l.scales.sk) :
    decode (codes i j) = Num.ofBits (l.finalBits size i j) := by
  obtain ⟨hsn, hsk⟩ := repairPaddedScales_size l size
  obtain ⟨hsn', hsk'⟩ := (repairPaddedScales l size).1.cleaned_size
  rw [prepare, encode_eq] at h
  exact hdoc.exact _ _ _ _ h i j (by rwa [hsn', hsn]) (by rwa [hsk', hsk])

/-- **Live weights keep their scales** when these are positive, or when the encoder raises for
another scale. -/
theorem keepsLive_iff : l.KeepsLive size original decode ↔ l.Caught size ∨
    ∀ i j, i < l.scales.sn → j < l.scales.sk → l.Live size i j →
      isPositive (l.scales.bits i j) = true := by
  constructor
  · intro h
    by_cases hcaught : l.Caught size
    · exact .inl hcaught
    refine .inr fun i j hi hj hlive => ?_
    obtain ⟨codes, hcodes⟩ := Option.isSome_iff_exists.mp ((prepare_isSome_iff hdoc).mpr hcaught)
    have hscale := h.scale codes hcodes i j hi hj hlive
    have hreset : ¬ l.Reset size i j := fun h => h.2.2.2.2 hlive
    rw [decode_prepare hdoc hcodes hi hj] at hscale
    by_contra hpos
    have hpos := Bool.eq_false_iff.mpr hpos
    -- a scale that is not positive and not caught was replaced by one
    have hleaves : l.LeavesNonpositive size := by
      by_contra hnone
      exact hcaught ⟨i, j, hi, hj, hreset, .inr ⟨hpos, hnone⟩⟩
    rw [finalBits_of_not_positive hi hj hreset hpos hleaves, ofBits_oneBits] at hscale
    have hpow : IsPowerOfTwo (l.scales.bits i j) := ⟨0, by rw [← hscale, zpow_zero]⟩
    rw [hpow.isPositive] at hpos
    cases hpos
  · intro h
    have hscale : ∀ codes, prepare l size original = some codes → ∀ i j, i < l.scales.sn →
        j < l.scales.sk → l.Live size i j →
          decode (codes i j) = Num.ofBits (l.scales.bits i j) := by
      intro codes hcodes i j hi hj hlive
      have hcaught := (prepare_isSome_iff hdoc).mp (Option.isSome_iff_exists.mpr ⟨codes, hcodes⟩)
      rw [decode_prepare hdoc hcodes hi hj, finalBits_of_positive hi hj
        (fun hreset => hreset.2.2.2.2 hlive) (h.resolve_left hcaught i j hi hj hlive)]
    refine ⟨hscale, fun codes hcodes r c hr hc hi hj => ?_⟩
    rw [dequantElement, dequantElement]
    split
    · rfl
    next hzero =>
      rw [hscale codes hcodes _ _ hi hj ⟨r, c, hr, hc, rfl, rfl, Bool.eq_false_iff.mpr hzero⟩]

omit hdoc

/-! ## A zero scale of live weights -/

open Classical in
/-- An encoder whose code of a scale is the scale. -/
noncomputable def bitsEncoder : ScaleEncoder UInt32 := fun s _ _ =>
  if ∀ i j, i < s.sn → j < s.sk → IsPowerOfTwo (s.bits i j) then some s.bits else none

theorem bitsEncoder_documented : bitsEncoder.Documented Num.ofBits := by
  refine ⟨fun s shape size => ?_, fun s shape size codes h i j _ _ => ?_⟩
  · rw [bitsEncoder]
    split
    next h => exact iff_of_true rfl h
    next h => exact iff_of_false Bool.false_ne_true h
  · rw [bitsEncoder] at h
    split at h
    · rw [← Option.some.inj h]
    · cases h

/-- A layer of one block of one element. -/
def oneBlock (weight : UInt8) (scale : UInt32) : BlockLayer where
  n := 1
  k := 1
  weight _ _ := weight
  viewable := true
  scales := ⟨true, 1, 1, fun _ _ => scale⟩

/-- Blocks of one element. -/
def unitBlocks : BlockSize := ⟨1, 1, Nat.one_pos, Nat.one_pos⟩

/-- In one block, the element `1.0` with the scale `2.0` keeps its value through the pipeline. -/
theorem keepsLive_two : (oneBlock 0x38 0x40000000).KeepsLive unitBlocks bitsEncoder Num.ofBits :=
  (keepsLive_iff bitsEncoder_documented).mpr
    (.inr fun _ _ _ _ _ => (by decide : isPositive 0x40000000 = true))

/-- **The element `1.0` with the scale zero** is encoded with the scale one. -/
theorem keepsLive_zero :
    (prepare (oneBlock 0x38 0) unitBlocks bitsEncoder).isSome = true ∧
      ¬ (oneBlock 0x38 0).KeepsLive unitBlocks bitsEncoder Num.ofBits := by
  have hlive : (oneBlock 0x38 0).Live unitBlocks 0 0 :=
    ⟨0, 0, Nat.one_pos, Nat.one_pos, rfl, rfl, by decide⟩
  have hreset : ¬ (oneBlock 0x38 0).Reset unitBlocks 0 0 := fun h => h.2.2.2.2 hlive
  have hleaves : (oneBlock 0x38 0).LeavesNonpositive unitBlocks :=
    ⟨0, 0, Nat.one_pos, Nat.one_pos, hreset, by decide⟩
  have hcaught : ¬ (oneBlock 0x38 0).Caught unitBlocks := by
    rintro ⟨i, j, -, -, -, ⟨hpos, -⟩ | ⟨-, hnone⟩⟩
    · exact absurd hpos (by decide : ¬ isPositive 0 = true)
    · exact hnone hleaves
  have hsome := (prepare_isSome_iff bitsEncoder_documented).mpr hcaught
  refine ⟨hsome, fun h => ?_⟩
  obtain ⟨codes, hcodes⟩ := Option.isSome_iff_exists.mp hsome
  have hscale := h.scale codes hcodes 0 0 Nat.one_pos Nat.one_pos hlive
  rw [decode_prepare bitsEncoder_documented hcodes Nat.one_pos Nat.one_pos,
    finalBits_of_not_positive Nat.one_pos Nat.one_pos hreset (by decide) hleaves,
    ofBits_oneBits] at hscale
  exact absurd hscale (by decide +kernel)

end LuzServing

import LuzServing.Fp4Bridge

/-!
# What the repack kernel leaves in the scratch

A program of the kernel stores exactly the bytes of one V4 row, at the place of its
slot (`mem_repackStores`), and the places of different slots are apart, so in any
order of the programs each slot of the scratch ends up with the row of its index
(`readV4_kernel`): requantized from the pool for a live slot, from zeroes for a
masked one.
-/

namespace LuzServing

/-! ## One program -/

/-- Where slot `pid` of a scratch keeps its data. -/
def dstBase (pid : ℕ) : ℕ := pid / dstPageSize * dstPageBytes + pid % dstPageSize * dstDataStride

/-- Where slot `pid` of a scratch keeps its scales. -/
def dstScaleBase (pid : ℕ) : ℕ :=
  pid / dstPageSize * dstPageBytes + dstScaleOff + pid % dstPageSize * dstScaleStride

/-- The row of token `loc` in pages of `pageSize` tokens, `pageBytes` apart. -/
def tokenRow (m : Memory) (pageSize pageBytes loc : ℕ) : Fp4Row where
  data b := m (loc / pageSize * pageBytes + loc % pageSize * srcDataBytes + b)
  scale g := m
    (loc / pageSize * pageBytes + pageSize * srcDataBytes + loc % pageSize * srcScaleBytes + g)

/-- The row that the kernel finds by shifting and masking with the page bits is the token's row. -/
theorem loadedRow_eq (src : Memory) (srcPageBytes bits loc : ℕ) :
    loadedRow src srcPageBytes bits loc = tokenRow src (2 ^ bits) srcPageBytes loc := by
  unfold loadedRow tokenRow
  simp only [Nat.one_shiftLeft, Nat.shiftRight_eq_div_pow, Nat.and_two_pow_sub_one_eq_mod]

/-- With the page bits of a pool the kernel finds the pool's own row of a location. -/
theorem Fp4Pool.loadedRow_eq (pool : Fp4Pool) (loc : ℕ) :
    loadedRow pool.bytes pool.pageBytes (pool.pageSize.size - 1) loc = pool.row loc := by
  have hbits : pool.pageSize = 2 ^ (pool.pageSize.size - 1) := by
    rcases pool.pageSize_eq with h | h <;> rw [h] <;> decide
  rw [LuzServing.loadedRow_eq, ← hbits]
  rfl

section
variable {F : Type*} (o : FloatOps F)

/-- The values a program requantizes: those of its row, zeroed out for a masked
slot. -/
def gated (row : Fp4Row) (idx : ℤ) (e : ℕ) : F :=
  o.mul (o.dequant row e) (if 0 ≤ idx then o.one else o.zero)

/-- The gated values of a slot that is live are the dequantized values of its row. -/
theorem gated_of_nonneg (row : Fp4Row) {idx : ℤ} (h : 0 ≤ idx) :
    gated o row idx = o.dequant row := by
  funext e
  rw [gated, if_pos h, o.mul_one]

/-- The low nibble of a data byte is the even one of the two elements that the byte holds. -/
theorem dequant_even (row : Fp4Row) (b : ℕ) :
    o.dequant row (2 * b) = o.mul (o.e2m1 (row.data b &&& 0xF)) (o.e4m3 (row.scale (b / 8))) := by
  rw [FloatOps.dequant, if_pos (by omega), show 2 * b / 2 = b by omega,
    show 2 * b / 16 = b / 8 by omega]

/-- The high nibble of a data byte is the odd one of the two elements that the byte holds. -/
theorem dequant_odd (row : Fp4Row) (b : ℕ) :
    o.dequant row (2 * b + 1) =
      o.mul (o.e2m1 (row.data b >>> 4)) (o.e4m3 (row.scale (b / 8))) := by
  rw [FloatOps.dequant, if_neg (by omega), show (2 * b + 1) / 2 = b by omega,
    show (2 * b + 1) / 16 = b / 8 by omega]

/-- A data byte of the V4 row that is a nope value is this value in E4M3, scaled by its tile. -/
theorem v4Data_nope (x : ℕ → F) {i : ℕ} (hi : i < nopeValues) :
    o.v4Data x i = o.toE4m3 (o.mul (x i) (o.invScale (o.ue8m0 (o.tileAmax x (i / 64))))) := by
  rw [FloatOps.v4Data, if_pos hi]

/-- Two data bytes of the V4 row make up each rope value, which is kept in bfloat16. -/
theorem v4Data_rope (x : ℕ → F) (r k : ℕ) (hk : k < 2) :
    o.v4Data x (nopeValues + (2 * r + k)) = o.bf16Byte (x (nopeValues + r)) k := by
  rw [FloatOps.v4Data, if_neg (by omega)]
  congr 1
  · congr 2
    omega
  · simp only [nopeValues]
    omega

/-- The places of a program's stores, in the order of its store instructions, with
the bytes of the V4 row of `x`. -/
def rowStores (x : ℕ → F) (pid : ℕ) : List (ℕ × UInt8) :=
  (List.range nopeBytes).map (fun b => (dstBase pid + 2 * b, o.v4Data x (2 * b))) ++
    (List.range nopeBytes).map (fun b => (dstBase pid + 2 * b + 1, o.v4Data x (2 * b + 1))) ++
    (List.range 32).flatMap (fun r => (List.range 2).map fun k =>
      (2 * ((dstBase pid + nopeValues) / 2 + 2 * r) + k,
        o.v4Data x (nopeValues + (2 * (2 * r) + k)))) ++
    (List.range 32).flatMap (fun r => (List.range 2).map fun k =>
      (2 * ((dstBase pid + nopeValues) / 2 + 2 * r + 1) + k,
        o.v4Data x (nopeValues + (2 * (2 * r + 1) + k)))) ++
    (List.range 8).map fun t => (dstScaleBase pid + t, o.v4Scale x t)

/-- The gate of a program. -/
def gate (idx : ℤ) : F := if 0 ≤ idx then o.one else o.zero

/-- A lane of the kernel that is not masked holds two neighbouring values of the gated row. -/
theorem nopeLane_eq (row : Fp4Row) (idx : ℤ) {b : ℕ} (hb : b < nopeBytes) :
    nopeLane o row (gate o idx) b = (gated o row idx (2 * b), gated o row idx (2 * b + 1)) := by
  simp only [nopeLane, if_pos hb]
  rw [gated, gated, dequant_even, dequant_odd]
  rfl

/-- A tile's lanes reduce to the greatest magnitude of its values. -/
theorem laneAmax_eq (row : Fp4Row) (idx : ℤ) {t : ℕ} (ht : t < 7) :
    laneAmax o row (gate o idx) t = o.tileAmax (gated o row idx) t := by
  have hpair : ∀ b, b < nopeBytes → absLane o row (gate o idx) b =
      o.max (o.abs (gated o row idx (2 * b))) (o.abs (gated o row idx (2 * b + 1))) := by
    intro b hb
    simp only [absLane, if_pos hb, nopeLane_eq o row idx hb]
  rw [laneAmax, FloatOps.tileAmax, hpair _ (by simp only [nopeBytes]; omega)]
  refine List.foldl_ext _ _ _ fun m b hb => ?_
  rw [List.mem_range'_1] at hb
  rw [hpair b (by simp only [nopeBytes]; omega)]

/-- The two bytes that an unmasked lane stores are the V4 data bytes of its two values. -/
theorem nopeStored_eq (row : Fp4Row) (idx : ℤ) {b : ℕ} (hb : b < nopeBytes) :
    nopeStored o row (gate o idx) b =
      (o.v4Data (gated o row idx) (2 * b), o.v4Data (gated o row idx) (2 * b + 1)) := by
  have hlt : b < 224 := hb
  simp only [nopeStored, nopeLane_eq o row idx hb]
  rw [laneAmax_eq o row idx (by omega), v4Data_nope o _ (by simp only [nopeValues]; omega),
    v4Data_nope o _ (by simp only [nopeValues]; omega), show 2 * b / 64 = b / 32 by omega,
    show (2 * b + 1) / 64 = b / 32 by omega]

/-- A rope lane of the kernel holds two neighbouring values of the gated row, after the nope
values. -/
theorem ropeLane_eq (row : Fp4Row) (idx : ℤ) (r : ℕ) :
    ropeLane o row (gate o idx) r =
      (gated o row idx (nopeValues + 2 * r), gated o row idx (nopeValues + (2 * r + 1))) := by
  have h₁ : nopeValues + 2 * r = 2 * (nopeBytes + r) := by simp only [nopeValues, nopeBytes]; omega
  have h₂ : nopeValues + (2 * r + 1) = 2 * (nopeBytes + r) + 1 := by omega
  have h₃ : 28 + r / 8 = (nopeBytes + r) / 8 := by simp only [nopeBytes]; omega
  rw [h₁, h₂, gated, gated, dequant_even, dequant_odd]
  simp only [ropeLane, h₃]
  rfl

/-- The two stores of a rope value put the bytes of its bfloat16 where the V4 row has them. -/
theorem bf16Stores_eq (x : ℕ → F) (k r : ℕ) :
    bf16Stores o k (x (nopeValues + r)) =
      (List.range 2).map fun byte => (2 * k + byte, o.v4Data x (nopeValues + (2 * r + byte))) := by
  refine List.map_congr_left fun byte hbyte => ?_
  rw [v4Data_rope o x r byte (List.mem_range.mp hbyte)]

/-- A program of the repack stores the V4 row of the gated values of the slot that it loads. -/
theorem repackStores_eq (src : Memory) (srcPageBytes srcPageBits : ℕ) (idx : ℤ) (pid : ℕ) :
    repackStores o src srcPageBytes srcPageBits idx pid =
      rowStores o (gated o (loadedRow src srcPageBytes srcPageBits (max idx 0).toNat) idx)
        pid := by
  have hmask : (List.range 256).filter (fun b => decide (b < nopeBytes)) =
      List.range nopeBytes := by decide +kernel
  have hpage : pid >>> 6 = pid / dstPageSize := Nat.shiftRight_eq_div_pow ..
  have hslot : pid &&& 63 = pid % dstPageSize := Nat.and_two_pow_sub_one_eq_mod pid 6
  unfold repackStores rowStores dstBase dstScaleBase
  simp only [hmask, hpage, hslot]
  rw [show (if 0 ≤ idx then o.one else o.zero) = gate o idx from rfl]
  refine congrArg₂ _ (congrArg₂ _ (congrArg₂ _ (congrArg₂ _ ?_ ?_) ?_) ?_) ?_
  · refine List.map_congr_left fun b hb => ?_
    rw [nopeStored_eq o _ idx (List.mem_range.mp hb)]
  · refine List.map_congr_left fun b hb => ?_
    rw [nopeStored_eq o _ idx (List.mem_range.mp hb)]
  · refine List.flatMap_congr fun r _ => ?_
    rw [ropeLane_eq, bf16Stores_eq]
  · refine List.flatMap_congr fun r _ => ?_
    rw [ropeLane_eq, bf16Stores_eq]
  · refine List.map_congr_left fun t ht => ?_
    unfold FloatOps.v4Scale
    by_cases ht7 : t < 7
    · rw [if_pos ht7, if_pos ht7, laneAmax_eq o _ idx ht7]
    · rw [if_neg ht7, if_neg ht7]

/-! ## Slots apart -/

/-- The sizes and offsets of the V4 layout as the kernel computes them, in numbers. -/
theorem v4Layout : dstPageSize = 64 ∧ dstDataStride = 576 ∧ dstScaleStride = 8 ∧
    dstScaleOff = 36864 ∧ dstPageBytes = 37440 := ⟨rfl, rfl, rfl, rfl, rfl⟩

/-- A program stores at its slot's data and scales only, each byte its own. -/
theorem mem_rowStores {x : ℕ → F} {pid : ℕ} {s : ℕ × UInt8} (hs : s ∈ rowStores o x pid) :
    (∃ i < dstDataStride, s = (dstBase pid + i, o.v4Data x i)) ∨
      ∃ t < dstScaleStride, s = (dstScaleBase pid + t, o.v4Scale x t) := by
  obtain ⟨hsize, hdata, hscale, hoff, hpage⟩ := v4Layout
  have heven : ∀ r k, 2 * ((dstBase pid + nopeValues) / 2 + r) + k =
      dstBase pid + (nopeValues + (2 * r + k)) := by
    intro r k
    simp only [dstBase, hsize, hdata, hpage, nopeValues]
    omega
  simp only [rowStores, List.mem_append, List.mem_map, List.mem_flatMap, List.mem_range,
    nopeBytes] at hs
  rcases hs with (((⟨b, hb, rfl⟩ | ⟨b, hb, rfl⟩) | ⟨r, hr, k, hk, rfl⟩) | ⟨r, hr, k, hk, rfl⟩) |
    ⟨t, ht, rfl⟩
  · exact .inl ⟨2 * b, by omega, rfl⟩
  · exact .inl ⟨2 * b + 1, by omega, by rw [Nat.add_assoc]⟩
  · refine .inl ⟨nopeValues + (2 * (2 * r) + k), by simp only [nopeValues]; omega, ?_⟩
    rw [heven]
  · refine .inl ⟨nopeValues + (2 * (2 * r + 1) + k), by simp only [nopeValues]; omega, ?_⟩
    rw [Nat.add_assoc, heven]
  · exact .inr ⟨t, ht, rfl⟩

/-- Among the stores of a program is one for each data byte of its slot. -/
theorem data_mem_rowStores (x : ℕ → F) (pid : ℕ) {i : ℕ} (hi : i < dstDataStride) :
    (dstBase pid + i, o.v4Data x i) ∈ rowStores o x pid := by
  obtain ⟨hsize, hdata, hscale, hoff, hpage⟩ := v4Layout
  have heven : ∀ r k, 2 * ((dstBase pid + nopeValues) / 2 + r) + k =
      dstBase pid + (nopeValues + (2 * r + k)) := by
    intro r k
    simp only [dstBase, hsize, hdata, hpage, nopeValues]
    omega
  rw [hdata] at hi
  simp only [rowStores, List.mem_append, List.mem_map, List.mem_flatMap, List.mem_range,
    nopeBytes]
  by_cases hnope : i < 448
  · refine .inl (.inl (.inl ?_))
    rcases Nat.mod_two_eq_zero_or_one i with heq | heq
    · exact .inl ⟨i / 2, by omega, by rw [show 2 * (i / 2) = i by omega]⟩
    · exact .inr ⟨i / 2, by omega, by rw [Nat.add_assoc, show 2 * (i / 2) + 1 = i by omega]⟩
  · refine .inl ?_
    by_cases hlow : i % 4 < 2
    · refine .inl (.inr ⟨(i - 448) / 4, by omega, i % 4, hlow, ?_⟩)
      rw [heven, show nopeValues + (2 * (2 * ((i - 448) / 4)) + i % 4) = i by
        simp only [nopeValues]; omega]
    · refine .inr ⟨(i - 448) / 4, by omega, i % 4 - 2, by omega, ?_⟩
      rw [Nat.add_assoc, heven,
        show nopeValues + (2 * (2 * ((i - 448) / 4) + 1) + (i % 4 - 2)) = i by
          simp only [nopeValues]; omega]

/-- Among the stores of a program is one for each scale byte of its slot. -/
theorem scale_mem_rowStores (x : ℕ → F) (pid : ℕ) {t : ℕ} (ht : t < dstScaleStride) :
    (dstScaleBase pid + t, o.v4Scale x t) ∈ rowStores o x pid := by
  simp only [rowStores, List.mem_append, List.mem_map, List.mem_range]
  exact .inr ⟨t, ht, rfl⟩

/-- The data rows of two different slots have no address in common. -/
theorem dstBase_inj {pid pid' i i' : ℕ} (hi : i < dstDataStride) (hi' : i' < dstDataStride)
    (h : dstBase pid + i = dstBase pid' + i') : pid = pid' ∧ i = i' := by
  obtain ⟨hsize, hdata, -, -, hpage⟩ := v4Layout
  rw [hdata] at hi hi'
  simp only [dstBase, hsize, hdata, hpage] at h
  omega

/-- The scale rows of two different slots have no address in common. -/
theorem dstScaleBase_inj {pid pid' t t' : ℕ} (ht : t < dstScaleStride) (ht' : t' < dstScaleStride)
    (h : dstScaleBase pid + t = dstScaleBase pid' + t') : pid = pid' ∧ t = t' := by
  obtain ⟨hsize, -, hscale, hoff, hpage⟩ := v4Layout
  rw [hscale] at ht ht'
  simp only [dstScaleBase, hsize, hscale, hoff, hpage] at h
  omega

/-- No address of a data row is an address of a scale row, whichever slots they belong to. -/
theorem dstBase_ne_dstScaleBase {pid pid' i t : ℕ} (hi : i < dstDataStride)
    (ht : t < dstScaleStride) : dstBase pid + i ≠ dstScaleBase pid' + t := by
  obtain ⟨hsize, hdata, hscale, hoff, hpage⟩ := v4Layout
  rw [hdata] at hi
  rw [hscale] at ht
  simp only [dstBase, dstScaleBase, hsize, hdata, hscale, hoff, hpage]
  omega

/-! ## The launch -/

/-- A slot of a scratch holds the data and the scales that are stored in it, when nobody
stores anything else there. -/
theorem readV4_storeAll (data scale : ℕ → ℕ → UInt8) {stores : List (ℕ × UInt8)} (dst : Memory)
    {pid : ℕ}
    (hmem : ∀ s ∈ stores, (∃ p, ∃ i < dstDataStride, s = (dstBase p + i, data p i)) ∨
      ∃ p, ∃ t < dstScaleStride, s = (dstScaleBase p + t, scale p t))
    (hdata : ∀ i < dstDataStride, (dstBase pid + i, data pid i) ∈ stores)
    (hscale : ∀ t < dstScaleStride, (dstScaleBase pid + t, scale pid t) ∈ stores) :
    readV4 (storeAll dst stores) pid =
      ⟨(List.range dstDataStride).map (data pid), (List.range dstScaleStride).map (scale pid)⟩ := by
  have hreadData : ∀ i < dstDataStride,
      storeAll dst stores (dstBase pid + i) = data pid i := by
    intro i hi
    refine storeAll_eq (fun s hs ha => ?_) ⟨_, hdata i hi, rfl⟩
    rcases hmem s hs with ⟨p, i', hi', rfl⟩ | ⟨p, t, ht, rfl⟩
    · obtain ⟨rfl, rfl⟩ := dstBase_inj hi' hi ha
      rfl
    · exact absurd ha.symm (dstBase_ne_dstScaleBase hi ht)
  have hreadScale : ∀ t < dstScaleStride,
      storeAll dst stores (dstScaleBase pid + t) = scale pid t := by
    intro t ht
    refine storeAll_eq (fun s hs ha => ?_) ⟨_, hscale t ht, rfl⟩
    rcases hmem s hs with ⟨p, i, hi, rfl⟩ | ⟨p, t', ht', rfl⟩
    · exact absurd ha (dstBase_ne_dstScaleBase hi ht)
    · obtain ⟨rfl, rfl⟩ := dstScaleBase_inj ht' ht ha
      rfl
  unfold readV4
  rw [V4Row.mk.injEq]
  exact ⟨List.map_congr_left fun i hi => hreadData i (List.mem_range.mp hi),
    List.map_congr_left fun t ht => hreadScale t (List.mem_range.mp ht)⟩

/-- **The kernel's result**: whatever the order of the programs, slot `pid` of the
scratch holds the V4 row of the values gated by its index. -/
theorem readV4_repack (src : Memory) (srcPageBytes bits : ℕ) (idx : ℕ → ℤ) {order : List ℕ}
    (dst : Memory) {pid : ℕ} (hpid : pid ∈ order) :
    readV4 (repackFp4ToV4Kernel o src srcPageBytes bits idx order dst) pid =
      o.requantV4 (gated o (loadedRow src srcPageBytes bits (max (idx pid) 0).toNat)
        (idx pid)) := by
  set x : ℕ → ℕ → F :=
    fun p => gated o (loadedRow src srcPageBytes bits (max (idx p) 0).toNat) (idx p)
  have hstores : (order.flatMap fun p => repackStores o src srcPageBytes bits (idx p) p) =
      order.flatMap fun p => rowStores o (x p) p :=
    List.flatMap_congr fun p _ => repackStores_eq o src srcPageBytes bits (idx p) p
  unfold repackFp4ToV4Kernel
  rw [hstores]
  refine readV4_storeAll (fun p => o.v4Data (x p)) (fun p => o.v4Scale (x p)) dst (fun s hs => ?_)
    (fun i hi => ?_) fun t ht => ?_
  · obtain ⟨p, -, hs⟩ := List.mem_flatMap.mp hs
    rcases mem_rowStores o hs with ⟨i, hi, rfl⟩ | ⟨t, ht, rfl⟩
    · exact .inl ⟨p, i, hi, rfl⟩
    · exact .inr ⟨p, t, ht, rfl⟩
  · exact List.mem_flatMap.mpr ⟨pid, hpid, data_mem_rowStores o (x pid) pid hi⟩
  · exact List.mem_flatMap.mpr ⟨pid, hpid, scale_mem_rowStores o (x pid) pid ht⟩

/-- After the kernel has run over a pool, the row of a program reads as the requantized values of
its slot. -/
theorem readV4_kernel (pool : Fp4Pool) (idx : ℕ → ℤ) {order : List ℕ} (dst : Memory) {pid : ℕ}
    (hpid : pid ∈ order) :
    readV4 (repackFp4ToV4Kernel o pool.bytes pool.pageBytes (pool.pageSize.size - 1) idx order
      dst) pid = o.requantV4 (gated o (pool.row (max (idx pid) 0).toNat) (idx pid)) := by
  rw [readV4_repack o _ _ _ _ _ hpid, pool.loadedRow_eq]

end

end LuzServing

import LuzServing.ExactFloat

/-!
# The FP4 codecs agree

Writers place what readers look for (`fp4_codecs`). The repack kernel and its reference write
the same bytes for a slot whose nope scales are not NaN-coded; where one is, their maxima part.
A masked slot is the zero row when slot 0 holds no NaN and nothing negative. The source says of
a masked slot that its values are gated to zero, "leaving a deterministic zero pad row"; a
product with zero does not do that (`masked_not_zero`).
-/

namespace LuzServing

section

variable {F : Type*} (o : FloatOps F) (torchMax : F → F → F)

/-- The row that a slot index selects: slot 0's for a masked one. -/
def slotRow (u8 : Memory) (bits pageBytes : ℕ) (idx : ℤ) : Fp4Row :=
  tokenRow u8 (2 ^ bits) pageBytes (max idx 0).toNat

/-- Kernel and reference write the same V4 rows over `n` slot indices, the zero row for each
that is -1. -/
def RepacksAlike (u8 : Memory) (bits pageBytes : ℕ) (idx : ℕ → ℤ) (n : ℕ) (order : List ℕ)
    (dst : Memory) : Prop :=
  let kernel := repackFp4ToV4Kernel o u8 pageBytes bits idx order dst
  let ref := repackFp4ExtraToV4Ref o torchMax u8 (2 ^ bits) pageBytes idx n
  ∀ pid, pid < n → readV4 kernel pid = readV4 ref pid ∧
    (idx pid = -1 → readV4 kernel pid = zeroV4 o ∧ readV4 ref pid = zeroV4 o)

/-- `dequantize_k_cache_v41_fp4`: element `e` of a page's slot. -/
def dequantizeKCacheV41Fp4 (pages : Memory) (pageSize pageBytes page slot e : ℕ) : UInt16 :=
  let data (b : ℕ) := pages (page * pageBytes + slot * srcDataBytes + b)
  let scale (g : ℕ) :=
    pages (page * pageBytes + pageSize * srcDataBytes + slot * srcScaleBytes + g)
  let codes := if e % 2 = 0 then data (e / 2) &&& 0xF else data (e / 2) >>> 4
  o.toBf16 (o.mul (o.e2m1 codes) (o.e4m3 (scale (e / 16))))

variable {o torchMax}

variable (torchMax) in
/-- Kernel and reference repack what is decoded, each with its maximum. -/
theorem readV4_both (u8 : Memory) (bits pageBytes : ℕ) (idx : ℕ → ℤ) {n pid : ℕ} (hpid : pid < n)
    {order : List ℕ} (horder : order.Perm (List.range n)) (dst : Memory) :
    readV4 (repackFp4ToV4Kernel o u8 pageBytes bits idx order dst) pid =
        o.requantV4 (gated o (slotRow u8 bits pageBytes (idx pid)) (idx pid)) ∧
      readV4 (repackFp4ExtraToV4Ref o torchMax u8 (2 ^ bits) pageBytes idx n) pid =
        refV4 o torchMax (gated o (slotRow u8 bits pageBytes (idx pid)) (idx pid)) := by
  refine ⟨?_, readV4_ref o torchMax u8 (2 ^ bits) pageBytes idx hpid⟩
  rw [readV4_repack o u8 pageBytes bits idx dst (horder.mem_iff.mpr (List.mem_range.mpr hpid)),
    loadedRow_eq]
  rfl

/-- **When kernel and reference agree**: exactly where the nope scales of every slot are not
NaN-coded and, for a masked slot, slot 0 holds no NaN and nothing negative. -/
theorem repacksAlike_iff (laws : FloatLaws o torchMax) (u8 : Memory) (bits pageBytes : ℕ)
    (idx : ℕ → ℤ) {n : ℕ} {order : List ℕ} (horder : order.Perm (List.range n)) (dst : Memory) :
    RepacksAlike o torchMax u8 bits pageBytes idx n order dst ↔
      ∀ pid, pid < n → (slotRow u8 bits pageBytes (idx pid)).Clean ∧
        (idx pid = -1 → (slotRow u8 bits pageBytes (idx pid)).Positive) := by
  refine forall₂_congr fun pid hpid => ?_
  obtain ⟨hkernel, href⟩ := readV4_both torchMax u8 bits pageBytes idx hpid horder dst
  rw [hkernel, href, laws.requantV4_eq_refV4]
  refine and_congr_right fun hclean => forall_congr' fun hidx => ?_
  have hsame := (laws.requantV4_eq_refV4 _ (idx pid)).mpr hclean
  rw [← hsame, and_self_iff]
  rw [hidx] at hclean ⊢
  exact laws.requantV4_masked hclean

end

/-- **The FP4 codecs.** Every writer places element `e`'s code in nibble `e % 2` of data byte
`e / 2` and its group's scale in scale byte `e / 16` of the token's rows, for every row of
values, token and page size; every reader decodes element `e` from that nibble and that byte;
and kernel and reference write the same rows, the zero row for a masked slot, exactly where no
NaN-coded scale is met and slot 0 holds nothing negative. -/
theorem fp4_codecs {F : Type*} {o : FloatOps F} {torchMax : F → F → F}
    (laws : FloatLaws o torchMax) (enc : Fp4Encoder F) :
    -- the writers
    ((∀ kVecSize dataRow scaleRow x order m, 2 ∣ kVecSize → kVecSize ∣ 16 →
        dataRow + srcDataBytes ≤ scaleRow → order.Perm (List.range (512 / kVecSize)) →
        enc.Holds ⟨fun b => enc.storeRowFp4 kVecSize dataRow scaleRow x order m (dataRow + b),
          fun g => enc.storeRowFp4 kVecSize dataRow scaleRow x order m (scaleRow + g)⟩ x) ∧
      (∀ bits outLoc x order m, 0 < outLoc → order.Perm (List.range 256) →
        enc.Holds (tokenRow (enc.c1Store bits outLoc x order m) (2 ^ bits)
          (Fp4Encoder.kvPageBytes (2 ^ bits)) outLoc.toNat) x) ∧
      (∀ bits rawOutLoc x order m, rawOutLoc ≠ 0 → order.Perm (List.range 256) →
        enc.Holds (tokenRow (enc.c2Store bits rawOutLoc x order m) (2 ^ bits)
          (Fp4Encoder.kvPageBytes (2 ^ bits)) (rawOutLoc / 2)) x) ∧
      (∀ pageSize pageBytes k loc, 0 < pageSize →
        pageSize * (srcDataBytes + srcScaleBytes) ≤ pageBytes →
        enc.Holds (tokenRow (enc.quantizeKCacheV41Fp4 pageSize pageBytes k) pageSize pageBytes loc)
          (k (loc / pageSize) (loc % pageSize)))) ∧
    -- the readers
    (∀ u8 bits pageBytes idx n order dst pid, order.Perm (List.range n) → pid < n →
      let row := slotRow u8 bits pageBytes (idx pid)
      let x (e : ℕ) := o.mul (o.mul (o.e2m1 (row.code e)) (o.e4m3 (row.scale (e / 16))))
        (if 0 ≤ idx pid then o.one else o.zero)
      readV4 (repackFp4ToV4Kernel o u8 pageBytes bits idx order dst) pid = o.requantV4 x ∧
        readV4 (repackFp4ExtraToV4Ref o torchMax u8 (2 ^ bits) pageBytes idx n) pid =
          refV4 o torchMax x) ∧
    (∀ pages pageSize pageBytes loc e,
      let row := tokenRow pages pageSize pageBytes loc
      dequantizeKCacheV41Fp4 o pages pageSize pageBytes (loc / pageSize) (loc % pageSize) e =
        o.toBf16 (o.mul (o.e2m1 (row.code e)) (o.e4m3 (row.scale (e / 16))))) ∧
    -- kernel and reference
    ∀ u8 bits pageBytes idx n order dst, order.Perm (List.range n) →
      (RepacksAlike o torchMax u8 bits pageBytes idx n order dst ↔
        ∀ pid, pid < n → (slotRow u8 bits pageBytes (idx pid)).Clean ∧
          (idx pid = -1 → (slotRow u8 bits pageBytes (idx pid)).Positive)) := by
  refine ⟨⟨?_, ?_, ?_, ?_⟩, ?_, ?_, ?_⟩
  · intro kVecSize dataRow scaleRow x order m hsize htile hapart horder
    exact (Fp4Encoder.storeRowFp4_holds hsize htile hapart x horder m).1
  · intro bits outLoc x order m hloc horder
    exact Fp4Encoder.c1Store_holds hloc x horder m
  · intro bits rawOutLoc x order m hloc horder
    exact Fp4Encoder.c2Store_holds hloc x horder m
  · intro pageSize pageBytes k loc hsize hbytes
    exact Fp4Encoder.quantizeKCacheV41Fp4_holds hsize hbytes k loc
  · intro u8 bits pageBytes idx n order dst pid horder hpid
    exact readV4_both _ u8 bits pageBytes idx hpid horder dst
  · intro pages pageSize pageBytes loc e
    rfl
  · intro u8 bits pageBytes idx n order dst horder
    exact repacksAlike_iff laws u8 bits pageBytes idx horder dst

/-- A pool whose slot 0 has a NaN-coded first scale, and zeros elsewhere. -/
def nanPool : Memory := fun a => if a = 128 * srcDataBytes then 0x7F else 0

/-- **A masked slot is not zero** under a NaN-coded scale of slot 0: the kernel's first byte is
NaN, and its scale is not the reference's. -/
theorem masked_not_zero :
    ¬ RepacksAlike exactOps Num.maximum nanPool 7 36864 (fun _ => -1) 1 [0] (fun _ => 0) ∧
      (readV4 (repackFp4ToV4Kernel exactOps nanPool 36864 7 (fun _ => -1) [0] fun _ => 0)
        0).data.head? = some 0x7F := by
  have horder : [0].Perm (List.range 1) := List.Perm.refl _
  have hnan : nanCoded ((slotRow nanPool 7 36864 (-1)).scale 0) = true := by
    decide +kernel
  constructor
  · rw [repacksAlike_iff exactLaws _ _ _ _ horder]
    intro hall
    have hclean := (hall 0 (by decide)).1 0 (by decide)
    rw [hnan] at hclean
    cases hclean
  · rw [(readV4_both Num.maximum nanPool 7 36864 _ (by decide) horder _).1]
    have hgated := exactLaws.gated_nan (slotRow nanPool 7 36864 (-1)) (-1) 0
    rw [hnan] at hgated
    have hvalue : gated exactOps (slotRow nanPool 7 36864 (-1)) (-1) 0 = .nan := by
      cases hv : gated exactOps (slotRow nanPool 7 36864 (-1)) (-1) 0 with
      | nan => rfl
      | num neg q =>
        rw [hv] at hgated
        cases hgated
    have hbyte : exactOps.v4Data (gated exactOps (slotRow nanPool 7 36864 (-1)) (-1)) 0 = 0x7F := by
      rw [FloatOps.v4Data, if_pos (by decide), hvalue]
      rfl
    rw [FloatOps.requantV4, List.head?_map, List.head?_range, if_neg (by decide), Option.map_some,
      hbyte]

/-- A pool of values of either sign, under scales of one; those of slot 0 are positive. -/
def mixedPool : Memory := fun a =>
  if a < srcDataBytes then 0x21 else if a < 128 * srcDataBytes then 0xA1 else 0x38

/-- Every row of the example's first page has the scale `0x38`, and the row at index zero holds
`0x21` throughout. -/
theorem mixedPool_row {idx : ℤ} (hidx : idx < 128) :
    (∀ g, (slotRow mixedPool 7 36864 idx).scale g = 0x38) ∧
      ((max idx 0).toNat = 0 → ∀ b, b < srcDataBytes →
        (slotRow mixedPool 7 36864 idx).data b = 0x21) := by
  have hslot : (max idx 0).toNat < 128 := by omega
  have hpage : (max idx 0).toNat / 2 ^ 7 = 0 := Nat.div_eq_of_lt hslot
  constructor
  · intro g
    rw [slotRow, tokenRow, hpage]
    dsimp only
    rw [mixedPool, if_neg (by rw [srcDataBytes]; omega), if_neg (by rw [srcDataBytes]; omega)]
  · intro hzero b hb
    rw [slotRow, tokenRow, hzero]
    exact if_pos (by rw [srcDataBytes] at *; omega)

/-- A live slot, and a masked one. -/
def liveAndMasked (pid : ℕ) : ℤ := if pid = 0 then 5 else -1

/-- The codecs over that pool: the live slot and the masked one are repacked alike, the live one to
bytes of either sign, the masked one to the zero row. -/
theorem fp4_codecs_mixed :
    RepacksAlike exactOps Num.maximum mixedPool 7 36864 liveAndMasked 2 [1, 0] (fun _ => 0xFF) ∧
      (readV4 (repackFp4ToV4Kernel exactOps mixedPool 36864 7 liveAndMasked [1, 0] fun _ => 0xFF)
        0).data.take 2 = [112, 248] ∧
      readV4 (repackFp4ToV4Kernel exactOps mixedPool 36864 7 liveAndMasked [1, 0] fun _ => 0xFF) 1 =
        zeroV4 exactOps := by
  obtain ⟨-, hread, -, hiff⟩ := fp4_codecs exactLaws exactEncoder
  have halike : RepacksAlike exactOps Num.maximum mixedPool 7 36864 liveAndMasked 2 [1, 0]
      (fun _ => 0xFF) := by
    refine (hiff _ 7 36864 _ 2 [1, 0] _ (by decide)).mpr fun pid hpid => ?_
    have hpage : liveAndMasked pid < 128 := by
      rw [liveAndMasked]
      split_ifs <;> decide
    obtain ⟨hscale, hdata⟩ := mixedPool_row hpage
    refine ⟨fun g _ => hscale g ▸ rfl, fun hmasked e he => ⟨hscale _ ▸ rfl, ?_⟩⟩
    have hbyte := hdata (by rw [hmasked]; rfl) (e / 2) (by rw [srcDataBytes]; omega)
    rw [Fp4Row.code, hbyte, hscale]
    split_ifs <;> decide
  refine ⟨halike, ?_, ((halike 1 (by decide)).2 rfl).1⟩
  rw [(hread mixedPool 7 36864 liveAndMasked 2 [1, 0] _ 0 (by decide) (by decide)).1,
    FloatOps.requantV4, ← List.map_take, List.take_range]
  decide +kernel

end LuzServing

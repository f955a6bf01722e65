import LuzServing.Fp4BridgeRows
import LuzServing.FoldRange

/-!
# The FP4 cache: what is written where

Three programs write `V41_FP4` rows: the store helper of the CUDA kernels
(`store_row_fp4`), the kernels that call it for a token's slot, and the torch reference of the
tests. They share by convention only that element `e` is in nibble `e % 2` of data byte
`e / 2`, and its group's scale in scale byte `e / 16` (`Fp4Encoder.Holds`).

The scalar encoders are a parameter (`Fp4Encoder`): the code of a value under a scale, the
scale byte of a greatest magnitude.
-/

namespace LuzServing

/-! ## A row -/

/-- The code of element `e`. -/
def Fp4Row.code (row : Fp4Row) (e : ℕ) : UInt8 :=
  if e % 2 = 0 then row.data (e / 2) &&& 0xF else row.data (e / 2) >>> 4

/-- The code of an element of a row is a nibble, so it is below sixteen. -/
theorem Fp4Row.code_lt (row : Fp4Row) (e : ℕ) : row.code e < 16 := by
  rw [Fp4Row.code]
  split
  · rw [UInt8.lt_iff_toNat_lt, UInt8.toNat_and]
    exact Nat.lt_succ_of_le Nat.and_le_right
  · have hlt := (row.data (e / 2)).toNat_lt
    rw [UInt8.lt_iff_toNat_lt, UInt8.toNat_shiftRight, Nat.shiftRight_eq_div_pow]
    exact Nat.div_lt_of_lt_mul hlt

/-- `__nv_cvt_float2_to_fp4x2`: two codes in a byte, the first in the low nibble. -/
def fp4x2 (lo hi : UInt8) : UInt8 := lo ||| hi <<< 4

/-- Both codes that are packed into a byte are read back from its two nibbles. -/
theorem fp4x2_nibbles {lo hi : UInt8} (hlo : lo < 16) (hhi : hi < 16) :
    fp4x2 lo hi &&& 0xF = lo ∧ fp4x2 lo hi >>> 4 = hi := by
  have hall : ∀ a b : Fin 16,
      fp4x2 (UInt8.ofNat a) (UInt8.ofNat b) &&& 0xF = UInt8.ofNat a ∧
        fp4x2 (UInt8.ofNat a) (UInt8.ofNat b) >>> 4 = UInt8.ofNat b := by
    decide
  have h := hall ⟨lo.toNat, hlo⟩ ⟨hi.toNat, hhi⟩
  simpa only [UInt8.ofNat_toNat] using h

/-- The scalar operations of the writers. -/
structure Fp4Encoder (F : Type*) where
  /-- `fabsf` -/
  abs : F → F
  /-- `fmaxf` -/
  fmax : F → F → F
  /-- the e4m3 scale of a group's greatest magnitude, `compressed_kv_scale` -/
  scaleByte : F → UInt8
  /-- its value -/
  scale : UInt8 → F
  /-- the e2m1 code of `x / scale + 0.0` -/
  code : F → F → UInt8
  /-- a code has four bits -/
  code_lt : ∀ x s, code x s < 16
  /-- a maximum may be taken in any grouping -/
  fmax_assoc : ∀ x y z, fmax (fmax x y) z = fmax x (fmax y z)

namespace Fp4Encoder

variable {F : Type*} (enc : Fp4Encoder F)

/-- The scale byte of group `g` of the values `x`. -/
def rowScale (x : ℕ → F) (g : ℕ) : UInt8 :=
  enc.scaleByte (foldRange enc.fmax (fun e => enc.abs (x e)) (16 * g) 16)

/-- The code of element `e` of the values `x`. -/
def rowCode (x : ℕ → F) (e : ℕ) : UInt8 :=
  enc.code (x e) (enc.scale (enc.rowScale x (e / 16)))

/-- The row holds the values: each element's code in its nibble, each group's scale in its
byte. -/
def Holds (row : Fp4Row) (x : ℕ → F) : Prop :=
  ∀ e, e < 512 → row.code e = enc.rowCode x e ∧ row.scale (e / 16) = enc.rowScale x (e / 16)

/-- Data byte `b`. -/
def rowByte (x : ℕ → F) (b : ℕ) : UInt8 := fp4x2 (enc.rowCode x (2 * b)) (enc.rowCode x (2 * b + 1))

variable {enc}

/-- A row holds values when its bytes are those that the encoding computes for them. -/
theorem Holds.of_bytes {row : Fp4Row} {x : ℕ → F}
    (hdata : ∀ b, b < 256 → row.data b = enc.rowByte x b)
    (hscale : ∀ g, g < 32 → row.scale g = enc.rowScale x g) : enc.Holds row x := by
  intro e he
  refine ⟨?_, hscale _ (by omega)⟩
  have hcode : ∀ e, enc.rowCode x e < 16 := fun e => enc.code_lt _ _
  obtain ⟨hlo, hhi⟩ := fp4x2_nibbles (hcode (2 * (e / 2))) (hcode (2 * (e / 2) + 1))
  rw [Fp4Row.code, hdata _ (by omega), rowByte]
  split
  next heven =>
    have hself : 2 * (e / 2) = e := by omega
    rw [hself] at hlo ⊢
    exact hlo
  next hodd =>
    have hself : 2 * (e / 2) + 1 = e := by omega
    rw [hself] at hhi ⊢
    exact hhi

variable (enc)

/-! ## The store of a row -/

/-- `vec_amax`: the greatest magnitude of a thread's values. -/
def vecAmax (kVecSize : ℕ) (v : ℕ → F) : F := foldRange enc.fmax (fun i => enc.abs (v i)) 0 kVecSize

/-- `warp::reduce_max<kLanes>`: the greatest of a lane's group of lanes. -/
def reduceMax (kLanes : ℕ) (f : ℕ → F) (tx : ℕ) : F :=
  foldRange enc.fmax f (tx / kLanes * kLanes) kLanes

/-- The stores of thread `tx` in `store_row_fp4`. -/
def threadStores (kVecSize dataRow scaleRow : ℕ) (x : ℕ → F) (tx : ℕ) : List (ℕ × UInt8) :=
  let kTileLanes := 16 / kVecSize
  let v (tx i : ℕ) : F := x (kVecSize * tx + i)
  let amax := enc.reduceMax kTileLanes (fun tx => enc.vecAmax kVecSize (v tx)) tx
  let scaleE4m3 := enc.scaleByte amax
  let scale := enc.scale scaleE4m3
  (List.range (kVecSize / 2)).map (fun i => (dataRow + (tx * (kVecSize / 2) + i),
    fp4x2 (enc.code (v tx (2 * i)) scale) (enc.code (v tx (2 * i + 1)) scale))) ++
    [(scaleRow + tx / kTileLanes, scaleE4m3)]

/-- `store_row_fp4`: the stores of a token's threads, in the order `order`. -/
def storeRowFp4 (kVecSize dataRow scaleRow : ℕ) (x : ℕ → F) (order : List ℕ) (m : Memory) :
    Memory :=
  storeAll m (order.flatMap (enc.threadStores kVecSize dataRow scaleRow x))

/-- `kv_page_bytes<V41_FP4>` -/
def kvPageBytes (pageSize : ℕ) : ℕ := (pageSize * (srcDataBytes + srcScaleBytes) + 255) / 256 * 256

/-- `PagedKV<V41_FP4, kPageBits>::row`: where the rows of token `loc` are. -/
def pagedRow (kPageBits loc : ℕ) : ℕ × ℕ :=
  let page := (loc >>> kPageBits) * kvPageBytes (1 <<< kPageBits)
  let slot := loc &&& (1 <<< kPageBits - 1)
  (page + slot * srcDataBytes, page + srcDataBytes <<< kPageBits + slot * srcScaleBytes)

/-- The store of the ratio-1 kernel: nothing for a padded row. -/
def c1Store (kPageBits : ℕ) (outLoc : ℤ) (x : ℕ → F) (order : List ℕ) (m : Memory) : Memory :=
  if outLoc ≤ 0 then m
  else
    let row := pagedRow kPageBits outLoc.toNat
    enc.storeRowFp4 2 row.1 row.2 x order m

/-- The store of the ratio-2 kernel, which completes a pair at an odd position. -/
def c2Store (kPageBits rawOutLoc : ℕ) (x : ℕ → F) (order : List ℕ) (m : Memory) : Memory :=
  if rawOutLoc = 0 then m
  else
    let row := pagedRow kPageBits (rawOutLoc >>> 1)
    enc.storeRowFp4 2 row.1 row.2 x order m

/-- `quantize_k_cache_v41_fp4`: the pages of the values `k`, by page, slot and element. -/
def quantizeKCacheV41Fp4 (pageSize pageBytes : ℕ) (k : ℕ → ℕ → ℕ → F) : Memory := fun a =>
  let page := a / pageBytes
  let o := a % pageBytes
  let raw := pageSize * (srcDataBytes + srcScaleBytes)
  if o < pageSize * srcDataBytes then
    let x := k page (o / srcDataBytes)
    let b := o % srcDataBytes
    enc.rowCode x (2 * b) ||| enc.rowCode x (2 * b + 1) <<< 4
  else if o < raw then
    let s := o - pageSize * srcDataBytes
    enc.rowScale (k page (s / srcScaleBytes)) (s % srcScaleBytes)
  else 0

/-! ## What a thread stores -/

variable {kVecSize : ℕ} (hsize : 2 ∣ kVecSize) (htile : kVecSize ∣ 16)

include htile in
/-- The lanes of a tile reduce to the greatest magnitude of the tile. -/
theorem reduceMax_vecAmax (x : ℕ → F) (tx : ℕ) :
    enc.reduceMax (16 / kVecSize)
        (fun tx => enc.vecAmax kVecSize fun i => x (kVecSize * tx + i)) tx =
      foldRange enc.fmax (fun e => enc.abs (x e)) (16 * (tx / (16 / kVecSize))) 16 := by
  obtain ⟨lanes, hlanes⟩ := htile
  have hvec : 0 < kVecSize := Nat.pos_of_ne_zero (by rintro rfl; omega)
  have hpos : 0 < lanes := Nat.pos_of_ne_zero (by rintro rfl; omega)
  have hdiv : 16 / kVecSize = lanes := Nat.div_eq_of_eq_mul_right hvec hlanes
  have hlane : (fun tx => enc.vecAmax kVecSize fun i => x (kVecSize * tx + i)) =
      fun l => foldRange enc.fmax (fun e => enc.abs (x e)) (l * kVecSize) kVecSize := by
    funext l
    exact foldRange_shift hvec fun i => by rw [Nat.mul_comm]
  rw [hdiv, reduceMax, hlane, foldRange_blocks (P := fun _ => True) (fun _ _ _ _ => trivial)
    (fun x y z _ _ _ => enc.fmax_assoc x y z) hpos hvec fun _ _ _ => trivial]
  have hstart : tx / lanes * lanes * kVecSize = 16 * (tx / lanes) := by
    rw [Nat.mul_assoc, Nat.mul_comm lanes, ← hlanes, Nat.mul_comm]
  rw [hstart, Nat.mul_comm lanes, ← hlanes]

include hsize htile in
/-- A thread stores the row's bytes of its elements, and the scale byte of its tile. -/
theorem threadStores_eq (dataRow scaleRow : ℕ) (x : ℕ → F) (tx : ℕ) :
    enc.threadStores kVecSize dataRow scaleRow x tx =
      (List.range (kVecSize / 2)).map (fun i => (dataRow + (tx * (kVecSize / 2) + i),
        enc.rowByte x (tx * (kVecSize / 2) + i))) ++
        [(scaleRow + tx / (16 / kVecSize), enc.rowScale x (tx / (16 / kVecSize)))] := by
  unfold threadStores
  dsimp only
  rw [enc.reduceMax_vecAmax htile]
  refine congrArg₂ (· ++ ·) (List.map_congr_left fun i hi => ?_) rfl
  obtain ⟨w, rfl⟩ := hsize
  have hi : i < 2 * w / 2 := List.mem_range.mp hi
  obtain ⟨lanes, hlanes⟩ := htile
  have hw : 0 < 2 * w := Nat.pos_of_ne_zero (by intro h; rw [h] at hlanes; omega)
  have hdiv : 16 / (2 * w) = lanes := Nat.div_eq_of_eq_mul_right hw hlanes
  have htwo : 2 * w / 2 = w := by omega
  rw [htwo] at hi ⊢
  have helem : ∀ j, j < 2 → 2 * w * tx + (2 * i + j) = 2 * (tx * w + i) + j := by
    intro j _
    ring
  have htile : ∀ j, j < 2 → (2 * (tx * w + i) + j) / 16 = tx / lanes := by
    intro j hj
    have hsmall : (2 * i + j) / (2 * w) = 0 := Nat.div_eq_of_lt (by omega)
    rw [← helem j hj, hlanes, ← Nat.div_div_eq_div_mul, Nat.mul_add_div hw, hsmall, Nat.add_zero]
  have hcode : ∀ j, j < 2 → enc.rowCode x (2 * (tx * w + i) + j) =
      enc.code (x (2 * w * tx + (2 * i + j))) (enc.scale (enc.rowScale x (tx / lanes))) := by
    intro j hj
    rw [rowCode, htile j hj, helem j hj]
  rw [hdiv, rowByte, hcode 1 (by decide), ← Nat.add_zero (2 * (tx * w + i)), hcode 0 (by decide)]
  rfl

/-! ## What a store leaves -/

/-- Where a token's rows are: the data row apart from the scale row. -/
def Apart (dataRow scaleRow : ℕ) : Prop := dataRow + srcDataBytes ≤ scaleRow

variable {enc}

include hsize htile in
/-- **What the threads of a row store**: each data byte and each scale byte of the row. -/
theorem mem_rowStores (dataRow scaleRow : ℕ) (x : ℕ → F) {order : List ℕ}
    (horder : order.Perm (List.range (512 / kVecSize))) {s : ℕ × UInt8} :
    s ∈ order.flatMap (enc.threadStores kVecSize dataRow scaleRow x) ↔
      (∃ b, b < srcDataBytes ∧ s = (dataRow + b, enc.rowByte x b)) ∨
        ∃ g, g < srcScaleBytes ∧ s = (scaleRow + g, enc.rowScale x g) := by
  have hthread := enc.threadStores_eq hsize htile dataRow scaleRow x
  obtain ⟨w, rfl⟩ := hsize
  obtain ⟨lanes, hlanes⟩ := htile
  have hw : 0 < 2 * w := Nat.pos_of_ne_zero (by intro h; rw [h] at hlanes; omega)
  have hpos : 0 < lanes := Nat.pos_of_ne_zero (by rintro rfl; omega)
  have hwpos : 0 < w := by omega
  have hdiv : 16 / (2 * w) = lanes := Nat.div_eq_of_eq_mul_right hw hlanes
  have htwo : 2 * w / 2 = w := by omega
  have hthreads : 512 / (2 * w) = 32 * lanes := by
    refine Nat.div_eq_of_eq_mul_right hw ?_
    rw [Nat.mul_left_comm, ← hlanes]
  have hbytes : 32 * lanes * w = 256 := by
    have : 2 * (lanes * w) = 16 := by rw [hlanes]; ring
    rw [Nat.mul_assoc]
    omega
  rw [hdiv, htwo] at hthread
  rw [hthreads] at horder
  rw [List.mem_flatMap]
  refine ⟨?_, ?_⟩
  · rintro ⟨tx, htx, hs⟩
    have htx : tx < 32 * lanes := List.mem_range.mp (horder.mem_iff.mp htx)
    rw [hthread] at hs
    rcases List.mem_append.mp hs with hs | hs
    · obtain ⟨i, hi, rfl⟩ := List.mem_map.mp hs
      have hi : i < w := List.mem_range.mp hi
      have hle : (tx + 1) * w ≤ 32 * lanes * w := Nat.mul_le_mul_right w htx
      rw [hbytes, Nat.succ_mul] at hle
      exact .inl ⟨tx * w + i, by simp only [srcDataBytes]; omega, rfl⟩
    · obtain rfl := List.mem_singleton.mp hs
      exact .inr ⟨tx / lanes, (Nat.div_lt_iff_lt_mul hpos).mpr htx, rfl⟩
  · rintro (⟨b, hb, rfl⟩ | ⟨g, hg, rfl⟩)
    · -- byte `b` is of thread `b / w`
      have hlt : b / w < 32 * lanes := by
        rw [Nat.div_lt_iff_lt_mul hwpos, hbytes]
        exact hb
      refine ⟨b / w, horder.mem_iff.mpr (List.mem_range.mpr hlt), ?_⟩
      rw [hthread]
      refine List.mem_append_left _ (List.mem_map.mpr ⟨b % w,
        List.mem_range.mpr (Nat.mod_lt b hwpos), ?_⟩)
      rw [Nat.div_add_mod']
    · -- the first thread of the scale's lanes stores it
      have hlt : g * lanes < 32 * lanes := Nat.mul_lt_mul_of_pos_right hg hpos
      refine ⟨g * lanes, horder.mem_iff.mpr (List.mem_range.mpr hlt), ?_⟩
      rw [hthread]
      refine List.mem_append_right _ (List.mem_singleton.mpr ?_)
      rw [Nat.mul_div_cancel g hpos]

include hsize htile in
/-- **The store of a row**: whatever the order of the threads, the token's rows hold the
values, and nothing else is touched. -/
theorem storeRowFp4_holds {dataRow scaleRow : ℕ} (hapart : Apart dataRow scaleRow) (x : ℕ → F)
    {order : List ℕ} (horder : order.Perm (List.range (512 / kVecSize))) (m : Memory) :
    enc.Holds ⟨fun b => enc.storeRowFp4 kVecSize dataRow scaleRow x order m (dataRow + b),
        fun g => enc.storeRowFp4 kVecSize dataRow scaleRow x order m (scaleRow + g)⟩ x ∧
      ∀ a, (∀ b, b < srcDataBytes → a ≠ dataRow + b) → (∀ g, g < srcScaleBytes → a ≠ scaleRow + g) →
        enc.storeRowFp4 kVecSize dataRow scaleRow x order m a = m a := by
  have hmem : ∀ s, s ∈ order.flatMap (enc.threadStores kVecSize dataRow scaleRow x) ↔ _ := fun s =>
    enc.mem_rowStores hsize htile dataRow scaleRow x horder
  simp only [Apart, srcDataBytes] at hapart
  refine ⟨Holds.of_bytes (fun b hb => ?_) fun g hg => ?_, fun a hb hg => ?_⟩
  · refine storeAll_eq (fun s hs ha => ?_) ⟨_, (hmem _).mpr (.inl ⟨b, hb, rfl⟩), rfl⟩
    rcases (hmem s).mp hs with ⟨b', hb', rfl⟩ | ⟨g, hg, rfl⟩
    · rw [Nat.add_left_cancel ha]
    · dsimp only at ha
      omega
  · refine storeAll_eq (fun s hs ha => ?_) ⟨_, (hmem _).mpr (.inr ⟨g, hg, rfl⟩), rfl⟩
    rcases (hmem s).mp hs with ⟨b, hb, rfl⟩ | ⟨g', hg', rfl⟩
    · simp only [srcDataBytes] at ha hb
      omega
    · rw [Nat.add_left_cancel ha]
  · refine storeAll_of_ne fun s hs ha => ?_
    rcases (hmem s).mp hs with ⟨b, hb', rfl⟩ | ⟨g, hg', rfl⟩
    · exact hb b hb' ha.symm
    · exact hg g hg' ha.symm

/-- The rows of a token are its row in the pages. -/
theorem pagedRow_eq (m : Memory) (bits loc : ℕ) :
    tokenRow m (2 ^ bits) (kvPageBytes (2 ^ bits)) loc =
      ⟨fun b => m ((pagedRow bits loc).1 + b), fun g => m ((pagedRow bits loc).2 + g)⟩ := by
  unfold tokenRow pagedRow
  simp only [Nat.shiftRight_eq_div_pow, Nat.shiftLeft_eq, Nat.one_mul,
    Nat.and_two_pow_sub_one_eq_mod, Nat.mul_comm srcDataBytes]

/-- The data rows of a page come before its scale rows. -/
theorem pagedRow_apart (bits loc : ℕ) : Apart (pagedRow bits loc).1 (pagedRow bits loc).2 := by
  have hlt := Nat.mod_lt loc (Nat.two_pow_pos bits)
  unfold pagedRow Apart
  simp only [Nat.shiftLeft_eq, Nat.one_mul, Nat.and_two_pow_sub_one_eq_mod, srcDataBytes]
  omega

/-- After the ratio-1 kernel has stored a token, the row at its location holds the token's
values. -/
theorem c1Store_holds {bits : ℕ} {outLoc : ℤ} (hloc : 0 < outLoc) (x : ℕ → F) {order : List ℕ}
    (horder : order.Perm (List.range 256)) (m : Memory) :
    enc.Holds (tokenRow (enc.c1Store bits outLoc x order m) (2 ^ bits) (kvPageBytes (2 ^ bits))
      outLoc.toNat) x := by
  rw [c1Store, if_neg (not_le.mpr hloc), pagedRow_eq]
  exact (storeRowFp4_holds (by decide) (by decide) (pagedRow_apart bits _) x horder m).1

/-- After the ratio-2 kernel has stored a pair, the row at the pair's location holds the pair's
values. -/
theorem c2Store_holds {bits rawOutLoc : ℕ} (hloc : rawOutLoc ≠ 0) (x : ℕ → F) {order : List ℕ}
    (horder : order.Perm (List.range 256)) (m : Memory) :
    enc.Holds (tokenRow (enc.c2Store bits rawOutLoc x order m) (2 ^ bits)
      (kvPageBytes (2 ^ bits)) (rawOutLoc / 2)) x := by
  rw [c2Store, if_neg hloc, Nat.shiftRight_eq_div_pow, Nat.pow_one, pagedRow_eq]
  exact (storeRowFp4_holds (by decide) (by decide) (pagedRow_apart bits _) x horder m).1

/-- In the pages that the Python reference builds, each token's row holds the token's values,
too. -/
theorem quantizeKCacheV41Fp4_holds {pageSize pageBytes : ℕ} (hsize : 0 < pageSize)
    (hbytes : pageSize * (srcDataBytes + srcScaleBytes) ≤ pageBytes) (k : ℕ → ℕ → ℕ → F)
    (loc : ℕ) :
    enc.Holds (tokenRow (enc.quantizeKCacheV41Fp4 pageSize pageBytes k) pageSize pageBytes loc)
      (k (loc / pageSize) (loc % pageSize)) := by
  have hslot := Nat.mod_lt loc hsize
  simp only [srcDataBytes, srcScaleBytes] at hbytes
  have hplace : ∀ o, o < pageSize * 288 →
      (loc / pageSize * pageBytes + o) / pageBytes = loc / pageSize ∧
        (loc / pageSize * pageBytes + o) % pageBytes = o := by
    intro o ho
    have hlt : o < pageBytes := by omega
    have hpos : 0 < pageBytes := by omega
    rw [Nat.mul_comm, Nat.mul_add_div hpos, Nat.mul_add_mod, Nat.div_eq_of_lt hlt,
      Nat.mod_eq_of_lt hlt]
    exact ⟨rfl, rfl⟩
  refine Holds.of_bytes (fun b hb => ?_) fun g hg => ?_
  · obtain ⟨hpage, ho⟩ := hplace (loc % pageSize * 256 + b) (by omega)
    have hin : loc % pageSize * 256 + b < pageSize * 256 := by omega
    have hdiv : (loc % pageSize * 256 + b) / 256 = loc % pageSize := by omega
    have hmod : (loc % pageSize * 256 + b) % 256 = b := by omega
    simp only [tokenRow, quantizeKCacheV41Fp4, srcDataBytes, srcScaleBytes, Nat.add_assoc, hpage,
      ho, if_pos hin, hdiv, hmod]
    rfl
  · obtain ⟨hpage, ho⟩ := hplace (pageSize * 256 + (loc % pageSize * 32 + g)) (by omega)
    have hin : ¬ pageSize * 256 + (loc % pageSize * 32 + g) < pageSize * 256 := by omega
    have hin' : pageSize * 256 + (loc % pageSize * 32 + g) < pageSize * (256 + 32) := by omega
    have hdiv : (loc % pageSize * 32 + g) / 32 = loc % pageSize := by omega
    have hmod : (loc % pageSize * 32 + g) % 32 = g := by omega
    simp only [tokenRow, quantizeKCacheV41Fp4, srcDataBytes, srcScaleBytes, Nat.add_assoc, hpage,
      ho, if_neg hin, if_pos hin', Nat.add_sub_cancel_left, hdiv, hmod]

end Fp4Encoder

end LuzServing

import LuzServing.KvLayout
import LuzServing.Segments
import LuzServing.Stores

/-!
# Pages of 64 tokens out of larger ones

The attention kernel reads pages of 64 tokens: their data rows, then their scale rows. A pool has
larger pages of that form. Before a step `_split_kv_pages_to_64` copies the pages that hold a token
that is asked for, each to as many pages of 64 as it has room for, into a buffer that is kept from
step to step. A token then is at the page and slot of the same index, so the indices need no change.

The kernel multiplies the number of a page by its stride in `int32`. From a page on that starts
2 ^ 34 bytes into the pool the product wraps, and the kernel reads and writes elsewhere; that the
copied pages are before that is exactly what it takes (`split_kv_pages_to_64_iff`).
-/

namespace LuzServing

/-! ## The kernels -/

/-- The stores of a lane of 8 bytes. -/
def laneStores (src : ℤ → UInt8) (load store : ℤ) : List (ℤ × UInt8) :=
  (List.range 8).map fun b : ℕ => (8 * store + b, src (8 * load + b))

/-- A loop that copies so many lanes, in blocks of `BLOCK_SIZE`, with a mask. -/
def copyLanes (src : ℤ → UInt8) (blockSize lanes : ℕ) (load store : ℤ) : List (ℤ × UInt8) :=
  (chunkStarts lanes blockSize).flatMap fun start =>
    (List.range blockSize).flatMap fun i =>
      let offs := start + i
      if offs < lanes then laneStores src (load + offs) (store + offs) else []

/-- What `_page_split_kernel` is launched with. -/
structure PageSplitArgs : Type where
  /-- the memory at `src_ptr`, and around it -/
  src : ℤ → UInt8
  /-- `N_pages` -/
  nPages : ℕ
  /-- `src_stride0` -/
  srcStride0 : ℕ
  /-- `dst_stride0` -/
  dstStride0 : ℕ
  /-- `DATA_PER_SUB` -/
  dataPerSub : ℕ
  /-- `SCALE_PER_SUB` -/
  scalePerSub : ℕ
  /-- `SRC_SCALE_OFF` -/
  srcScaleOff : ℕ
  /-- `DST_SCALE_OFF` -/
  dstScaleOff : ℕ
  /-- `RATIO` -/
  ratio : ℕ
  /-- `BLOCK_SIZE` -/
  blockSize : ℕ
  /-- `mask_ptr`, if `HAS_MASK` -/
  mask : Option (ℤ → ℤ)

/-- `_page_split_kernel`: the stores of a program. Its number is an `int32`, and so is what it is
multiplied by, which makes the offsets in lanes `int32`s. A pointer has 64 bits. -/
def pageSplitKernel (args : PageSplitArgs) (pid : ℕ) : List (ℤ × UInt8) :=
  let pageIdx := pid / args.ratio
  let sub := pid % args.ratio
  if args.nPages ≤ pageIdx then []
  else if args.mask.any fun mask => mask pageIdx == 0 then []
  else
    let srcBase := toInt32 (pageIdx * (args.srcStride0 / 8) : ℕ)
    let dstBase := toInt32 ((pageIdx * args.ratio + sub) * (args.dstStride0 / 8) : ℕ)
    let dataU64 := args.dataPerSub / 8
    let scaleU64 := args.scalePerSub / 8
    let dataSrcOff := toInt32 (sub * dataU64 : ℕ)
    let scaleSrcOff := toInt32 ((args.srcScaleOff / 8 : ℕ) + toInt32 (sub * scaleU64 : ℕ))
    copyLanes args.src args.blockSize dataU64 (srcBase + dataSrcOff) dstBase ++
      copyLanes args.src args.blockSize scaleU64 (srcBase + scaleSrcOff)
        (dstBase + (args.dstScaleOff / 8 : ℕ))

/-- `_page_mark_kernel`: the stores of a program. -/
def pageMarkKernel (indices : List ℤ) (srcPbs block pid : ℕ) : List (ℤ × ℤ) :=
  (List.range block).filterMap fun i =>
    let offs := pid * block + i
    let valid := offs < indices.length
    let idx := if valid then indices.getD offs (-1) else -1
    let page := idx.tdiv srcPbs
    if valid ∧ 0 ≤ idx then some (page, 1) else none

/-! ## The split -/

/-- `_PBS_DST` -/
def pbsDst : ℕ := 64

/-- `_NOPE_ROPE_STRIDE` -/
def nopeRopeStride : ℕ := 576

/-- `_SCALE_STRIDE` -/
def scaleStride : ℕ := 8

/-- `_BYTES_PER_DST_PAGE` -/
def bytesPerDstPage : ℕ := pbsDst * nopeRopeStride + pbsDst * scaleStride

/-- `_BYTES_PER_DST_PAGE_PADDED` -/
def bytesPerDstPagePadded : ℕ := (bytesPerDstPage + 575) / 576 * 576

/-- A tensor of pages with a footer: the pool that is split, or the view that is returned. -/
structure KvPages : Type where
  /-- `shape[0]` -/
  numPages : ℕ
  /-- `stride(0)`, in bytes -/
  stride : ℕ
  /-- its bytes, and those of the memory around it, by address -/
  bytes : ℤ → UInt8

/-- A buffer that is kept and only replaced by a larger one. -/
structure KeptBuffer (α : Type) : Type where
  /-- `shape[0]` -/
  rows : ℕ
  /-- what it and the memory around it hold -/
  values : ℤ → α

/-- The buffer to use for so many rows: the kept one, unless it is too small. `memory` is what new
memory holds. -/
def KeptBuffer.grow {α : Type} (kept : Option (KeptBuffer α)) (rows : ℕ) (memory : ℤ → α) :
    KeptBuffer α :=
  match kept with
  | none => ⟨rows, memory⟩
  | some buffer => if buffer.rows < rows then ⟨rows, memory⟩ else buffer

/-- The buffers of `get_resources().buffers` for a device and a tag. -/
structure SplitBuffers : Type where
  /-- `flash_mla_sm120_split` -/
  out : Option (KeptBuffer UInt8)
  /-- `flash_mla_sm120_mask` -/
  mask : Option (KeptBuffer ℤ)

/-- What a call does not decide: what new memory holds, and the order of the stores. -/
structure SplitRun : Type where
  /-- the memory of a new `out` -/
  outMemory : ℤ → UInt8
  /-- the memory of a new mask -/
  maskMemory : ℤ → ℤ
  /-- the order of the stores of the marks -/
  markOrder : Interleaving (ℤ × ℤ)
  /-- the order of the stores of the copies -/
  splitOrder : Interleaving (ℤ × UInt8)

/-- `use_mask` -/
def useMask (touchedIndices : Option (List ℤ)) : Bool :=
  touchedIndices.any fun indices => decide (0 < indices.length)

/-- The mask, after `mask.zero_()` and `_page_mark_kernel`. -/
def markPages (run : SplitRun) (mbuf : KeptBuffer ℤ) (n srcPbs : ℕ) (indices : List ℤ) :
    KeptBuffer ℤ :=
  let zeroed : ℤ → ℤ := fun page => if 0 ≤ page ∧ page < n then 0 else mbuf.values page
  -- `idx_flat` is made a tensor of `int32`
  ⟨mbuf.rows, runGrid run.markOrder ((indices.length + 1024 - 1) / 1024)
    (pageMarkKernel (indices.map toInt32) srcPbs 1024) zeroed⟩

/-- The arguments of `_page_split_kernel`. -/
def pageSplitArgs (kv : KvPages) (srcPbs : ℕ) (mask : Option (KeptBuffer ℤ)) : PageSplitArgs where
  src := kv.bytes
  nPages := kv.numPages
  srcStride0 := kv.stride
  dstStride0 := bytesPerDstPagePadded
  dataPerSub := pbsDst * nopeRopeStride
  scalePerSub := pbsDst * scaleStride
  srcScaleOff := srcPbs * nopeRopeStride
  dstScaleOff := pbsDst * nopeRopeStride
  ratio := srcPbs / pbsDst
  blockSize := 1024
  mask := mask.map KeptBuffer.values

/-- `_split_kv_pages_to_64`: the view that is returned, and the buffers then. -/
def splitKvPagesTo64 (run : SplitRun) (buffers : SplitBuffers) (kv : KvPages) (srcPbs : ℕ)
    (touchedIndices : Option (List ℤ)) : Option (KvPages × SplitBuffers) :=
  if ¬ (srcPbs % pbsDst = 0 ∧ pbsDst ≤ srcPbs) then none
  else if srcPbs = pbsDst then some (kv, buffers)
  else
    let ratio := srcPbs / pbsDst
    let numDstPages := kv.numPages * ratio
    let buf := KeptBuffer.grow buffers.out numDstPages run.outMemory
    let mask :=
      if useMask touchedIndices then
        some (markPages run (KeptBuffer.grow buffers.mask kv.numPages run.maskMemory) kv.numPages
          srcPbs (touchedIndices.getD []))
      else none
    if ¬ (kv.stride % 8 = 0 ∧ bytesPerDstPagePadded % 8 = 0) then none
    else
      let out := runGrid run.splitOrder (kv.numPages * ratio)
        (pageSplitKernel (pageSplitArgs kv srcPbs mask)) buf.values
      some (⟨numDstPages, bytesPerDstPagePadded, out⟩, ⟨some ⟨buf.rows, out⟩, mask.or buffers.mask⟩)

/-! ## Loops and lanes -/

/-- The stores of a copying loop put each byte of its lanes where the lane's own store puts it. -/
theorem mem_copyLanes {src : ℤ → UInt8} {blockSize lanes : ℕ} {load store : ℤ}
    (hblock : 0 < blockSize) {s : ℤ × UInt8} : s ∈ copyLanes src blockSize lanes load store ↔
      ∃ k : ℕ, k < 8 * lanes ∧ s = (8 * store + k, src (8 * load + k)) := by
  constructor
  · intro hs
    obtain ⟨start, -, hs⟩ := List.mem_flatMap.mp hs
    obtain ⟨i, -, hs⟩ := List.mem_flatMap.mp hs
    dsimp only at hs
    by_cases hoffs : start + i < lanes
    · rw [if_pos hoffs] at hs
      obtain ⟨b, hb, rfl⟩ := List.mem_map.mp hs
      have hb : b < 8 := List.mem_range.mp hb
      refine ⟨8 * (start + i) + b, by omega, ?_⟩
      push_cast
      rw [mul_add 8 store, mul_add 8 load, add_assoc, add_assoc]
    · rw [if_neg hoffs] at hs
      exact absurd hs List.not_mem_nil
  · rintro ⟨k, hk, rfl⟩
    have hlane : k / 8 < lanes := Nat.div_lt_of_lt_mul hk
    obtain ⟨start, hstart, hle, hlt⟩ := exists_chunk hblock hlane
    have hoffs : start + (k / 8 - start) = k / 8 := Nat.add_sub_of_le hle
    refine List.mem_flatMap.mpr ⟨start, hstart, List.mem_flatMap.mpr
      ⟨k / 8 - start, List.mem_range.mpr (by omega), ?_⟩⟩
    dsimp only
    rw [hoffs, if_pos hlane]
    refine List.mem_map.mpr ⟨k % 8, List.mem_range.mpr (Nat.mod_lt k (by decide)), ?_⟩
    have hsplit : (k : ℤ) = 8 * (k / 8 : ℕ) + (k % 8 : ℕ) := by
      exact_mod_cast (Nat.div_add_mod k 8).symm
    rw [mul_add 8 store, mul_add 8 load, add_assoc, add_assoc, ← hsplit]

/-! ## Marks -/

/-- The marks are of the pages of the indices that are not negative. -/
theorem mem_pageMarkKernel {indices : List ℤ} {srcPbs block : ℕ} (hblock : 0 < block)
    {s : ℤ × ℤ} : (∃ pid, pid < (indices.length + block - 1) / block ∧
        s ∈ pageMarkKernel indices srcPbs block pid) ↔
      ∃ t : ℕ, (t : ℤ) ∈ indices ∧ s = (((t / srcPbs : ℕ) : ℤ), 1) := by
  constructor
  · rintro ⟨pid, -, hs⟩
    obtain ⟨i, -, hs⟩ := List.mem_filterMap.mp hs
    dsimp only at hs
    by_cases hkeep : pid * block + i < indices.length ∧
        0 ≤ if pid * block + i < indices.length then indices.getD (pid * block + i) (-1) else -1
    · rw [if_pos hkeep, if_pos hkeep.1] at hs
      obtain ⟨hvalid, hnonneg⟩ := hkeep
      rw [if_pos hvalid] at hnonneg
      obtain ⟨t, ht⟩ := Int.eq_ofNat_of_zero_le hnonneg
      rw [ht] at hs
      refine ⟨t, ?_, (Option.some.inj hs).symm⟩
      rw [← ht, List.getD_eq_getElem _ _ hvalid]
      exact List.getElem_mem hvalid
    · rw [if_neg hkeep] at hs
      cases hs
  · rintro ⟨t, ht, rfl⟩
    obtain ⟨j, hj, hjt⟩ := List.getElem_of_mem ht
    have hoffs : j / block * block + j % block = j := Nat.div_add_mod' j block
    refine ⟨j / block, ?_, List.mem_filterMap.mpr
      ⟨j % block, List.mem_range.mpr (Nat.mod_lt j hblock), ?_⟩⟩
    · rw [Nat.div_lt_iff_lt_mul hblock]
      have hdiv := Nat.div_add_mod' (indices.length + block - 1) block
      have hmod := Nat.mod_lt (indices.length + block - 1) hblock
      omega
    · dsimp only
      rw [hoffs, if_pos hj, List.getD_eq_getElem _ _ hj, hjt, if_pos ⟨hj, Int.natCast_nonneg t⟩]
      rfl

/-- **The mask**: a page is marked when an index is of one of its tokens. -/
theorem markPages_ne_zero {run : SplitRun} {mbuf : KeptBuffer ℤ} {n srcPbs page : ℕ}
    {indices : List ℤ} (hpage : page < n) :
    (markPages run mbuf n srcPbs indices).values page ≠ 0 ↔
      ∃ t : ℕ, (t : ℤ) ∈ indices.map toInt32 ∧ t / srcPbs = page := by
  have hgrid : (indices.map toInt32).length = indices.length := List.length_map ..
  by_cases hmarked : ∃ t : ℕ, (t : ℤ) ∈ indices.map toInt32 ∧ t / srcPbs = page
  · refine iff_of_true ?_ hmarked
    obtain ⟨t, ht, hpage⟩ := hmarked
    have hone : (markPages run mbuf n srcPbs indices).values page = 1 := by
      refine runGrid_eq (fun pid hpid s hs _ => ?_) ?_
      · rw [← hgrid] at hpid
        obtain ⟨t', -, rfl⟩ := (mem_pageMarkKernel (by decide)).mp ⟨pid, hpid, hs⟩
        rfl
      · obtain ⟨pid, hpid, hs⟩ :=
          (mem_pageMarkKernel (by decide : 0 < 1024)).mpr ⟨t, ht, rfl⟩
        rw [hgrid] at hpid
        exact ⟨pid, hpid, (((t / srcPbs : ℕ) : ℤ), 1), hs, congrArg Nat.cast hpage⟩
    rw [hone]
    decide
  · refine iff_of_false (not_not_intro ?_) hmarked
    refine (runGrid_of_ne fun pid hpid s hs hsa => ?_).trans
      (if_pos ⟨Int.natCast_nonneg page, Nat.cast_lt.mpr hpage⟩)
    rw [← hgrid] at hpid
    obtain ⟨t, ht, rfl⟩ := (mem_pageMarkKernel (by decide)).mp ⟨pid, hpid, hs⟩
    exact hmarked ⟨t, ht, Nat.cast_inj.mp hsa⟩

/-! ## Pages with a footer -/

/-- The bytes of a token's row. -/
def footerWidth : Region → ℕ
  | .data => nopeRopeStride
  | .scale => scaleStride

/-- Where a region starts in a page of so many tokens. -/
def footerBase (slots : ℕ) : Region → ℕ
  | .data => 0
  | .scale => slots * nopeRopeStride

/-- Byte `i` of a token's row: the page and the slot are the quotient and the remainder. -/
def footerByte (stride slots : ℕ) (r : Region) (t i : ℕ) : ℕ :=
  t / slots * stride + (footerBase slots r + (t % slots * footerWidth r + i))

/-- The pages of 64 tokens are those of a cache of V4. -/
theorem footerByte_eq_rowStart (r : Region) (t i : ℕ) :
    footerByte bytesPerDstPagePadded pbsDst r t i =
      (KVLayout.v4.pages (by decide : 0 < pbsDst)).rowStart r t + i := by
  cases r <;> rw [FooterPages.rowStart, FooterPages.inPage, footerByte, Nat.add_assoc,
    Nat.add_assoc] <;> rfl

/-- A page that is copied: one of the pool that the mask, if there is one, does not leave out. -/
def Copied (kv : KvPages) (mask : Option (KeptBuffer ℤ)) (page : ℕ) : Prop :=
  page < kv.numPages ∧ ∀ m, mask = some m → m.values page ≠ 0

/-- Where a program copies a region to: its page of 64 tokens. -/
def storeBase (pid : ℕ) : ℤ := 8 * toInt32 (pid * (bytesPerDstPagePadded / 8) : ℕ)

/-- Where it copies the region from: its part of its page. -/
def loadBase (stride ratio : ℕ) (r : Region) (pid : ℕ) : ℤ :=
  8 * (toInt32 (pid / ratio * (stride / 8) : ℕ) + match r with
    | .data => toInt32 (pid % ratio * (pbsDst * nopeRopeStride / 8) : ℕ)
    | .scale => toInt32 ((pbsDst * ratio * nopeRopeStride / 8 : ℕ) +
        toInt32 (pid % ratio * (pbsDst * scaleStride / 8) : ℕ)))

section

variable {kv : KvPages} {ratio : ℕ} {mask : Option (KeptBuffer ℤ)} {pid : ℕ}

/-- **What a program stores.** If its page is not left out, it copies its part of the page's rows,
region by region, from one base to the other. -/
theorem mem_pageSplitKernel {s : ℤ × UInt8} :
    s ∈ pageSplitKernel (pageSplitArgs kv (pbsDst * ratio) mask) pid ↔
      Copied kv mask (pid / ratio) ∧ ∃ (r : Region) (k : ℕ), k < pbsDst * footerWidth r ∧
        s = (storeBase pid + (footerBase pbsDst r + k : ℕ),
          kv.bytes (loadBase kv.stride ratio r pid + k)) := by
  have hratio : pbsDst * ratio / pbsDst = ratio := Nat.mul_div_cancel_left ratio (by decide)
  have hskip : ((mask.map KeptBuffer.values).any fun mask => mask (pid / ratio : ℕ) == 0) = true ↔
      ∃ m, mask = some m ∧ m.values (pid / ratio : ℕ) = 0 := by
    cases mask with
    | none => simp
    | some m => simp
  simp only [pageSplitKernel, pageSplitArgs, hratio, Nat.div_add_mod', hskip]
  by_cases hin : kv.numPages ≤ pid / ratio
  · rw [if_pos hin]
    exact iff_of_false List.not_mem_nil fun h => absurd h.1.1 (not_lt.mpr hin)
  by_cases hzero : ∃ m, mask = some m ∧ m.values (pid / ratio : ℕ) = 0
  · rw [if_neg hin, if_pos hzero]
    obtain ⟨m, hm, hzero⟩ := hzero
    exact iff_of_false List.not_mem_nil fun h => h.1.2 m hm hzero
  rw [if_neg hin, if_neg hzero, List.mem_append, mem_copyLanes (by decide),
    mem_copyLanes (by decide)]
  have hcopied : Copied kv mask (pid / ratio) :=
    ⟨not_le.mp hin, fun m hm h => hzero ⟨m, hm, h⟩⟩
  -- the scales start at a lane of the page
  have hscale : ∀ (z : ℤ) (k : ℕ), 8 * (z + (pbsDst * nopeRopeStride / 8 : ℕ)) + k =
      8 * z + (footerBase pbsDst .scale + k : ℕ) := by
    intro z k
    have hbase : 8 * (pbsDst * nopeRopeStride / 8) = footerBase pbsDst .scale := rfl
    rw [← hbase]
    push_cast
    ring
  have hdata : ∀ (z : ℤ) (k : ℕ), 8 * z + k = 8 * z + (footerBase pbsDst .data + k : ℕ) := by
    intro z k
    rw [footerBase, Nat.zero_add]
  constructor
  · rintro (⟨k, hk, rfl⟩ | ⟨k, hk, rfl⟩)
    · exact ⟨hcopied, .data, k, hk, Prod.ext (hdata _ k) rfl⟩
    · exact ⟨hcopied, .scale, k, hk, Prod.ext (hscale _ k) rfl⟩
  · rintro ⟨-, r, k, hk, rfl⟩
    cases r with
    | data => exact .inl ⟨k, hk, Prod.ext (hdata _ k).symm rfl⟩
    | scale => exact .inr ⟨k, hk, Prod.ext (hscale _ k).symm rfl⟩

end

/-! ## Offsets that are `int32`s -/

/-- The pages of 64 tokens that a page is copied to start at lanes that are `int32`s, and so does
the page itself. -/
structure PageFits (stride ratio page : ℕ) : Prop where
  /-- the last page of 64 tokens -/
  store : (page * ratio + (ratio - 1)) * bytesPerDstPagePadded < 2 ^ 34
  /-- the page -/
  load : page * stride < 2 ^ 34

section

variable {stride ratio pid : ℕ}

/-- A page of 64 tokens whose lane is an `int32` is stored where it belongs. -/
theorem storeBase_eq (h : pid * bytesPerDstPagePadded < 2 ^ 34) :
    storeBase pid = (pid * bytesPerDstPagePadded : ℕ) := by
  have hlane : 8 * (pid * (bytesPerDstPagePadded / 8)) = pid * bytesPerDstPagePadded := by
    rw [Nat.mul_left_comm, Nat.mul_div_cancel' (by decide)]
  rw [← hlane] at h
  have hlt : pid * (bytesPerDstPagePadded / 8) < 2 ^ 31 :=
    Nat.lt_of_mul_lt_mul_left (a := 8) (h.trans_eq (by norm_num))
  rw [storeBase, toInt32_natCast hlt, ← hlane]
  exact (Nat.cast_mul 8 _).symm

/-- The parts of a page that fits are stored where they belong. -/
theorem PageFits.storeBase_eq (hratio : 0 < ratio) (h : PageFits stride ratio (pid / ratio)) :
    storeBase pid = (pid * bytesPerDstPagePadded : ℕ) := by
  have hdiv := Nat.div_add_mod' pid ratio
  have hmod := Nat.mod_lt pid hratio
  refine LuzServing.storeBase_eq (lt_of_le_of_lt (Nat.mul_le_mul_right _ ?_) h.store)
  omega

/-- A page does not have more parts than pages of 64 tokens start at lanes that are `int32`s. -/
theorem parts_le {page : ℕ}
    (h : (page * ratio + (ratio - 1)) * bytesPerDstPagePadded < 2 ^ 34) : ratio - 1 ≤ 458864 := by
  have hparts := (Nat.mul_le_mul_right bytesPerDstPagePadded
    (Nat.le_add_left (ratio - 1) (page * ratio))).trans_lt h
  by_contra hmany
  have hmul := Nat.mul_le_mul_right bytesPerDstPagePadded (not_le.mp hmany)
  exact absurd (hmul.trans_lt hparts) (by decide)

/-- Where a page fits, its parts are loaded from their places in the source page, without
wrapping. -/
theorem PageFits.loadBase_eq (hratio : 0 < ratio) (hlane : 8 ∣ stride)
    (h : PageFits stride ratio (pid / ratio)) (r : Region) : loadBase stride ratio r pid =
      (pid / ratio * stride + (footerBase (pbsDst * ratio) r +
        pid % ratio * (pbsDst * footerWidth r)) : ℕ) := by
  obtain ⟨lanes, rfl⟩ := hlane
  have hmod := Nat.mod_lt pid hratio
  have hload := h.load
  have hparts := parts_le h.store
  have hpage : pid / ratio * (8 * lanes / 8) < 2 ^ 31 := by
    rw [Nat.mul_div_cancel_left _ (by decide)]
    rw [Nat.mul_left_comm] at hload
    omega
  rw [loadBase.eq_def, toInt32_natCast hpage, Nat.mul_div_cancel_left _ (by decide)]
  have hbytes : pid / ratio * (8 * lanes) = 8 * (pid / ratio * lanes) := by ring
  rw [hbytes]
  generalize pid / ratio * lanes = base
  generalize pid % ratio = sub at hmod ⊢
  simp only [pbsDst, nopeRopeStride, scaleStride, footerBase, footerWidth]
  cases r with
  | data =>
    dsimp only
    rw [toInt32_natCast (by omega)]
    omega
  | scale =>
    dsimp only
    rw [toInt32_natCast (n := sub * (64 * 8 / 8)) (by omega), ← Nat.cast_add,
      toInt32_natCast (by omega)]
    omega

/-- A page that is loaded from where it is starts at a lane that is an `int32`. -/
theorem page_lt_of_loadBase (hratio : 0 < ratio) (hlane : 8 ∣ stride) (hparts : ratio - 1 ≤ 458864)
    (h : loadBase stride ratio .data pid = (pid / ratio * stride +
      (footerBase (pbsDst * ratio) .data + pid % ratio * (pbsDst * footerWidth .data)) : ℕ)) :
    pid / ratio * stride < 2 ^ 34 := by
  obtain ⟨lanes, rfl⟩ := hlane
  have hmod := Nat.mod_lt pid hratio
  have hbytes : pid / ratio * (8 * lanes) = 8 * (pid / ratio * lanes) := by ring
  rw [loadBase.eq_def, Nat.mul_div_cancel_left _ (by decide), hbytes] at h
  rw [hbytes]
  generalize pid / ratio * lanes = base at h ⊢
  generalize pid % ratio = sub at hmod h
  simp only [pbsDst, nopeRopeStride, footerBase, footerWidth] at h
  rw [toInt32_natCast (n := sub * (64 * 576 / 8)) (by omega)] at h
  have hself : toInt32 base = base := by omega
  have hlt := (toInt32_range base).2
  omega

end

/-! ## What a split leaves -/

/-- A byte of the view has one place: a page, a region and a byte of the region. -/
theorem subByte_inj {pid pid' : ℕ} {r r' : Region} {k k' : ℕ} (hk : k < pbsDst * footerWidth r)
    (hk' : k' < pbsDst * footerWidth r')
    (h : pid * bytesPerDstPagePadded + (footerBase pbsDst r + k) =
      pid' * bytesPerDstPagePadded + (footerBase pbsDst r' + k')) :
    pid = pid' ∧ r = r' ∧ k = k' := by
  have hpadded : bytesPerDstPagePadded = 37440 := rfl
  have hbase : footerBase pbsDst .data = 0 ∧ footerBase pbsDst .scale = 36864 := ⟨rfl, rfl⟩
  have hwidth : pbsDst * footerWidth .data = 36864 ∧ pbsDst * footerWidth .scale = 512 :=
    ⟨rfl, rfl⟩
  rw [hpadded] at h
  cases r with
  | data =>
    cases r' with
    | data => exact ⟨by omega, rfl, by omega⟩
    | scale => omega
  | scale =>
    cases r' with
    | data => omega
    | scale => exact ⟨by omega, rfl, by omega⟩

/-- A byte of a region of a part lies within the page of 64 tokens that the part becomes. -/
theorem subByte_lt {r : Region} {k : ℕ} (hk : k < pbsDst * footerWidth r) :
    footerBase pbsDst r + k < bytesPerDstPage := by
  have hpage : bytesPerDstPage = 37376 := rfl
  cases r with
  | data =>
    have hk : k < 36864 := hk
    have hbase : footerBase pbsDst .data = 0 := rfl
    omega
  | scale =>
    have hk : k < 512 := hk
    have hbase : footerBase pbsDst .scale = 36864 := rfl
    omega

/-- A token's bytes in a larger page are those of its part of the page. -/
theorem footerByte_subpage (stride ratio : ℕ) (r : Region) (t i : ℕ) :
    t / pbsDst / ratio * stride + (footerBase (pbsDst * ratio) r +
        t / pbsDst % ratio * (pbsDst * footerWidth r)) + (t % pbsDst * footerWidth r + i) =
      footerByte stride (pbsDst * ratio) r t i := by
  have hslot : t / pbsDst % ratio * (pbsDst * footerWidth r) + t % pbsDst * footerWidth r =
      t % (pbsDst * ratio) * footerWidth r := by
    rw [Nat.mod_mul, Nat.add_mul]
    ring
  rw [footerByte, Nat.div_div_eq_div_mul, ← hslot]
  ring

section Copies

variable {order : Interleaving (ℤ × UInt8)} {kv : KvPages} {ratio : ℕ}
  {mask : Option (KeptBuffer ℤ)} {m : ℤ → UInt8}

/-- **A token of a copied page** is at the page and slot of the same index, when the copied pages
are stored where they belong: it has the byte that its program loads. -/
theorem pageSplit_token (hratio : 0 < ratio)
    (hstore : ∀ pid, Copied kv mask (pid / ratio) →
      storeBase pid = (pid * bytesPerDstPagePadded : ℕ)) {t : ℕ}
    (hcopied : Copied kv mask (t / (pbsDst * ratio))) (r : Region) {i : ℕ}
    (hi : i < footerWidth r) :
    runGrid order (kv.numPages * ratio) (pageSplitKernel (pageSplitArgs kv (pbsDst * ratio) mask)) m
        (footerByte bytesPerDstPagePadded pbsDst r t i) =
      kv.bytes (loadBase kv.stride ratio r (t / pbsDst) +
        (t % pbsDst * footerWidth r + i : ℕ)) := by
  have hk : t % pbsDst * footerWidth r + i < pbsDst * footerWidth r := by
    have hslot : t % pbsDst + 1 ≤ pbsDst := Nat.mod_lt t (by decide)
    have hrow := Nat.mul_le_mul_right (footerWidth r) hslot
    rw [Nat.succ_mul] at hrow
    omega
  rw [← Nat.div_div_eq_div_mul] at hcopied
  refine runGrid_eq (fun pid _ s hs ha => ?_) ⟨t / pbsDst, ?_, _,
    mem_pageSplitKernel.mpr ⟨hcopied, r, _, hk, rfl⟩, ?_⟩
  · obtain ⟨hpage, r', k, hk', rfl⟩ := mem_pageSplitKernel.mp hs
    dsimp only at ha
    rw [hstore pid hpage, ← Nat.cast_add, Nat.cast_inj] at ha
    obtain ⟨rfl, rfl, rfl⟩ := subByte_inj hk' hk ha
    rfl
  · exact (Nat.div_lt_iff_lt_mul hratio).mp hcopied.1
  · rw [hstore _ hcopied, ← Nat.cast_add]
    rfl

/-- The bytes of a page of the view. -/
def viewPage (page : ℕ) : Set ℤ :=
  Set.Ico (page * bytesPerDstPagePadded : ℕ) ((page + 1) * bytesPerDstPagePadded : ℕ)

/-- **A byte of no copied page's parts** keeps the value that it had before the kernel ran. -/
theorem pageSplit_of_notMem
    (hstore : ∀ pid, Copied kv mask (pid / ratio) →
      storeBase pid = (pid * bytesPerDstPagePadded : ℕ)) {a : ℤ}
    (ha : ∀ page, Copied kv mask page → ∀ sub, sub < ratio → a ∉ viewPage (page * ratio + sub)) :
    runGrid order (kv.numPages * ratio) (pageSplitKernel (pageSplitArgs kv (pbsDst * ratio) mask)) m
      a = m a := by
  refine runGrid_of_ne fun pid hpid s hs hsa => ?_
  obtain ⟨hcopied, r, k, hk, rfl⟩ := mem_pageSplitKernel.mp hs
  have hratio : 0 < ratio := Nat.pos_of_ne_zero fun h => by
    rw [h, Nat.mul_zero] at hpid
    exact Nat.not_lt_zero _ hpid
  refine ha (pid / ratio) hcopied (pid % ratio) (Nat.mod_lt pid hratio) ?_
  have hend : footerBase pbsDst r + k < bytesPerDstPagePadded :=
    (subByte_lt hk).trans (by decide)
  dsimp only at hsa
  rw [hstore pid hcopied, ← Nat.cast_add] at hsa
  rw [Nat.div_add_mod', viewPage, Set.mem_Ico, Nat.succ_mul, ← hsa, Nat.cast_le, Nat.cast_lt]
  omega

/-! ## What it leaves from 2 ^ 34 bytes on -/

/-- The first page of 64 tokens that starts 2 ^ 34 bytes into the view or later. -/
def firstFar : ℕ := 458865

theorem firstFar_le {pid : ℕ} (h : 2 ^ 34 ≤ pid * bytesPerDstPagePadded) : firstFar ≤ pid := by
  refine Nat.lt_of_mul_lt_mul_right (a := bytesPerDstPagePadded) ?_
  exact lt_of_lt_of_le (by decide) h

/-- No program stores as far away as the scales of a token whose page of 64 tokens starts there. -/
theorem pageSplit_unreached {t : ℕ} (h : 2 ^ 34 ≤ t / pbsDst * bytesPerDstPagePadded) :
    runGrid order (kv.numPages * ratio) (pageSplitKernel (pageSplitArgs kv (pbsDst * ratio) mask)) m
        (footerByte bytesPerDstPagePadded pbsDst .scale t 0) =
      m (footerByte bytesPerDstPagePadded pbsDst .scale t 0) := by
  refine runGrid_of_ne fun pid _ s hs hsa => ?_
  obtain ⟨-, r, k, hk, rfl⟩ := mem_pageSplitKernel.mp hs
  have hend : footerBase pbsDst r + k < 37376 := subByte_lt hk
  have hbase := (toInt32_range (pid * (bytesPerDstPagePadded / 8) : ℕ)).2
  have hfar : firstFar * bytesPerDstPagePadded + footerBase pbsDst .scale ≤
      footerByte bytesPerDstPagePadded pbsDst .scale t 0 :=
    Nat.add_le_add (Nat.mul_le_mul_right _ (firstFar_le h)) (Nat.le_add_right ..)
  have hsum : firstFar * bytesPerDstPagePadded + footerBase pbsDst .scale = 17179942464 := rfl
  rw [hsum] at hfar
  dsimp only [storeBase] at hsa
  have hend : ((footerBase pbsDst r + k : ℕ) : ℤ) < 37376 := by exact_mod_cast hend
  have hfar : (17179942464 : ℤ) ≤ footerByte bytesPerDstPagePadded pbsDst .scale t 0 := by
    exact_mod_cast hfar
  norm_num only at hbase
  linarith

/-- The program of the first page of 64 tokens that starts there stores before the view. -/
theorem storeBase_firstFar : storeBase firstFar < 0 := by decide +kernel

/-- So it does store before the view, when its page is copied. -/
theorem pageSplit_before {page : ℕ} (hcopied : Copied kv mask page) (hlo : page * ratio ≤ firstFar)
    (hhi : firstFar < page * ratio + ratio) (hones : ∀ a, kv.bytes a = 1) :
    runGrid order (kv.numPages * ratio) (pageSplitKernel (pageSplitArgs kv (pbsDst * ratio) mask)) m
      (storeBase firstFar) = 1 := by
  have hratio : 0 < ratio := by omega
  have hpage : firstFar / ratio = page := Nat.div_eq_of_lt_le hlo (by rwa [Nat.succ_mul])
  refine runGrid_eq (fun pid _ s hs _ => ?_) ⟨firstFar, ?_, _,
    mem_pageSplitKernel.mpr ⟨hpage.symm ▸ hcopied, .data, 0, by decide, rfl⟩, ?_⟩
  · obtain ⟨-, r, k, -, rfl⟩ := mem_pageSplitKernel.mp hs
    exact hones _
  · refine (Nat.div_lt_iff_lt_mul hratio).mp ?_
    rw [hpage]
    exact hcopied.1
  · exact add_zero _

end Copies

/-! ## The split of a step -/

/-- The tokens that are asked for: those of the indices, or all of the pool when none are given. -/
def Asked (touchedIndices : Option (List ℤ)) (tokens t : ℕ) : Prop :=
  if useMask touchedIndices = true then (t : ℤ) ∈ touchedIndices.getD [] else t < tokens

instance (touchedIndices : Option (List ℤ)) (tokens t : ℕ) :
    Decidable (Asked touchedIndices tokens t) := inferInstanceAs (Decidable (ite _ _ _))

/-- The mask of a call. -/
def splitMask (run : SplitRun) (buffers : SplitBuffers) (kv : KvPages) (srcPbs : ℕ)
    (touchedIndices : Option (List ℤ)) : Option (KeptBuffer ℤ) :=
  if useMask touchedIndices then
    some (markPages run (KeptBuffer.grow buffers.mask kv.numPages run.maskMemory) kv.numPages
      srcPbs (touchedIndices.getD []))
  else none

/-- The indices are of the pool, or negative `int32`s. -/
def IndicesOf (touchedIndices : Option (List ℤ)) (tokens : ℕ) : Prop :=
  ∀ t ∈ touchedIndices.getD [], -2 ^ 31 ≤ t ∧ t < tokens

section Split

variable {run : SplitRun} {buffers : SplitBuffers} {kv : KvPages} {srcPbs : ℕ}
  {touchedIndices : Option (List ℤ)}

/-- The page of a token that is asked for is copied, if its index is an `int32`. -/
theorem copied_of_asked (run : SplitRun) (buffers : SplitBuffers) (hpos : 0 < srcPbs)
    (htouched : IndicesOf touchedIndices (kv.numPages * srcPbs)) {t : ℕ}
    (ht : Asked touchedIndices (kv.numPages * srcPbs) t) (hint : t < 2 ^ 31) :
    Copied kv (splitMask run buffers kv srcPbs touchedIndices) (t / srcPbs) := by
  rw [Asked] at ht
  by_cases hmask : useMask touchedIndices = true
  · rw [if_pos hmask] at ht
    have hlt : t < kv.numPages * srcPbs := by exact_mod_cast (htouched t ht).2
    have hpage : t / srcPbs < kv.numPages := (Nat.div_lt_iff_lt_mul hpos).mpr hlt
    rw [splitMask, if_pos hmask]
    refine ⟨hpage, fun m hm => ?_⟩
    obtain rfl := Option.some.inj hm
    refine (markPages_ne_zero hpage).mpr ⟨t, List.mem_map.mpr ⟨t, ht, toInt32_natCast hint⟩, rfl⟩
  · rw [if_neg hmask] at ht
    rw [splitMask, if_neg hmask]
    refine ⟨(Nat.div_lt_iff_lt_mul hpos).mpr ht, fun m hm => ?_⟩
    cases hm

/-- The pages that are copied are those of the tokens that are asked for, if their indices are
`int32`s. -/
theorem asked_of_copied (hpos : 0 < srcPbs)
    (htouched : IndicesOf touchedIndices (kv.numPages * srcPbs))
    (hint : ∀ t, Asked touchedIndices (kv.numPages * srcPbs) t → t < 2 ^ 31) {page : ℕ}
    (hcopied : Copied kv (splitMask run buffers kv srcPbs touchedIndices) page) :
    ∃ t, Asked touchedIndices (kv.numPages * srcPbs) t ∧ t / srcPbs = page := by
  by_cases hmask : useMask touchedIndices = true
  · simp only [Asked, if_pos hmask] at hint ⊢
    rw [splitMask, if_pos hmask] at hcopied
    obtain ⟨t, ht, hpage⟩ := (markPages_ne_zero hcopied.1).mp (hcopied.2 _ rfl)
    obtain ⟨z, hz, heq⟩ := List.mem_map.mp ht
    -- the index is its own conversion
    have hself : toInt32 z = z := by
      refine toInt32_eq_self.mpr ⟨(htouched z hz).1, ?_⟩
      rcases lt_or_ge z 0 with hneg | hnonneg
      · exact hneg.trans (by norm_num)
      · obtain ⟨u, rfl⟩ := Int.eq_ofNat_of_zero_le hnonneg
        exact_mod_cast hint u hz
    refine ⟨t, ?_, hpage⟩
    rw [← heq, hself]
    exact hz
  · refine ⟨page * srcPbs, ?_, Nat.mul_div_cancel page hpos⟩
    rw [Asked, if_neg hmask]
    exact Nat.mul_lt_mul_of_pos_right hcopied.1 hpos

end Split

/-- **What is asked of the split**: it returns pages of 64 tokens in which every token that is asked
for has its rows, byte by byte, at the page and slot of the same index, and it writes no byte
outside of the parts of the pages of these tokens. -/
def SplitRight (run : SplitRun) (buffers : SplitBuffers) (kv : KvPages) (srcPbs : ℕ)
    (touchedIndices : Option (List ℤ)) : Prop :=
  ∃ view buffers',
    splitKvPagesTo64 run buffers kv srcPbs touchedIndices = some (view, buffers') ∧
    view.numPages = kv.numPages * (srcPbs / pbsDst) ∧
    (∀ t, Asked touchedIndices (kv.numPages * srcPbs) t → ∀ r i, i < footerWidth r →
      view.bytes (footerByte view.stride pbsDst r t i) =
        kv.bytes (footerByte kv.stride srcPbs r t i)) ∧
    ((srcPbs = pbsDst ∧ view = kv ∧ buffers' = buffers) ∨
      (srcPbs ≠ pbsDst ∧ view.stride = bytesPerDstPagePadded ∧
        buffers'.out.map KeptBuffer.values = some view.bytes ∧
        ∀ a, (∀ t, Asked touchedIndices (kv.numPages * srcPbs) t →
            ∀ sub, sub < srcPbs / pbsDst →
              a ∉ viewPage (t / srcPbs * (srcPbs / pbsDst) + sub)) →
          view.bytes a =
            (KeptBuffer.grow buffers.out view.numPages run.outMemory).values a))

/-- A pool whose pages have 64 tokens is returned as it is, which is right. -/
theorem splitRight_same (run : SplitRun) (buffers : SplitBuffers) (kv : KvPages)
    (touchedIndices : Option (List ℤ)) : SplitRight run buffers kv pbsDst touchedIndices := by
  refine ⟨kv, buffers, ?_, (Nat.mul_one _).symm, fun _ _ _ _ _ => rfl, .inl ⟨rfl, rfl, rfl⟩⟩
  rw [splitKvPagesTo64, if_neg (not_not_intro ⟨by decide, le_rfl⟩), if_pos rfl]

section Larger

variable {run : SplitRun} {buffers : SplitBuffers} {kv : KvPages} {ratio : ℕ}
  {touchedIndices : Option (List ℤ)}

/-- What is left in the buffer of the view. -/
def splitOut (run : SplitRun) (buffers : SplitBuffers) (kv : KvPages) (ratio : ℕ)
    (touchedIndices : Option (List ℤ)) : ℤ → UInt8 :=
  runGrid run.splitOrder (kv.numPages * ratio) (pageSplitKernel (pageSplitArgs kv (pbsDst * ratio)
      (splitMask run buffers kv (pbsDst * ratio) touchedIndices)))
    (KeptBuffer.grow buffers.out (kv.numPages * ratio) run.outMemory).values

/-- A pool of larger pages is split by running the kernel over its pages into the buffer of the
call. -/
theorem splitKvPagesTo64_eq (run : SplitRun) (buffers : SplitBuffers)
    (touchedIndices : Option (List ℤ)) (hratio : 1 < ratio) (hlane : 8 ∣ kv.stride) :
    ∃ buffers', splitKvPagesTo64 run buffers kv (pbsDst * ratio) touchedIndices =
        some (⟨kv.numPages * ratio, bytesPerDstPagePadded,
          splitOut run buffers kv ratio touchedIndices⟩, buffers') ∧
      buffers'.out.map KeptBuffer.values = some (splitOut run buffers kv ratio touchedIndices) := by
  have hdiv : pbsDst * ratio / pbsDst = ratio := Nat.mul_div_cancel_left ratio (by decide)
  have hsize : pbsDst * ratio % pbsDst = 0 ∧ pbsDst ≤ pbsDst * ratio :=
    ⟨Nat.mul_mod_right pbsDst ratio, Nat.le_mul_of_pos_right pbsDst (by omega)⟩
  have hne : pbsDst * ratio ≠ pbsDst := (lt_mul_of_one_lt_right (by decide) hratio).ne'
  have hlanes : kv.stride % 8 = 0 ∧ bytesPerDstPagePadded % 8 = 0 :=
    ⟨Nat.mod_eq_zero_of_dvd hlane, by decide⟩
  rw [splitKvPagesTo64, if_neg (not_not_intro hsize), if_neg hne]
  dsimp only
  rw [if_neg (not_not_intro hlanes), hdiv]
  exact ⟨_, rfl, rfl⟩

/-- The split is right when what is left in the buffer is. -/
theorem splitRight_iff (hratio : 1 < ratio) (hlane : 8 ∣ kv.stride) :
    SplitRight run buffers kv (pbsDst * ratio) touchedIndices ↔
      (∀ t, Asked touchedIndices (kv.numPages * (pbsDst * ratio)) t → ∀ r i, i < footerWidth r →
        splitOut run buffers kv ratio touchedIndices
            (footerByte bytesPerDstPagePadded pbsDst r t i) =
          kv.bytes (footerByte kv.stride (pbsDst * ratio) r t i)) ∧
      ∀ a, (∀ t, Asked touchedIndices (kv.numPages * (pbsDst * ratio)) t → ∀ sub, sub < ratio →
          a ∉ viewPage (t / (pbsDst * ratio) * ratio + sub)) →
        splitOut run buffers kv ratio touchedIndices a =
          (KeptBuffer.grow buffers.out (kv.numPages * ratio) run.outMemory).values a := by
  obtain ⟨buffers', hsplit, hout⟩ :=
    splitKvPagesTo64_eq run buffers touchedIndices hratio hlane
  have hdiv : pbsDst * ratio / pbsDst = ratio := Nat.mul_div_cancel_left ratio (by decide)
  have hne : pbsDst * ratio ≠ pbsDst := (lt_mul_of_one_lt_right (by decide) hratio).ne'
  constructor
  · rintro ⟨view, buffers'', heq, -, htokens, hrest⟩
    rw [hsplit] at heq
    obtain ⟨rfl, rfl⟩ := Prod.mk.inj (Option.some.inj heq)
    rcases hrest with ⟨h, -⟩ | ⟨-, -, -, hrest⟩
    · exact absurd h hne
    · rw [hdiv] at hrest
      exact ⟨htokens, hrest⟩
  · rintro ⟨htokens, hrest⟩
    refine ⟨_, buffers', hsplit, by rw [hdiv], htokens, .inr ⟨hne, rfl, hout, ?_⟩⟩
    rw [hdiv]
    exact hrest

/-- A token whose page of 64 tokens starts before 2 ^ 34 has an `int32` as index. -/
theorem token_lt {t : ℕ} (h : t / pbsDst * bytesPerDstPagePadded < 2 ^ 34) : t < 2 ^ 31 := by
  by_contra hlt
  have hpage : 2 ^ 31 / pbsDst ≤ t / pbsDst := Nat.div_le_div_right (not_lt.mp hlt)
  have hmul := Nat.mul_le_mul_right bytesPerDstPagePadded hpage
  exact absurd (hmul.trans_lt h) (by decide)

/-- The page of 64 tokens of a token is one of its page's. -/
theorem div_pbsDst_lt (hratio : 0 < ratio) (t : ℕ) :
    t / (pbsDst * ratio) * ratio ≤ t / pbsDst ∧
      t / pbsDst ≤ t / (pbsDst * ratio) * ratio + (ratio - 1) := by
  have hdiv := Nat.div_add_mod' (t / pbsDst) ratio
  have hmod := Nat.mod_lt (t / pbsDst) hratio
  rw [Nat.div_div_eq_div_mul] at hdiv
  omega

/-- A token of a page that fits has an `int32` as index. -/
theorem PageFits.token_lt {stride t : ℕ} (hratio : 0 < ratio)
    (h : PageFits stride ratio (t / (pbsDst * ratio))) : t < 2 ^ 31 :=
  LuzServing.token_lt ((Nat.mul_le_mul_right _ (div_pbsDst_lt hratio t).2).trans_lt h.store)

/-- **The split is right where the copied pages fit**, whatever the order of the programs. -/
theorem splitRight_of_fits (kv : KvPages) (hratio : 1 < ratio) (hlane : 8 ∣ kv.stride)
    (htouched : IndicesOf touchedIndices (kv.numPages * (pbsDst * ratio)))
    (hfits : ∀ t, Asked touchedIndices (kv.numPages * (pbsDst * ratio)) t →
      PageFits kv.stride ratio (t / (pbsDst * ratio))) :
    SplitRight run buffers kv (pbsDst * ratio) touchedIndices := by
  have hpos : 0 < ratio := Nat.zero_lt_of_lt hratio
  have hsrc : 0 < pbsDst * ratio := Nat.mul_pos (by decide) hpos
  have hpage : ∀ page,
      Copied kv (splitMask run buffers kv (pbsDst * ratio) touchedIndices) page →
        PageFits kv.stride ratio page := by
    intro page hcopied
    obtain ⟨t, ht, rfl⟩ := asked_of_copied hsrc htouched
      (fun t ht => (hfits t ht).token_lt hpos) hcopied
    exact hfits t ht
  have hstore := fun pid hcopied => (hpage (pid / ratio) hcopied).storeBase_eq hpos
  refine (splitRight_iff hratio hlane).mpr ⟨fun t ht r i hi => ?_, fun a ha => ?_⟩
  · have hfit := hfits t ht
    have hcopied := copied_of_asked run buffers hsrc htouched ht (hfit.token_lt hpos)
    rw [splitOut, pageSplit_token hpos hstore hcopied r hi]
    rw [← Nat.div_div_eq_div_mul] at hfit
    rw [hfit.loadBase_eq hpos hlane, ← Nat.cast_add, footerByte_subpage]
  · refine pageSplit_of_notMem hstore fun page hcopied sub hsub => ?_
    obtain ⟨t, ht, rfl⟩ := asked_of_copied hsrc htouched
      (fun t ht => (hfits t ht).token_lt hpos) hcopied
    exact ha t ht sub hsub

end Larger

/-! ## And only there -/

/-- A call with new buffers, of zeros, and the programs one after the other. -/
def zeroRun : SplitRun := ⟨fun _ => 0, fun _ => 0, .inOrder _, .inOrder _⟩

/-- Where no buffer is kept, the view is of new memory. -/
theorem grow_zeroRun (rows : ℕ) (a : ℤ) :
    (KeptBuffer.grow none rows zeroRun.outMemory).values a = 0 := rfl

section Only

variable {numPages stride ratio t : ℕ} {touchedIndices : Option (List ℤ)}

/-- The scales of a token whose page of 64 tokens starts 2 ^ 34 bytes into the view or later are
not stored, so the split is not right for it. -/
theorem not_splitRight_far (hratio : 1 < ratio) (hlane : 8 ∣ stride)
    (ht : Asked touchedIndices (numPages * (pbsDst * ratio)) t)
    (hfar : 2 ^ 34 ≤ t / pbsDst * bytesPerDstPagePadded) :
    ¬SplitRight zeroRun ⟨none, none⟩ ⟨numPages, stride, fun _ => 1⟩ (pbsDst * ratio)
      touchedIndices := by
  intro hright
  have htoken := ((splitRight_iff hratio hlane).mp hright).1 t ht .scale 0 (by decide)
  rw [splitOut, pageSplit_unreached hfar, grow_zeroRun] at htoken
  exact absurd htoken (show (0 : UInt8) ≠ 1 by decide)

/-- A page that ends there is stored in part before the view. -/
theorem not_splitRight_across (hratio : 1 < ratio) (hlane : 8 ∣ stride)
    (htouched : IndicesOf touchedIndices (numPages * (pbsDst * ratio)))
    (ht : Asked touchedIndices (numPages * (pbsDst * ratio)) t)
    (hnear : t / pbsDst * bytesPerDstPagePadded < 2 ^ 34)
    (hend : 2 ^ 34 ≤ (t / (pbsDst * ratio) * ratio + (ratio - 1)) * bytesPerDstPagePadded) :
    ¬SplitRight zeroRun ⟨none, none⟩ ⟨numPages, stride, fun _ => 1⟩ (pbsDst * ratio)
      touchedIndices := by
  intro hright
  have hpos : 0 < ratio := Nat.zero_lt_of_lt hratio
  set kv : KvPages := ⟨numPages, stride, fun _ => 1⟩
  have hcopied : Copied kv _ _ := copied_of_asked zeroRun ⟨none, none⟩
    (Nat.mul_pos (by decide) hpos) htouched ht (token_lt hnear)
  have hlo : t / pbsDst < firstFar := by
    by_contra hle
    have hmul := Nat.mul_le_mul_right bytesPerDstPagePadded (not_lt.mp hle)
    exact absurd (hmul.trans_lt hnear) (by decide)
  have hhi := firstFar_le hend
  have hbounds := div_pbsDst_lt hpos t
  have hbefore := ((splitRight_iff hratio hlane).mp hright).2 (storeBase firstFar) ?_
  · rw [splitOut, pageSplit_before hcopied (by omega) (by omega) fun _ => rfl, grow_zeroRun]
      at hbefore
    exact absurd hbefore (by decide)
  · intro t' _ sub _ hmem
    rw [viewPage, Set.mem_Ico] at hmem
    exact absurd (storeBase_firstFar.trans_le (Int.natCast_nonneg _)) (not_lt.mpr hmem.1)

/-- A page that starts 2 ^ 34 bytes into the pool or later is loaded from elsewhere. -/
theorem not_splitRight_load (hratio : 1 < ratio) (hlane : 8 ∣ stride)
    (htouched : IndicesOf touchedIndices (numPages * (pbsDst * ratio)))
    (hstores : ∀ t, Asked touchedIndices (numPages * (pbsDst * ratio)) t →
      (t / (pbsDst * ratio) * ratio + (ratio - 1)) * bytesPerDstPagePadded < 2 ^ 34)
    (ht : Asked touchedIndices (numPages * (pbsDst * ratio)) t)
    (hfar : 2 ^ 34 ≤ t / (pbsDst * ratio) * stride) :
    ¬SplitRight zeroRun ⟨none, none⟩ ⟨numPages, stride, fun a =>
      if a = footerByte stride (pbsDst * ratio) .data t 0 then 1 else 0⟩ (pbsDst * ratio)
        touchedIndices := by
  intro hright
  have hpos : 0 < ratio := Nat.zero_lt_of_lt hratio
  have hsrc : 0 < pbsDst * ratio := Nat.mul_pos (by decide) hpos
  have hint : ∀ t, Asked touchedIndices (numPages * (pbsDst * ratio)) t → t < 2 ^ 31 :=
    fun t ht => token_lt
      ((Nat.mul_le_mul_right _ (div_pbsDst_lt hpos t).2).trans_lt (hstores t ht))
  generalize hE : footerByte stride (pbsDst * ratio) .data t 0 = place at hright
  set kv : KvPages := ⟨numPages, stride, fun a => if a = place then 1 else 0⟩
  have hstore : ∀ pid, Copied kv
      (splitMask zeroRun ⟨none, none⟩ kv (pbsDst * ratio) touchedIndices) (pid / ratio) →
      storeBase pid = (pid * bytesPerDstPagePadded : ℕ) := by
    intro pid hcopied
    obtain ⟨u, hu, hpage⟩ := asked_of_copied hsrc htouched hint hcopied
    have hfit := hstores u hu
    rw [hpage] at hfit
    have hdiv := Nat.div_add_mod' pid ratio
    have hmod := Nat.mod_lt pid hpos
    exact storeBase_eq ((Nat.mul_le_mul_right _ (by omega)).trans_lt hfit)
  have htoken := ((splitRight_iff hratio hlane).mp hright).1 t ht .data 0 (by decide)
  have hcopied : Copied kv _ _ :=
    copied_of_asked zeroRun ⟨none, none⟩ hsrc htouched ht (hint t ht)
  rw [splitOut, pageSplit_token hpos hstore hcopied .data (by decide)] at htoken
  -- the byte that is loaded is the only one that is not zero
  have hbytes : ∀ a, kv.bytes a = if a = place then 1 else 0 := fun _ => rfl
  rw [hbytes (footerByte stride (pbsDst * ratio) .data t 0), if_pos (by rw [hE])] at htoken
  have hload : loadBase stride ratio .data (t / pbsDst) +
      (t % pbsDst * footerWidth .data + 0 : ℕ) = place := by
    by_contra hne
    rw [hbytes, if_neg hne] at htoken
    exact absurd htoken (show (0 : UInt8) ≠ 1 by decide)
  rw [← hE, ← footerByte_subpage, Nat.cast_add _ (t % pbsDst * footerWidth .data + 0)] at hload
  -- so the product has not wrapped
  have hlt := page_lt_of_loadBase hpos hlane (parts_le (hstores t ht)) (add_right_cancel hload)
  rw [Nat.div_div_eq_div_mul] at hlt
  exact absurd hlt (not_lt.mpr hfar)

end Only

/-- **The split of the pages.** For every number of pages, page size that is a multiple of 64, page
stride that is a multiple of 8 and indices of the pool's tokens, negative ones among them: the split
is right for every pool of that form, content of the buffers that are kept and of new memory, and
order of the programs' stores, exactly if the pages have 64 tokens, so that nothing is copied, or
every page that holds a token that is asked for starts before 2 ^ 34 bytes of the pool, and the last
page of 64 tokens that it is copied to before 2 ^ 34 bytes of the view. -/
theorem split_kv_pages_to_64_iff (numPages stride : ℕ) {srcPbs : ℕ} (hmul : pbsDst ∣ srcPbs)
    (hpos : 0 < srcPbs) (hlane : 8 ∣ stride) (touchedIndices : Option (List ℤ))
    (htouched : IndicesOf touchedIndices (numPages * srcPbs)) :
    (∀ run buffers bytes,
        SplitRight run buffers ⟨numPages, stride, bytes⟩ srcPbs touchedIndices) ↔
      srcPbs = pbsDst ∨ ∀ t, Asked touchedIndices (numPages * srcPbs) t →
        t / srcPbs * stride < 2 ^ 34 ∧
          (t / srcPbs * (srcPbs / pbsDst) + (srcPbs / pbsDst - 1)) * bytesPerDstPagePadded <
            2 ^ 34 := by
  obtain ⟨ratio, rfl⟩ := hmul
  have hratioPos : 0 < ratio := Nat.pos_of_mul_pos_left hpos
  rcases Nat.eq_or_lt_of_le (Nat.succ_le_of_lt hratioPos) with rfl | hratio
  · exact iff_of_true (fun run buffers bytes => splitRight_same run buffers _ _) (.inl rfl)
  have hne : pbsDst * ratio ≠ pbsDst := (lt_mul_of_one_lt_right (by decide) hratio).ne'
  rw [Nat.mul_div_cancel_left ratio (by decide), or_iff_right hne]
  constructor
  · intro hright
    have hstores : ∀ t, Asked touchedIndices (numPages * (pbsDst * ratio)) t →
        (t / (pbsDst * ratio) * ratio + (ratio - 1)) * bytesPerDstPagePadded < 2 ^ 34 := by
      intro t ht
      by_contra hend
      rcases lt_or_ge (t / pbsDst * bytesPerDstPagePadded) (2 ^ 34) with hnear | hfar
      · exact not_splitRight_across hratio hlane htouched ht hnear (not_lt.mp hend) (hright _ _ _)
      · exact not_splitRight_far hratio hlane ht hfar (hright _ _ _)
    refine fun t ht => ⟨?_, hstores t ht⟩
    by_contra hfar
    exact not_splitRight_load hratio hlane htouched hstores ht (not_lt.mp hfar) (hright _ _ _)
  · intro hfits run buffers bytes
    exact splitRight_of_fits ⟨numPages, stride, bytes⟩ hratio hlane htouched
      fun t ht => ⟨(hfits t ht).2, (hfits t ht).1⟩

/-- Two pages of 256 tokens, of which token 300 is asked for, beside an index that is not valid. -/
theorem split_kv_pages_to_64_two :
    ∃ view buffers', splitKvPagesTo64 ⟨fun _ => 7, fun _ => 5, .inOrder _, .inOrder _⟩ ⟨none, none⟩
        ⟨2, 149760, fun a => UInt8.ofNat a.toNat⟩ 256 (some [300, -1]) = some (view, buffers') ∧
      view.bytes (footerByte view.stride pbsDst .scale 300 1) =
        UInt8.ofNat (footerByte 149760 256 .scale 300 1) := by
  have hfits := (split_kv_pages_to_64_iff 2 149760 (by decide : pbsDst ∣ 256) (by decide)
    (by decide) (some [300, -1]) ?_).mpr (.inr fun t ht => ?_)
  · obtain ⟨view, buffers', hsplit, -, htokens, -⟩ := hfits
      ⟨fun _ => 7, fun _ => 5, .inOrder _, .inOrder _⟩ ⟨none, none⟩ fun a => UInt8.ofNat a.toNat
    exact ⟨view, buffers', hsplit, htokens 300 (by decide) .scale 1 (by decide)⟩
  · exact (by decide : ∀ t ∈ ([300, -1] : List ℤ), -2 ^ 31 ≤ t ∧ t < (2 * 256 : ℕ))
  · have ht : (t : ℤ) ∈ [300, -1] := ht
    obtain rfl : t = 300 := by
      simp at ht
      omega
    decide

/-- **The split is wrong** for a pool of 114718 pages of 256 tokens, which is 16 GiB, when the first
token of the last page is asked for: its scales are not stored. -/
theorem not_split_kv_pages_to_64 :
    ¬SplitRight zeroRun ⟨none, none⟩ ⟨114718, 149760, fun _ => 1⟩ 256 (some [29367552]) :=
  not_splitRight_far (by decide : 1 < 4) (by decide) (by decide : Asked _ _ 29367552) (by decide)

end LuzServing

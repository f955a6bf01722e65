import LuzServing.Stores
import Mathlib.Data.Nat.Size

/-!
# The FP4 repack bridge

The sparse attention kernel reads only V4 rows, so the slots that a batch attends
to are gathered out of the FP4 pool into a scratch of V4 rows, and the kernel gets
the identity as its indices. This file is that code: the repack kernel, byte for
byte (`repackFp4ToV4Kernel`), the persistent buffers (`persistentBuffer`), the
bridge (`repackFp4ExtraToV4`), the query slices (`bridgeSliceBounds`) and what the
attention kernel then attends to (`bridgedRows`), with what it would attend to in
the pool itself (`pooledRows`).

The scalar floating-point operations are a parameter (`FloatOps`).
-/

namespace LuzServing

/-! ## Bytes and floats -/

/-- A byte-addressed memory. -/
abbrev Memory : Type := ℕ → UInt8

/-- The scalar operations of the kernels on 32-bit floats. -/
structure FloatOps (F : Type*) where
  /-- `0.0` -/
  zero : F
  /-- `1.0` -/
  one : F
  /-- `1e-4`, the least amax -/
  minAmax : F
  /-- `448.0`, the greatest e4m3 -/
  maxE4m3 : F
  /-- `_e2m1_code_to_fp32` -/
  e2m1 : UInt8 → F
  /-- an e4m3 byte as a float -/
  e4m3 : UInt8 → F
  /-- multiplication -/
  mul : F → F → F
  /-- `tl.abs` -/
  abs : F → F
  /-- `tl.maximum` -/
  max : F → F → F
  /-- `tl.fdiv`, IEEE rounding -/
  fdiv : F → F → F
  /-- the bits of a float -/
  bits : F → UInt32
  /-- the float of given bits -/
  ofBits : UInt32 → F
  /-- conversion to e4m3 -/
  toE4m3 : F → UInt8
  /-- conversion to bf16 -/
  toBf16 : F → UInt16
  /-- multiplying by `1.0` changes nothing -/
  mul_one : ∀ x, mul x one = x

/-! ## Rows -/

/-- One token's bytes in a `V41_FP4` page: the packed codes and the group scales. -/
structure Fp4Row : Type where
  /-- two e2m1 codes a byte -/
  data : ℕ → UInt8
  /-- an e4m3 scale for each 16 values -/
  scale : ℕ → UInt8

/-- One token's bytes in the V4 layout. -/
structure V4Row : Type where
  /-- 448 e4m3 bytes and 64 bf16 values -/
  data : List UInt8
  /-- 7 ue8m0 scales and a zero -/
  scale : List UInt8
  deriving DecidableEq

/-- Bytes of a token's V4 data. -/
def dstDataStride : ℕ := 576

/-- Bytes of a token's V4 scales. -/
def dstScaleStride : ℕ := 8

/-- Tokens of a V4 page. -/
def dstPageSize : ℕ := 64

/-- Where the scales of a V4 page start. -/
def dstScaleOff : ℕ := dstPageSize * dstDataStride

/-- Bytes of a V4 page. -/
def dstPageBytes : ℕ := (dstPageSize * (dstDataStride + dstScaleStride) + 575) / 576 * 576

/-- Packed bytes that hold the 448 nope values. -/
def nopeBytes : ℕ := 224

/-- The number of nope values. -/
def nopeValues : ℕ := 448

/-- The V4 row in slot `slot` of a scratch. -/
def readV4 (m : Memory) (slot : ℕ) : V4Row where
  data := (List.range dstDataStride).map fun o =>
    m (slot / dstPageSize * dstPageBytes + slot % dstPageSize * dstDataStride + o)
  scale := (List.range dstScaleStride).map fun o =>
    m (slot / dstPageSize * dstPageBytes + dstScaleOff + slot % dstPageSize * dstScaleStride + o)

/-! ## Dequantizing and requantizing a row -/

namespace FloatOps

variable {F : Type*} (o : FloatOps F)

/-- Element `e` of a row: its nibble times its group's scale. -/
def dequant (row : Fp4Row) (e : ℕ) : F :=
  o.mul (o.e2m1 (if e % 2 = 0 then row.data (e / 2) &&& 0xF else row.data (e / 2) >>> 4))
    (o.e4m3 (row.scale (e / 16)))

/-- The greatest magnitude of a tile of 64 values. -/
def tileAmax (x : ℕ → F) (tile : ℕ) : F :=
  let pair (b : ℕ) : F := o.max (o.abs (x (2 * b))) (o.abs (x (2 * b + 1)))
  (List.range' (32 * tile + 1) 31).foldl (fun m b => o.max m (pair b)) (pair (32 * tile))

/-- The ue8m0 scale of a tile: the biased exponent of `max(amax, 1e-4) / 448`,
rounded up. -/
def ue8m0 (amax : F) : UInt32 :=
  let u := o.bits (o.fdiv (o.max amax o.minAmax) o.maxE4m3)
  ((u >>> 23) &&& 0xFF) + if u &&& 0x7FFFFF ≠ 0 then 1 else 0

/-- The reciprocal of a ue8m0 scale. -/
def invScale (scale : UInt32) : F := o.ofBits ((254 - scale) <<< 23)

/-- Byte `k` of the bf16 value `x`, low byte first. -/
def bf16Byte (x : F) (k : ℕ) : UInt8 :=
  if k = 0 then (o.toBf16 x).toUInt8 else (o.toBf16 x >>> 8).toUInt8

/-- Byte `i` of the V4 data of the values `x`. -/
def v4Data (x : ℕ → F) (i : ℕ) : UInt8 :=
  if i < nopeValues then o.toE4m3 (o.mul (x i) (o.invScale (o.ue8m0 (o.tileAmax x (i / 64)))))
  else o.bf16Byte (x (nopeValues + (i - nopeValues) / 2)) (i % 2)

/-- Byte `t` of the V4 scales of the values `x`. -/
def v4Scale (x : ℕ → F) (t : ℕ) : UInt8 :=
  if t < 7 then (o.ue8m0 (o.tileAmax x t)).toUInt8 else 0

/-- The V4 row of the values `x`. -/
def requantV4 (x : ℕ → F) : V4Row where
  data := (List.range dstDataStride).map (o.v4Data x)
  scale := (List.range dstScaleStride).map (o.v4Scale x)

end FloatOps

/-! ## The pool -/

/-- Bytes of a token's packed codes. -/
def srcDataBytes : ℕ := 256

/-- Bytes of a token's group scales. -/
def srcScaleBytes : ℕ := 32

/-- A pool of `V41_FP4` pages, with what the bridge asserts of it. -/
structure Fp4Pool : Type where
  /-- its bytes -/
  bytes : Memory
  /-- tokens of a page -/
  pageSize : ℕ
  /-- bytes from page to page -/
  pageBytes : ℕ
  /-- the page sizes in use -/
  pageSize_eq : pageSize = 128 ∨ pageSize = 256
  /-- a page holds its rows -/
  pageBytes_ge : pageSize * (srcDataBytes + srcScaleBytes) ≤ pageBytes

/-- The row of slot `loc`: the codes of a page's tokens come first, then their
scales. -/
def Fp4Pool.row (pool : Fp4Pool) (loc : ℕ) : Fp4Row where
  data b := pool.bytes
    (loc / pool.pageSize * pool.pageBytes + loc % pool.pageSize * srcDataBytes + b)
  scale g := pool.bytes
    (loc / pool.pageSize * pool.pageBytes + pool.pageSize * srcDataBytes +
      loc % pool.pageSize * srcScaleBytes + g)

/-- Slot ids of a batch, a row for each query; masked slots are negative. Ids fit
`int32`. -/
structure SlotIds : Type where
  /-- the id at place `j` of query `i` -/
  at_ : ℕ → ℕ → ℤ
  /-- it fits -/
  fits : ∀ i j, -2 ^ 31 ≤ at_ i j ∧ at_ i j < 2 ^ 31

/-! ## The repack kernel -/

section
variable {F : Type*} (o : FloatOps F)

/-- The row that a program loads, at `data_base` and `scale_base`. -/
def loadedRow (src : Memory) (srcPageBytes srcPageBits loc : ℕ) : Fp4Row :=
  let srcPage := loc >>> srcPageBits
  let srcSlot := loc &&& (1 <<< srcPageBits - 1)
  let srcBase := srcPage * srcPageBytes
  let dataBase := srcBase + srcSlot * srcDataBytes
  let scaleBase := srcBase + (1 <<< srcPageBits) * srcDataBytes + srcSlot * srcScaleBytes
  ⟨fun b => src (dataBase + b), fun g => src (scaleBase + g)⟩

/-- `vlo` and `vhi`: the two values of packed byte `b`, zero in the masked lanes. -/
def nopeLane (row : Fp4Row) (gate : F) (b : ℕ) : F × F :=
  let pmask := b < nopeBytes
  let packed := if pmask then row.data b else 0
  let scale := if pmask then o.e4m3 (row.scale (b / 8)) else o.zero
  (o.mul (o.mul (o.e2m1 (packed &&& 0xF)) scale) gate,
    o.mul (o.mul (o.e2m1 (packed >>> 4)) scale) gate)

/-- The greater magnitude of a lane, zero in the masked lanes. -/
def absLane (row : Fp4Row) (gate : F) (b : ℕ) : F :=
  let pmask := b < nopeBytes
  let abslo := if pmask then o.abs (nopeLane o row gate b).1 else o.zero
  let abshi := if pmask then o.abs (nopeLane o row gate b).2 else o.zero
  o.max abslo abshi

/-- `amax`: the greatest of the 32 lanes of a tile. -/
def laneAmax (row : Fp4Row) (gate : F) (t : ℕ) : F :=
  (List.range' (32 * t + 1) 31).foldl (fun m b => o.max m (absLane o row gate b))
    (absLane o row gate (32 * t))

/-- The two bytes stored for packed byte `b`. -/
def nopeStored (row : Fp4Row) (gate : F) (b : ℕ) : UInt8 × UInt8 :=
  let inv := o.invScale (o.ue8m0 (laneAmax o row gate (b / 32)))
  (o.toE4m3 (o.mul (nopeLane o row gate b).1 inv), o.toE4m3 (o.mul (nopeLane o row gate b).2 inv))

/-- The two rope values of packed byte `r` past the nope ones. -/
def ropeLane (row : Fp4Row) (gate : F) (r : ℕ) : F × F :=
  let rpacked := row.data (nopeBytes + r)
  let rscale := o.e4m3 (row.scale (28 + r / 8))
  (o.mul (o.mul (o.e2m1 (rpacked &&& 0xF)) rscale) gate,
    o.mul (o.mul (o.e2m1 (rpacked >>> 4)) rscale) gate)

/-- The stores of a bf16 value at element `k`. -/
def bf16Stores (k : ℕ) (x : F) : List (ℕ × UInt8) :=
  (List.range 2).map fun byte => (2 * k + byte, o.bf16Byte x byte)

/-- The byte stores of program `pid`, which repacks slot `idx`. -/
def repackStores (src : Memory) (srcPageBytes srcPageBits : ℕ) (idx : ℤ) (pid : ℕ) :
    List (ℕ × UInt8) :=
  let row := loadedRow src srcPageBytes srcPageBits (max idx 0).toNat
  let gate := if 0 ≤ idx then o.one else o.zero
  let nope := (List.range 256).filter (· < nopeBytes)
  let dstBase := (pid >>> 6) * dstPageBytes + (pid &&& 63) * dstDataStride
  let ropeBase := (dstBase + nopeValues) / 2
  let dstScaleBase := (pid >>> 6) * dstPageBytes + dstScaleOff + (pid &&& 63) * dstScaleStride
  nope.map (fun b => (dstBase + 2 * b, (nopeStored o row gate b).1)) ++
    nope.map (fun b => (dstBase + 2 * b + 1, (nopeStored o row gate b).2)) ++
    (List.range 32).flatMap (fun r => bf16Stores o (ropeBase + 2 * r) (ropeLane o row gate r).1) ++
    (List.range 32).flatMap
      (fun r => bf16Stores o (ropeBase + 2 * r + 1) (ropeLane o row gate r).2) ++
    (List.range 8).map fun t =>
      (dstScaleBase + t, if t < 7 then (o.ue8m0 (laneAmax o row gate t)).toUInt8 else 0)

/-- The kernel's launch: its programs in the order `order`. -/
def repackFp4ToV4Kernel (src : Memory) (srcPageBytes srcPageBits : ℕ) (idx : ℕ → ℤ)
    (order : List ℕ) (dst : Memory) : Memory :=
  storeAll dst (order.flatMap fun pid => repackStores o src srcPageBytes srcPageBits (idx pid) pid)

/-! ## The persistent buffers -/

/-- A tensor by its first dimension and its elements. -/
structure Tensor (α : Type*) where
  /-- the first dimension -/
  rows : ℕ
  /-- the elements, in order -/
  data : ℕ → α

/-- A grow-only buffer: the one in use and those it replaced. -/
structure Kept (α : Type*) where
  /-- the buffer in use -/
  current : Option (Tensor α)
  /-- the buffers it replaced, oldest first -/
  retired : List (Tensor α)

/-- `_persistent_buffer`: at least `rows` rows; a new buffer starts with whatever
`torch.empty` finds. -/
def persistentBuffer {α : Type*} (fresh : ℕ → α) (kept : Kept α) (rows : ℕ) : Kept α × Tensor α :=
  match kept.current with
  | some buf =>
    if rows ≤ buf.rows then (kept, buf)
    else (⟨some ⟨rows, fresh⟩, kept.retired ++ [buf]⟩, ⟨rows, fresh⟩)
  | none => (⟨some ⟨rows, fresh⟩, kept.retired⟩, ⟨rows, fresh⟩)

/-- The bridge's buffers on a device. -/
structure BridgeBuffers : Type where
  /-- the scratch, in V4 pages -/
  scratch : Kept UInt8
  /-- the identity indices -/
  ids : Kept ℤ
  /-- how many indices were filled in -/
  filled : ℕ

/-- The buffers of the bridge before its first call. -/
def BridgeBuffers.empty : BridgeBuffers := ⟨⟨none, []⟩, ⟨none, []⟩, 0⟩

/-- What a device does on its own: what fresh memory holds, and in which order the
programs of a launch run. -/
structure Device : Type where
  /-- fresh scratch -/
  freshBytes : Memory
  /-- fresh indices -/
  freshIds : ℕ → ℤ
  /-- the order of the `n` programs of the launch number `k` -/
  order : (k n : ℕ) → List ℕ
  /-- each program runs once -/
  order_perm : ∀ k n, (order k n).Perm (List.range n)

/-! ## The bridge -/

/-- `repack_fp4_extra_to_v4` over `n` flat slot ids: the scratch and the indices into
it. -/
def repackFp4ExtraToV4 (d : Device) (launch : ℕ) (pool : Fp4Pool) (flatIdx : ℕ → ℤ) (n : ℕ)
    (b : BridgeBuffers) : Option (BridgeBuffers × Memory × (ℕ → ℤ)) :=
  if n = 0 then none
  else
    let numDstPages := (n + dstPageSize - 1) / dstPageSize
    let (keptScratch, scratch) := persistentBuffer d.freshBytes b.scratch numDstPages
    let (keptIds, ids) := persistentBuffer d.freshIds b.ids n
    let refill : Bool := b.filled < n
    let idsData : ℕ → ℤ := if refill then fun i => if i < n then i else ids.data i else ids.data
    let bytes := repackFp4ToV4Kernel o pool.bytes pool.pageBytes (pool.pageSize.size - 1)
      (fun k => toInt32 (flatIdx k)) (d.order launch n) scratch.data
    some (⟨⟨some ⟨scratch.rows, bytes⟩, keptScratch.retired⟩,
      ⟨some ⟨ids.rows, idsData⟩, keptIds.retired⟩, if refill then n else b.filled⟩, bytes, idsData)

/-- `bridge_max_rows`: the row budget of a scratch of `mb` MiB. -/
def bridgeMaxRows (mb : ℕ) : ℕ := max 16 mb * 1024 * 1024 / dstPageBytes * dstPageSize

/-- `bridge_slice_bounds`: the query slices that keep a gather within `maxRows`. -/
def bridgeSliceBounds (numTokens topk maxRows : ℕ) : List ℕ :=
  let step := max 1 (maxRows / max 1 topk)
  if numTokens ≤ step then [0, numTokens]
  else
    let bounds := (List.range ((numTokens + step - 1) / step)).map (· * step)
    if bounds.getLast? = some numTokens then bounds else bounds ++ [numTokens]

/-- Place `j` is below the length of a query; without lengths every place is. -/
def below (length : Option ℕ) (j : ℕ) : Bool :=
  match length with
  | none => true
  | some l => j < l

/-- The length of query `i`, when there are lengths. -/
def lengthAt (lengths : Option (ℕ → ℕ)) (i : ℕ) : Option ℕ := lengths.map fun l => l i

/-- The rows that the attention kernel attends to for a query: those of the places
below the query's length whose index is not negative. -/
def attend (row : ℕ → V4Row) (indices : ℕ → ℤ) (topk : ℕ) (length : Option ℕ) : List V4Row :=
  ((List.range topk).filter fun j => below length j && 0 ≤ indices j).map fun j =>
    row (indices j).toNat

/-- The queries of one slice, through the bridge. -/
def bridgeSlice (d : Device) (pool : Fp4Pool) (indices : SlotIds) (topk : ℕ)
    (lengths : Option (ℕ → ℕ)) (b : BridgeBuffers) (lo hi : ℕ) :
    Option (BridgeBuffers × List (List V4Row)) := do
  let (b', scratch, bridged) ← repackFp4ExtraToV4 o d lo pool
    (fun k => indices.at_ (lo + k / topk) (k % topk)) ((hi - lo) * topk) b
  pure (b', (List.range (hi - lo)).map fun i =>
    attend (readV4 scratch) (fun j => bridged (i * topk + j)) topk (lengthAt lengths (lo + i)))

/-- The slices of a batch, one after another, and what each query attends to. -/
def bridgeSlices (d : Device) (pool : Fp4Pool) (indices : SlotIds) (topk : ℕ)
    (lengths : Option (ℕ → ℕ)) :
    BridgeBuffers → List (ℕ × ℕ) → Option (BridgeBuffers × List (List V4Row))
  | b, [] => some (b, [])
  | b, (lo, hi) :: slices => do
    let (b₁, part) ← bridgeSlice o d pool indices topk lengths b lo hi
    let (b₂, parts) ← bridgeSlices d pool indices topk lengths b₁ slices
    pure (b₂, part ++ parts)

/-- What the queries attend to through the bridge. -/
def bridgedRows (d : Device) (pool : Fp4Pool) (indices : SlotIds) (numTokens topk : ℕ)
    (lengths : Option (ℕ → ℕ)) (maxRows : ℕ) (b : BridgeBuffers) :
    Option (BridgeBuffers × List (List V4Row)) :=
  let bounds := bridgeSliceBounds numTokens topk maxRows
  bridgeSlices o d pool indices topk lengths b (bounds.dropLast.zip bounds.tail)

/-- What query `i` would attend to in the pool itself: its live rows, dequantized and
requantized. -/
def pooledRows (pool : Fp4Pool) (indices : SlotIds) (topk : ℕ) (lengths : Option (ℕ → ℕ))
    (i : ℕ) : List V4Row :=
  attend (fun loc => o.requantV4 (o.dequant (pool.row loc))) (indices.at_ i) topk
    (lengthAt lengths i)

end

end LuzServing

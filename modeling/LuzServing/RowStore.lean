import LuzServing.Machine

/-!
# The row store: one row, four sources

`adapter/row_store.cpp` serves the rows of one Engram table. A row is 256 bytes
of weight and 8 bytes of scale, and a lookup may find it in four places: a way
of the set-associative cache, the packed shard on local disk (weight and scale
adjacent), the checkpoint together with the scale shard pinned in RAM, or the
checkpoint alone with a second read. Two of the four are indexed off the
store's `rowLo`, which `row_store_range` moves.

The file is the model: files and `pread`, the store's fields, `fetch_row` split
at its lock sections (`probe`, `readRow`, `fill`), the serial `serve`, the
pooled lookup as any interleaving of those sections, and the three calls that
change the configuration. A call that aborts the process is `none`.

Offsets are natural numbers: `row_store_open` checks every extent against the
file's size, so none of the 64-bit sums the source forms can wrap.
-/

namespace LuzServing

/-- A string of bytes. -/
abbrev Bytes : Type := List UInt8

/-- 256 B of weight and 8 B of scale. -/
def kRowBytes : ℕ := 264
/-- bytes of a weight row -/
def kWeightBytes : ℕ := 256
/-- bytes of a scale row -/
def kScaleBytes : ℕ := 8
/-- the page of a direct read -/
def kPage : ℕ := 4096
/-- bytes of the packed shard before its row 0 -/
def kPackedHeader : ℕ := 4096
/-- `"DSV41EN1"` -/
def kPackedMagic : ℕ := 0x31344e4531565344

/-! ## Files and `pread` -/

/-- A file as the store sees it: its size and its bytes. -/
structure File : Type where
  /-- `st_size` -/
  size : ℕ
  /-- the byte at an offset -/
  byte : ℕ → UInt8

namespace File

/-- The `len` bytes from `off` on. -/
def slice (f : File) (off len : ℕ) : Bytes :=
  (List.range len).map fun i => f.byte (off + i)

/-- The little-endian word of `n` bytes at `off`. -/
def word (f : File) (off : ℕ) : ℕ → ℕ
  | 0 => 0
  | n + 1 => (f.byte off).toNat + 256 * f.word (off + 1) n

@[simp] theorem length_slice (f : File) (off len : ℕ) : (f.slice off len).length = len := by
  simp [slice]

/-- A slice of a file is the slice up to any point in it followed by the slice from this point
on. -/
theorem slice_add (f : File) (off a b : ℕ) :
    f.slice off (a + b) = f.slice off a ++ f.slice (off + a) b := by
  simp only [slice, List.range_add, List.map_append, List.map_map]
  congr 1
  exact List.map_congr_left fun i _ => by simp [Nat.add_assoc]

/-- `memcpy` out of a buffer that holds a slice gives the inner slice. -/
theorem take_drop_slice (f : File) {base got delta len : ℕ} (h : delta + len ≤ got) :
    ((f.slice base got).drop delta).take len = f.slice (base + delta) len := by
  obtain ⟨rest, rfl⟩ := Nat.exists_eq_add_of_le h
  have hsplit : f.slice base (delta + len + rest) =
      f.slice base delta ++ (f.slice (base + delta) len ++
        f.slice (base + (delta + len)) rest) := by
    rw [Nat.add_assoc delta, slice_add, slice_add, Nat.add_assoc base]
  rw [hsplit, List.drop_left' (length_slice ..), List.take_left' (length_slice ..)]

end File

/-- What one `pread` call does. -/
inductive Pread : Type where
  /-- fails with `EINTR` -/
  | eintr
  /-- fails with another `errno` -/
  | error
  /-- returns at most `k + 1` bytes -/
  | upTo (k : ℕ)
  deriving DecidableEq

/-- The loop `do { got = pread(…); } while (got < 0 && errno == EINTR)`: the
number of bytes read (`none` for a failure) and the system calls left over. When
the script of system calls is used up, reads are served in full. -/
def File.pread (f : File) (want off : ℕ) : List Pread → Option ℕ × List Pread
  | [] => (some (min want (f.size - off)), [])
  | .eintr :: os => f.pread want off os
  | .error :: os => (none, os)
  | .upTo k :: os => (some (min (k + 1) (min want (f.size - off))), os)

/-- `read_from`: exactly `len` bytes at `off`, out of the resident mapping or
through one page-aligned direct read; `none` is `fail`. -/
def readFrom (resident : Bool) (f : File) (off len : ℕ) (os : List Pread) :
    Option (Bytes × List Pread) :=
  if resident then some (f.slice off len, os)
  else
    let base := off / kPage * kPage
    let delta := off - base
    let requested := (delta + len + kPage - 1) / kPage * kPage
    match f.pread requested base os with
    | (none, _) => none
    | (some got, os) =>
      if got < delta + len then none
      else some (((f.slice base got).drop delta).take len, os)

/-- A `pread` may be short, but it never returns more bytes than it was asked for. -/
theorem File.pread_le_want {f : File} {want off got : ℕ} {os os' : List Pread}
    (h : f.pread want off os = (some got, os')) : got ≤ want := by
  induction os with
  | nil =>
    obtain ⟨hgot, -⟩ := Prod.mk.inj h
    have := Option.some.inj hgot
    omega
  | cons o os ih =>
    cases o with
    | eintr => exact ih h
    | error => cases h
    | upTo k =>
      obtain ⟨hgot, -⟩ := Prod.mk.inj h
      have := Option.some.inj hgot
      omega

/-- A `pread` never returns bytes past the end of the file. -/
theorem File.pread_le {f : File} {want off got : ℕ} {os os' : List Pread}
    (h : f.pread want off os = (some got, os')) : got ≤ f.size - off := by
  induction os with
  | nil =>
    obtain ⟨hgot, -⟩ := Prod.mk.inj h
    have := Option.some.inj hgot
    omega
  | cons o os ih =>
    cases o with
    | eintr => exact ih h
    | error => cases h
    | upTo k =>
      obtain ⟨hgot, -⟩ := Prod.mk.inj h
      have := Option.some.inj hgot
      omega

/-- **A read that does not abort is exact**, whatever the system calls did. -/
theorem readFrom_eq_some {resident : Bool} {f : File} {off len : ℕ} {os os' : List Pread}
    {out : Bytes} (h : readFrom resident f off len os = some (out, os')) :
    out = f.slice off len := by
  unfold readFrom at h
  split at h
  · exact (congrArg Prod.fst (Option.some.inj h)).symm
  · simp only at h
    split at h
    · cases h
    · rename_i got os₁ hgot
      split at h
      · cases h
      · rename_i hlen
        have hbase : off / kPage * kPage ≤ off := Nat.div_mul_le_self off kPage
        obtain ⟨rfl, -⟩ := Prod.mk.inj (Option.some.inj h)
        rw [f.take_drop_slice (Nat.not_lt.mp hlen), Nat.add_sub_cancel' hbase]

/-- A direct read that does not abort lies inside the file. -/
theorem readFrom_le_size {f : File} {off len : ℕ} {os os' : List Pread} {out : Bytes}
    (hlen : 0 < len) (h : readFrom false f off len os = some (out, os')) :
    off + len ≤ f.size := by
  unfold readFrom at h
  simp only [Bool.false_eq_true, if_false] at h
  split at h
  · cases h
  · rename_i got os₁ hgot
    split at h
    · cases h
    · have hle := File.pread_le hgot
      have hbase : off / kPage * kPage ≤ off := Nat.div_mul_le_self off kPage
      omega

/-! ## The store -/

/-- The table `row_store_open` opens, with the extents it checks. -/
structure Table : Type where
  /-- the checkpoint file, behind `fd` -/
  file : File
  /-- number of rows -/
  rows : ℕ
  /-- `woff` -/
  weightOffset : ℕ
  /-- `soff` -/
  scaleOffset : ℕ
  /-- the weight rows lie inside the file -/
  weight_fits : weightOffset ≤ file.size ∧ rows ≤ (file.size - weightOffset) / kWeightBytes
  /-- the scale rows lie inside the file -/
  scale_fits : scaleOffset ≤ file.size ∧ rows ≤ (file.size - scaleOffset) / kScaleBytes

namespace Table

/-- The weight row of an id, in the checkpoint. -/
def weight (t : Table) (id : ℕ) : Bytes := t.file.slice
    (t.weightOffset + id * kWeightBytes) kWeightBytes

/-- The scale row of an id, in the checkpoint. -/
def scale (t : Table) (id : ℕ) : Bytes := t.file.slice
    (t.scaleOffset + id * kScaleBytes) kScaleBytes

/-- The 264-byte record of an id: weight row, then scale row. -/
def row (t : Table) (id : ℕ) : Bytes := t.weight id ++ t.scale id

@[simp] theorem length_weight (t : Table) (id : ℕ) : (t.weight id).length = kWeightBytes :=
  File.length_slice ..

@[simp] theorem take_row (t : Table) (id : ℕ) : (t.row id).take kWeightBytes = t.weight id := by
  rw [row, List.take_left' (t.length_weight id)]

@[simp] theorem drop_row (t : Table) (id : ℕ) : (t.row id).drop kWeightBytes = t.scale id := by
  rw [row, List.drop_left' (t.length_weight id)]

end Table

/-- The header fields of a packed shard, as `row_store_attach_packed` parses
them. -/
structure PackedHeader : Type where
  /-- bytes 0 to 7 -/
  magic : ℕ
  /-- bytes 8 to 15 -/
  layer : ℕ
  /-- bytes 16 to 23 -/
  lo : ℕ
  /-- bytes 24 to 31 -/
  hi : ℕ
  /-- bytes 32 to 39 -/
  rows : ℕ
  /-- bytes 40 to 47 -/
  rowBytes : ℕ
  deriving DecidableEq

/-- The header of a packed shard. -/
def File.packedHeader (f : File) : PackedHeader where
  magic := f.word 0 8
  layer := f.word 8 8
  lo := f.word 16 8
  hi := f.word 24 8
  rows := f.word 32 8
  rowBytes := f.word 40 8

/-- The shard holds the rows of the range its header names and nothing else,
weight and scale adjacent, as `pack_layer` writes them. -/
structure File.HoldsShard (f : File) (t : Table) : Prop where
  /-- the header page and the records are the whole file -/
  size : f.size = kPackedHeader + (f.packedHeader.hi - f.packedHeader.lo) * kRowBytes
  /-- each record is the row of its id -/
  row : ∀ id, f.packedHeader.lo ≤ id → id < f.packedHeader.hi →
    f.slice (kPackedHeader + (id - f.packedHeader.lo) * kRowBytes) kRowBytes = t.row id

/-- `struct Store`: the table, the ownership range, the cache, and the three
optional sources of a row. -/
structure Store : Type where
  /-- `fd`, `rows`, `weight_offset`, `scale_offset` -/
  table : Table
  /-- `OFFLOAD_MODE=ram`: the whole checkpoint is mapped -/
  resident : Bool
  /-- first owned row -/
  rowLo : ℕ
  /-- one past the last owned row -/
  rowHi : ℕ
  /-- the range is a range of the table's rows -/
  range_le : rowLo ≤ rowHi ∧ rowHi ≤ table.rows
  /-- cache sets; `0` is no cache -/
  sets : ℕ
  /-- ways of a set -/
  ways : ℕ
  /-- a set has a way -/
  ways_pos : 0 < ways
  /-- `id + 1` of each way, `0` when free -/
  keys : ℕ → ℕ
  /-- the row of each way -/
  cache : ℕ → Bytes
  /-- per-set round-robin replacement cursor -/
  victim : ℕ → ℕ
  /-- the pinned scale rows of the owned range -/
  scales : Option (ℕ → UInt8)
  /-- `packed_fd` -/
  packed : Option File
  /-- lookups served from the cache -/
  hits : ℕ
  /-- lookups that read -/
  misses : ℕ
  /-- direct reads -/
  reads : ℕ

namespace Store

/-- The set of an id. -/
def set (s : Store) (id : ℕ) : ℕ := if s.sets = 0 then 0 else id % s.sets

/-! ## `fetch_row`, section by section -/

/-- The first lock section of `fetch_row`: the way that holds the id. -/
def probe (s : Store) (id : ℕ) : Option Bytes :=
  if s.sets = 0 then none
  else
    let base := s.set id * s.ways
    ((List.range s.ways).find? fun w => s.keys (base + w) = id + 1).map fun w => s.cache (base + w)

/-- A direct read counts in `reads`; a `memcpy` from the mapping does not. -/
def directReads (s : Store) (n : ℕ) : ℕ := if s.resident then 0 else n

/-- The unlocked middle of `fetch_row`: the row from the packed shard, or from
the checkpoint with the pinned scales, or from the checkpoint with a second
read; with the number of direct reads. -/
def readRow (s : Store) (id : ℕ) (os : List Pread) : Option (Bytes × ℕ) :=
  match s.packed with
  | some shard => do
    let (row, _) ← readFrom false shard (kPackedHeader + (id - s.rowLo) * kRowBytes) kRowBytes os
    pure (row, 1)
  | none => do
    let (weight, os) ← readFrom s.resident s.table.file
      (s.table.weightOffset + id * kWeightBytes) kWeightBytes os
    match s.scales with
    | some scales =>
      pure
        (weight ++ (List.range kScaleBytes).map fun i => scales ((id - s.rowLo) * kScaleBytes + i),
          s.directReads 1)
    | none =>
      let (scale, _) ← readFrom s.resident s.table.file
        (s.table.scaleOffset + id * kScaleBytes) kScaleBytes os
      pure (weight ++ scale, s.directReads 2)

/-- The last lock section of `fetch_row`: the row replaces the set's victim. -/
def fill (s : Store) (id : ℕ) (row : Bytes) : Store :=
  if s.sets = 0 then s
  else
    let w := s.victim (s.set id) % s.ways
    { s with
      victim := Function.update s.victim (s.set id) ((s.victim (s.set id) + 1) % s.ways)
      cache := Function.update s.cache (s.set id * s.ways + w) row
      keys := Function.update s.keys (s.set id * s.ways + w) (id + 1) }

/-- `hits.fetch_add(1)` -/
def countHit (s : Store) : Store := { s with hits := s.hits + 1 }

/-- `misses.fetch_add(1)`, with the direct reads of the miss. -/
def countMiss (s : Store) (n : ℕ) : Store := { s with misses := s.misses + 1, reads := s.reads + n }

/-- `fetch_row` run alone: probe, read on a miss, fill. -/
def fetchRow (s : Store) (id : ℕ) (os : List Pread) : Option (Bytes × Store) :=
  match s.probe id with
  | some row => some (row, s.countHit)
  | none => do
    let (row, n) ← s.readRow id os
    pure (row, (s.countMiss n).fill id row)

end Store

/-! ## Lookups -/

/-- What a lookup writes for one id: the weight row and the scale row. -/
abbrev Served : Type := Bytes × Bytes

/-- The zero rows of an id outside the ownership range. -/
def zeroRow : Served := (List.replicate kWeightBytes 0, List.replicate kScaleBytes 0)

/-- Weight and scale of a 264-byte record. -/
def splitRow (row : Bytes) : Served := (row.take kWeightBytes, row.drop kWeightBytes)

/-- `serve` over a list of ids, serially: each id with the system calls of its
reads. -/
def Store.serve : Store → List (ℤ × List Pread) → Option (Store × List Served)
  | s, [] => some (s, [])
  | s, (id, os) :: ids =>
    if id < 0 ∨ s.table.rows ≤ id.toNat then none
    else if id.toNat < s.rowLo ∨ s.rowHi ≤ id.toNat then do
      let (s₁, out) ← s.serve ids
      pure (s₁, zeroRow :: out)
    else do
      let (row, s₁) ← s.fetchRow id.toNat os
      let (s₂, out) ← s₁.serve ids
      pure (s₂, splitRow row :: out)

/-- How far the thread that serves one index has come. -/
inductive Phase : Type where
  /-- not begun -/
  | todo
  /-- probed without a hit, the lock released -/
  | missed
  /-- read, about to take the lock and fill -/
  | holding (row : Bytes)
  /-- the output is written -/
  | done (out : Served)
  deriving DecidableEq

/-- One atomic section of the thread that serves index `i` of `ids`: the bounds
checks with the probe, the unlocked read, or the fill. -/
def Store.serveStep (ids : List ℤ) (st : Store × (ℕ → Phase)) (a : ℕ × List Pread) :
    Option (Store × (ℕ → Phase)) :=
  let (s, phase) := st
  let (i, os) := a
  match ids[i]? with
  | none => some st
  | some id =>
    match phase i with
    | .todo =>
      if id < 0 ∨ s.table.rows ≤ id.toNat then none
      else if id.toNat < s.rowLo ∨ s.rowHi ≤ id.toNat then
        some (s, Function.update phase i (.done zeroRow))
      else match s.probe id.toNat with
        | some row => some (s.countHit, Function.update phase i (.done (splitRow row)))
        | none => some (s, Function.update phase i .missed)
    | .missed => do
      let (row, n) ← s.readRow id.toNat os
      pure (s.countMiss n, Function.update phase i (.holding row))
    | .holding row => some (s.fill id.toNat row, Function.update phase i (.done (splitRow row)))
    | .done _ => some st

/-- Run a schedule of sections. -/
def Store.serveSched (ids : List ℤ) : Store × (ℕ → Phase) → List (ℕ × List Pread) →
    Option (Store × (ℕ → Phase))
  | st, [] => some st
  | st, a :: sched => do
    let st ← Store.serveStep ids st a
    Store.serveSched ids st sched

/-- The output of a finished index. -/
def Phase.out : Phase → Option Served
  | .done out => some out
  | _ => none

/-- How `row_store_lookup` runs: `serve` on the calling thread, or the pool's
threads, in any interleaving of their sections. -/
inductive Schedule : Type where
  /-- the serial path, with the system calls of each id -/
  | serial (os : List (List Pread))
  /-- the pooled path: which index advances by one section, with the system calls
  of its read -/
  | pooled (sched : List (ℕ × List Pread))

/-- `row_store_lookup`: the rows of all ids, once every index is served. -/
def rowStoreLookup (s : Store) (ids : List ℤ) : Schedule → Option (Store × List Served)
  | .serial os => s.serve (ids.zipIdx.map fun p => (p.1, os.getD p.2 []))
  | .pooled sched => do
    let (s₁, phase) ← Store.serveSched ids (s, fun _ => .todo) sched
    let out ← (List.range ids.length).mapM fun i => (phase i).out
    pure (s₁, out)

/-! ## `row_store_open`, `row_store_attach_packed`, `row_store_range` -/

/-- `row_store_open`: `none` is an abort; the cache's ways come from
`DSV41_CACHE_WAYS`, its sets from the budget. -/
def rowStoreOpen (file : File) (rows woff soff budget waysEnv : ℕ) (ram mapped : Bool) :
    Option Store :=
  if h : ((woff ≤ file.size ∧ rows ≤ (file.size - woff) / kWeightBytes) ∧
      (soff ≤ file.size ∧ rows ≤ (file.size - soff) / kScaleBytes)) ∧ mapped then
    let ways := max 1 (min 16 waysEnv)
    some {
      table := ⟨file, rows, woff, soff, h.1.1, h.1.2⟩
      resident := ram
      rowLo := 0
      rowHi := rows
      range_le := ⟨Nat.zero_le _, le_refl _⟩
      sets := (if ram then 0 else budget) / ((kRowBytes + 8) * ways + 1)
      ways := ways
      ways_pos := by omega
      keys := fun _ => 0
      cache := fun _ => []
      victim := fun _ => 0
      scales := none
      packed := none
      hits := 0
      misses := 0
      reads := 0 }
  else none

/-- `row_store_attach_packed`: a missing file leaves the store as it is and
returns `false`; a shard with a wrong header or a short body aborts. -/
def rowStoreAttachPacked (s : Store) (shard : Option File) (layerId : ℕ) (os : List Pread) :
    Option (Store × Bool) :=
  match shard with
  | none => some (s, false)
  | some f =>
    match (f.pread kPage 0 os).1 with
    | none => none
    | some got =>
      if got < kPage then none
      else if f.packedHeader ≠ ⟨kPackedMagic, layerId, s.rowLo, s.rowHi, s.table.rows, kRowBytes⟩
      then none
      else if f.size < kPackedHeader + (s.rowHi - s.rowLo) * kRowBytes then none
      else some ({ s with packed := some f }, true)

/-- `memcpy(out + (lo - start), buffer + (lo - offset), hi - lo)` of the bytes
`[lo, hi)` of the file. -/
def blit (f : File) (start lo hi : ℕ) (out : ℕ → UInt8) : ℕ → UInt8 :=
  fun i => if lo ≤ start + i ∧ start + i < hi then f.byte (start + i) else out i

/-- The read loop of `pin_scales`: reads of at most `span` bytes from `offset`
until `stop`. -/
def pinLoop (f : File) (start stop : ℕ) (offset : ℕ) (out : ℕ → UInt8) (os : List Pread) :
    Option (ℕ → UInt8) :=
  if offset < stop then
    let span := 8 * 1024 * 1024
    let want := min span ((stop - offset + kPage - 1) / kPage * kPage)
    match f.pread want offset os with
    | (none, _) => none
    | (some 0, _) => none
    | (some (got + 1), os) =>
      pinLoop f start stop (offset + (got + 1))
        (blit f start (max offset start) (min (offset + (got + 1)) stop) out) os
  else some out
termination_by stop - offset

/-- `pin_scales`: the scale rows of the owned range, or `none` when it returns
false (an empty range, an allocation that fails, a read that fails or ends). -/
def pinScales (s : Store) (allocated : Bool) (os : List Pread) : Option (ℕ → UInt8) :=
  let count := s.rowHi - s.rowLo
  if count = 0 then none
  else if !allocated then none
  else
    let start := s.table.scaleOffset + s.rowLo * kScaleBytes
    let stop := start + count * kScaleBytes
    if s.resident then some fun i => s.table.file.byte (start + i)
    else pinLoop s.table.file start stop (start / kPage * kPage) (fun _ => 0) os

/-- `row_store_range`: moves the ownership range and pins the scale rows of the
new one, unless they are pinned already or `DSV41_RESIDENT_SCALES` is off. -/
def rowStoreRange (s : Store) (lo hi : ℕ) (residentScales allocated : Bool) (os : List Pread) :
    Option Store :=
  if h : lo ≤ hi ∧ hi ≤ s.table.rows then
    if s.scales.isSome ∧ (lo ≠ s.rowLo ∨ hi ≠ s.rowHi) then none
    else
      let s₁ := { s with rowLo := lo, rowHi := hi, range_le := h }
      if s₁.scales.isNone ∧ lo < hi ∧ residentScales then
        some { s₁ with scales := pinScales s₁ allocated os }
      else some s₁
  else none

end LuzServing

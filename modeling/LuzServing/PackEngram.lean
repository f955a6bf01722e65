import LuzServing.RankRanges
import LuzServing.RowStoreCache

/-!
# Packing a rank's rows

`scripts/pack_engram.py` copies the rows that a rank owns out of the checkpoint, weight and
scale adjacent, into a local file that `row_store_attach_packed` opens. The two are programs
of two languages that share a layout and a header. The packer's files are unbuffered: a read
may return less than it was asked for, which the packer checks, and a write may store only a
prefix of its buffer, which it does not.

So the file that it renames to the target is what torn writes leave of the shard (`Stored`):
it is not longer, and when it is as long it is the shard. The size check of the row store
then does what the packer leaves out. What neither of them looks at is a target that was there
before. The packer keeps it for its size and the store accepts it for its header, so the rows of
another checkpoint are served where a table of the same shape was packed before
(`packed_lookup_exact`).
-/

namespace LuzServing

/-! ## Unbuffered files -/

/-- What one `read`, `write` or `fsync` does. -/
inductive RawIO : Type where
  /-- raises `OSError` -/
  | error
  /-- moves at most `k` bytes -/
  | upTo (k : ℕ)
  deriving DecidableEq

/-- `src.seek(off); src.read(n)`. When the script of system calls is used up, reads are served
in full. -/
def rawRead (f : File) (off n : ℕ) : List RawIO → Option (Bytes × List RawIO)
  | [] => some (f.slice off (min n (f.size - off)), [])
  | .error :: _ => none
  | .upTo k :: os => some (f.slice off (min k (min n (f.size - off))), os)

/-- `dst.write(buf)`, at the end of the file. -/
def rawWrite (file buf : Bytes) : List RawIO → Option (Bytes × List RawIO)
  | [] => some (file ++ buf, [])
  | .error :: _ => none
  | .upTo k :: os => some (file ++ buf.take k, os)

/-- `os.fsync(dst.fileno())` -/
def rawSync (file : Bytes) : List RawIO → Option Bytes
  | .error :: _ => none
  | _ => some file

/-- What torn writes leave of `full`. -/
structure Stored (full file : Bytes) : Prop where
  /-- it is not longer -/
  le : file.length ≤ full.length
  /-- when it is as long, nothing was torn -/
  eq : file.length = full.length → file = full

/-- A read that returns all that it was asked for is exact. -/
theorem rawRead_eq {f : File} {off n : ℕ} {os os' : List RawIO} {out : Bytes}
    (h : rawRead f off n os = some (out, os')) (hlen : out.length = n) : out = f.slice off n := by
  cases os with
  | nil =>
    obtain ⟨rfl, -⟩ := Prod.mk.inj (Option.some.inj h)
    rw [File.length_slice] at hlen
    rw [hlen]
  | cons o os =>
    cases o with
    | error => cases h
    | upTo k =>
      obtain ⟨rfl, -⟩ := Prod.mk.inj (Option.some.inj h)
      rw [File.length_slice] at hlen
      rw [hlen]

/-- A raw write appends some prefix of the buffer to the file, which may be short or empty. -/
theorem rawWrite_prefix {file buf file' : Bytes} {os os' : List RawIO}
    (h : rawWrite file buf os = some (file', os')) : ∃ k, file' = file ++ buf.take k := by
  cases os with
  | nil =>
    obtain ⟨rfl, -⟩ := Prod.mk.inj (Option.some.inj h)
    exact ⟨buf.length, by rw [List.take_length]⟩
  | cons o os =>
    cases o with
    | error => cases h
    | upTo k =>
      obtain ⟨rfl, -⟩ := Prod.mk.inj (Option.some.inj h)
      exact ⟨k, rfl⟩

/-- Writing a buffer, torn or not, after what torn writes left. -/
theorem Stored.rawWrite {full file buf file' : Bytes} {os os' : List RawIO}
    (hs : Stored full file) (h : rawWrite file buf os = some (file', os')) :
    Stored (full ++ buf) file' := by
  obtain ⟨k, rfl⟩ := rawWrite_prefix h
  have hle := hs.le
  have htake := List.length_take_le' k buf
  refine ⟨by simp only [List.length_append]; omega, fun hlen => ?_⟩
  simp only [List.length_append] at hlen
  have hbuf : buf.take k = buf := List.take_of_length_le (by
    rw [List.length_take] at hlen htake
    omega)
  rw [hbuf, hs.eq (by omega)]

theorem rawSync_eq {file file' : Bytes} {os : List RawIO} (h : rawSync file os = some file') :
    file' = file := by
  cases os with
  | nil => exact (Option.some.inj h).symm
  | cons o os =>
    cases o with
    | error => cases h
    | upTo k => exact (Option.some.inj h).symm

/-! ## The packer -/

/-- The `n` bytes of a little-endian word. -/
def leBytes : ℕ → ℕ → Bytes
  | 0, _ => []
  | n + 1, v => UInt8.ofNat (v % 256) :: leBytes n (v / 256)

/-- `struct.pack('<6Q', …)`: `none` when a field does not fit. -/
def structPack (fields : List ℕ) : Option Bytes :=
  if ∀ v ∈ fields, v < 2 ^ 64 then some (fields.flatMap (leBytes 8)) else none

/-- The header page of a packed shard, unless one of its fields does not fit. -/
def packHeader (layer lo hi rows : ℕ) : Option Bytes :=
  (structPack [kPackedMagic, layer, lo, hi, rows, kRowBytes]).map fun fields =>
    fields ++ List.replicate (kPackedHeader - fields.length) 0

/-- `block`: the weight rows and the scale rows side by side. -/
def packBlock (n : ℕ) (weights scales : Bytes) : Bytes :=
  (List.range n).flatMap fun i =>
    (weights.drop (i * kWeightBytes)).take kWeightBytes ++
      (scales.drop (i * kScaleBytes)).take kScaleBytes

/-- One turn of the loop: the rows from `start` to `stop`. -/
def packChunk (t : Table) (start stop : ℕ) (dst : Bytes) (os : List RawIO) :
    Option (Bytes × List RawIO) := do
  let n := stop - start
  let (weights, os) ← rawRead t.file (t.weightOffset + start * kWeightBytes) (n * kWeightBytes) os
  let (scales, os) ← rawRead t.file (t.scaleOffset + start * kScaleBytes) (n * kScaleBytes) os
  if weights.length ≠ n * kWeightBytes ∨ scales.length ≠ n * kScaleBytes then none
  else rawWrite dst (packBlock n weights scales) os

/-- `for start in range(lo, hi, chunk_rows)` -/
def packLoop (t : Table) (lo hi chunkRows : ℕ) (starts : List ℕ) (dst : Bytes)
    (os : List RawIO) : Option (Bytes × List RawIO) :=
  match starts with
  | [] => some (dst, os)
  | c :: starts => do
    let (dst, os) ← packChunk t (lo + c) (min (lo + c + chunkRows) hi) dst os
    packLoop t lo hi chunkRows starts dst os

/-- What is written to the partial file; `none` when an exception is raised. -/
def packPartial (t : Table) (layer lo hi chunkRows : ℕ) (os : List RawIO) : Option Bytes := do
  let header ← packHeader layer lo hi t.rows
  let (dst, os) ← rawWrite [] header os
  if chunkRows = 0 then none
  else
    let (dst, os) ← packLoop t lo hi chunkRows (chunkStarts (hi - lo) chunkRows) dst os
    rawSync dst os

/-- `pack_layer`: the target when it returns, `none` when it raises. A target of the expected
size is kept, and otherwise a partial file is renamed to the target. -/
def packLayer (t : Table) (layer rank tp chunkRows : ℕ) (target : Option Bytes)
    (os : List RawIO) : Option Bytes :=
  if tp = 0 then none
  else
    let lo := t.rows * rank / tp
    let hi := t.rows * (rank + 1) / tp
    let expected := kPackedHeader + (hi - lo) * kRowBytes
    if target.map List.length = some expected then target
    else packPartial t layer lo hi chunkRows os

/-- The runs of the packer on what is at the target: `pack_layer` again and again, with any chunk
sizes and any system calls. An exception leaves the target as it is. -/
def packer (t : Table) (layer rank tp : ℕ) (target₀ : Option Bytes) :
    Machine (Option Bytes) (ℕ × List RawIO) where
  init target := target = target₀
  step target a target' := (packLayer t layer rank tp a.1 target a.2).or target = target'

/-- From whatever the packer has left behind so far, one more run of it leads to what the run
leaves. -/
theorem packer_run {t : Table} {layer rank tp : ℕ} {target₀ target : Option Bytes}
    (h : (packer t layer rank tp target₀).Reach target) (chunkRows : ℕ) (os : List RawIO) :
    (packer t layer rank tp target₀).Reach
      ((packLayer t layer rank tp chunkRows target os).or target) :=
  h.step (a := (chunkRows, os)) rfl

/-! ## What is in the target -/

/-- The records of the rows from `lo` to `hi`. -/
def shardRows (t : Table) (lo hi : ℕ) : Bytes :=
  (List.range (hi - lo)).flatMap fun j => t.row (lo + j)

theorem Table.length_row (t : Table) (id : ℕ) : (t.row id).length = kRowBytes := by
  simp [Table.row, Table.weight, Table.scale, kRowBytes, kWeightBytes, kScaleBytes]

/-- The block that is made of the rows read is the rows' records. -/
theorem packBlock_slice (t : Table) (start n : ℕ) :
    packBlock n (t.file.slice (t.weightOffset + start * kWeightBytes) (n * kWeightBytes))
        (t.file.slice (t.scaleOffset + start * kScaleBytes) (n * kScaleBytes)) =
      (List.range n).flatMap fun i => t.row (start + i) := by
  refine List.flatMap_congr fun i hi => ?_
  have hi : i + 1 ≤ n := List.mem_range.mp hi
  have hw : i * kWeightBytes + kWeightBytes ≤ n * kWeightBytes := by
    rw [← Nat.succ_mul]
    exact Nat.mul_le_mul_right _ hi
  have hs : i * kScaleBytes + kScaleBytes ≤ n * kScaleBytes := by
    rw [← Nat.succ_mul]
    exact Nat.mul_le_mul_right _ hi
  rw [File.take_drop_slice _ hw, File.take_drop_slice _ hs, Table.row, Table.weight, Table.scale,
    Nat.add_mul, Nat.add_mul, Nat.add_assoc, Nat.add_assoc]

/-- A turn of the loop adds the records of its chunk. -/
theorem Stored.packChunk {t : Table} {full dst dst' : Bytes} {start stop : ℕ}
    {os os' : List RawIO} (hs : Stored full dst)
    (h : packChunk t start stop dst os = some (dst', os')) :
    Stored (full ++ (List.range (stop - start)).flatMap fun i => t.row (start + i)) dst' := by
  obtain ⟨⟨weights, os₁⟩, hweights, h⟩ := Option.bind_eq_some_iff.mp h
  obtain ⟨⟨scales, os₂⟩, hscales, h⟩ := Option.bind_eq_some_iff.mp h
  dsimp only at hscales h
  split at h
  · cases h
  · rename_i hshort
    obtain ⟨hlenw, hlens⟩ := not_or.mp hshort
    obtain rfl := rawRead_eq hweights (not_ne_iff.mp hlenw)
    obtain rfl := rawRead_eq hscales (not_ne_iff.mp hlens)
    rw [← packBlock_slice]
    exact hs.rawWrite h

/-- The loop over the chunks appends their records, as long as what was to be stored before was
stored. -/
theorem Stored.packLoop {t : Table} {full dst dst' : Bytes} {lo hi chunkRows : ℕ}
    {starts : List ℕ} {os os' : List RawIO} (hs : Stored full dst)
    (h : packLoop t lo hi chunkRows starts dst os = some (dst', os')) :
    Stored (full ++ starts.flatMap fun c =>
      (List.range (min (lo + c + chunkRows) hi - (lo + c))).flatMap fun i =>
        t.row (lo + c + i)) dst' := by
  induction starts generalizing full dst os with
  | nil =>
    obtain ⟨rfl, -⟩ := Prod.mk.inj (Option.some.inj h)
    rw [List.flatMap_nil, List.append_nil]
    exact hs
  | cons c starts ih =>
    obtain ⟨⟨dst₁, os₁⟩, hchunk, hrest⟩ := Option.bind_eq_some_iff.mp h
    rw [List.flatMap_cons, ← List.append_assoc]
    exact ih (hs.packChunk hchunk) hrest

/-- The records of the chunks, one chunk after the other, are the records of the whole range. -/
theorem shardRows_chunks (t : Table) {lo hi chunkRows : ℕ} (hchunk : 0 < chunkRows) :
    ((chunkStarts (hi - lo) chunkRows).flatMap fun c =>
      (List.range (min (lo + c + chunkRows) hi - (lo + c))).flatMap fun i =>
        t.row (lo + c + i)) = shardRows t lo hi := by
  rw [shardRows, ← flatMap_chunkStarts hchunk, List.flatMap_assoc]
  refine List.flatMap_congr fun c hc => ?_
  have hlt := mem_chunkStarts hchunk hc
  have hmin : min (lo + c + chunkRows) hi - (lo + c) = min (c + chunkRows) (hi - lo) - c := by
    omega
  rw [List.flatMap_map, hmin]
  refine List.flatMap_congr fun i _ => ?_
  rw [Nat.add_assoc]

/-- What is written to the partial file is stored there: the header page and the records of the
range. -/
theorem packPartial_stored {t : Table} {layer lo hi chunkRows : ℕ} {os : List RawIO}
    {file : Bytes} (h : packPartial t layer lo hi chunkRows os = some file) :
    ∃ header, packHeader layer lo hi t.rows = some header ∧
      Stored (header ++ shardRows t lo hi) file := by
  obtain ⟨header, hheader, h⟩ := Option.bind_eq_some_iff.mp h
  obtain ⟨⟨dst, os₁⟩, hwrite, h⟩ := Option.bind_eq_some_iff.mp h
  dsimp only at h
  split at h
  · cases h
  · rename_i hchunk
    obtain ⟨⟨dst₁, os₂⟩, hloop, hsync⟩ := Option.bind_eq_some_iff.mp h
    obtain rfl := rawSync_eq hsync
    have hempty : Stored [] [] := ⟨le_rfl, fun _ => rfl⟩
    have hstored := (hempty.rawWrite hwrite).packLoop hloop
    rw [shardRows_chunks t (Nat.pos_of_ne_zero hchunk), List.nil_append] at hstored
    exact ⟨header, hheader, hstored⟩

/-- What torn writes leave of the shard of a rank. -/
def StoredShard (t : Table) (layer rank tp : ℕ) (f : Bytes) : Prop :=
  ∃ header,
    packHeader layer (rankStart t.rows tp rank) (rankStart t.rows tp (rank + 1)) t.rows =
      some header ∧
    Stored (header ++ shardRows t (rankStart t.rows tp rank) (rankStart t.rows tp (rank + 1))) f

/-- The size of the shard of a rank. -/
def shardSize (t : Table) (rank tp : ℕ) : ℕ :=
  kPackedHeader + (rankStart t.rows tp (rank + 1) - rankStart t.rows tp rank) * kRowBytes

/-- **One run of the packer** keeps a target of the expected size, and writes a shard over any
other. -/
theorem packLayer_cases {t : Table} {layer rank tp chunkRows : ℕ} {target : Option Bytes}
    {os : List RawIO} {f : Bytes} (h : packLayer t layer rank tp chunkRows target os = some f) :
    target = some f ∧ f.length = shardSize t rank tp ∨ StoredShard t layer rank tp f := by
  rw [packLayer] at h
  split at h
  · cases h
  · dsimp only at h
    split at h
    next hsize =>
      subst h
      exact .inl ⟨rfl, Option.some.inj hsize⟩
    next => exact .inr (packPartial_stored h)

/-- A target of the expected size is kept, whatever is in it. -/
theorem packLayer_kept {t : Table} {layer rank tp chunkRows : ℕ} {f : Bytes} {os : List RawIO}
    (htp : 0 < tp) (hlen : f.length = shardSize t rank tp) :
    packLayer t layer rank tp chunkRows (some f) os = some f := by
  rw [packLayer, if_neg htp.ne']
  exact if_pos (congrArg some hlen)

/-- **The target of any run** is the one that was there before, or a shard that was written. -/
theorem packer_stored {t : Table} {layer rank tp : ℕ} {target₀ target : Option Bytes}
    (hr : (packer t layer rank tp target₀).Reach target) :
    target = target₀ ∨ ∃ f, target = some f ∧ StoredShard t layer rank tp f := by
  refine Machine.Invariant.reach
    (I := fun target => target = target₀ ∨ ∃ f, target = some f ∧ StoredShard t layer rank tp f)
    ⟨fun _ h => .inl h, ?_⟩ hr
  rintro target ⟨chunkRows, os⟩ target' ih rfl
  dsimp only
  cases hrun : packLayer t layer rank tp chunkRows target os with
  | none => exact ih
  | some f =>
    rcases packLayer_cases hrun with ⟨rfl, -⟩ | hstored
    · exact ih
    · exact .inr ⟨f, rfl, hstored⟩

/-! ## The target as the row store opens it -/

/-- The file with these bytes. -/
def File.ofBytes (bytes : Bytes) : File where
  size := bytes.length
  byte i := bytes.getD i 0

@[simp] theorem File.size_ofBytes (bytes : Bytes) : (File.ofBytes bytes).size = bytes.length := rfl

@[simp] theorem File.byte_ofBytes (bytes : Bytes) (i : ℕ) :
    (File.ofBytes bytes).byte i = bytes.getD i 0 := rfl

/-- A slice of a file that begins with `a` and goes on with `b`. -/
theorem File.slice_ofBytes (a b rest : Bytes) :
    (File.ofBytes (a ++ (b ++ rest))).slice a.length b.length = b := by
  refine List.ext_getElem (by simp) fun i h₁ h₂ => ?_
  simp only [File.slice, List.getElem_map, List.getElem_range, File.byte_ofBytes]
  rw [List.getD_append_right _ _ _ _ (Nat.le_add_right _ _), Nat.add_sub_cancel_left,
    List.getD_append _ _ _ _ h₂, List.getD_eq_getElem _ _ h₂]

@[simp] theorem length_leBytes (n v : ℕ) : (leBytes n v).length = n := by
  induction n generalizing v with
  | zero => rfl
  | succ n ih => rw [leBytes, List.length_cons, ih]

/-- A word at an offset past some bytes is the word at the remaining offset of what follows them. -/
theorem File.word_ofBytes_append (a b : Bytes) (off n : ℕ) :
    (File.ofBytes (a ++ b)).word (a.length + off) n = (File.ofBytes b).word off n := by
  induction n generalizing off with
  | zero => rfl
  | succ n ih =>
    rw [File.word, File.word, Nat.add_assoc, ih, File.byte_ofBytes, File.byte_ofBytes,
      List.getD_append_right _ _ _ _ (Nat.le_add_right _ _), Nat.add_sub_cancel_left]

/-- A word that was written in little-endian order reads back as the number it was. -/
theorem File.word_leBytes {n v : ℕ} (hv : v < 256 ^ n) (rest : Bytes) :
    (File.ofBytes (leBytes n v ++ rest)).word 0 n = v := by
  induction n generalizing v with
  | zero => rw [File.word, Nat.lt_one_iff.mp hv]
  | succ n ih =>
    have hdiv : v / 256 < 256 ^ n := by
      rw [Nat.div_lt_iff_lt_mul (by decide), ← Nat.pow_succ]
      exact hv
    have htail : (File.ofBytes (leBytes (n + 1) v ++ rest)).word (0 + 1) n = v / 256 :=
      (File.word_ofBytes_append [UInt8.ofNat (v % 256)] _ 0 n).trans (ih hdiv)
    have hhead : ((File.ofBytes (leBytes (n + 1) v ++ rest)).byte 0).toNat = v % 256 := by
      rw [leBytes, List.cons_append, File.byte_ofBytes, List.getD_cons_zero, UInt8.toNat_ofNat']
      omega
    rw [File.word, htail, hhead, Nat.mod_add_div]

/-- The fields of a structure read back, each at its place. -/
theorem File.word_structPack {fields : List ℕ} (hfits : ∀ v ∈ fields, v < 2 ^ 64) (rest : Bytes)
    {k : ℕ} (hk : k < fields.length) :
    (File.ofBytes (fields.flatMap (leBytes 8) ++ rest)).word (8 * k) 8 = fields.get ⟨k, hk⟩ := by
  induction fields generalizing k with
  | nil => exact absurd hk (Nat.not_lt_zero k)
  | cons v fields ih =>
    rw [List.flatMap_cons, List.append_assoc]
    cases k with
    | zero => exact File.word_leBytes (hfits v (List.mem_cons_self ..)) _
    | succ k =>
      have hoff : 8 * (k + 1) = (leBytes 8 v).length + 8 * k := by
        rw [length_leBytes]
        omega
      rw [hoff, File.word_ofBytes_append]
      exact ih (fun w hw => hfits w (List.mem_cons_of_mem _ hw)) (Nat.lt_of_succ_lt_succ hk)

/-- The six fields of a header that `struct.pack` wrote read back as they were. -/
theorem packedHeader_structPack {layer lo hi rows : ℕ} {fields : Bytes}
    (h : structPack [kPackedMagic, layer, lo, hi, rows, kRowBytes] = some fields) (rest : Bytes) :
    (File.ofBytes (fields ++ rest)).packedHeader =
      ⟨kPackedMagic, layer, lo, hi, rows, kRowBytes⟩ := by
  rw [structPack] at h
  split at h
  · rename_i hfits
    obtain rfl := Option.some.inj h
    have hword := fun (k : ℕ) (hk : k < 6) => File.word_structPack hfits rest (k := k) hk
    rw [File.packedHeader, PackedHeader.mk.injEq]
    exact ⟨hword 0 (by decide), hword 1 (by decide), hword 2 (by decide), hword 3 (by decide),
      hword 4 (by decide), hword 5 (by decide)⟩
  · cases h

theorem length_structPack {values : List ℕ} {fields : Bytes} (h : structPack values = some fields) :
    fields.length = 8 * values.length := by
  rw [structPack] at h
  split at h
  · obtain rfl := Option.some.inj h
    rw [List.length_flatMap]
    simp [Nat.mul_comm]
  · cases h

/-- The header page that the packer writes reads back with the fields that the packer gave it. -/
theorem packedHeader_ofBytes {layer lo hi rows : ℕ} {header : Bytes}
    (h : packHeader layer lo hi rows = some header) (rest : Bytes) :
    (File.ofBytes (header ++ rest)).packedHeader =
      ⟨kPackedMagic, layer, lo, hi, rows, kRowBytes⟩ := by
  obtain ⟨fields, hfields, rfl⟩ := Option.map_eq_some_iff.mp h
  rw [List.append_assoc]
  exact packedHeader_structPack hfields _

/-- The header that the packer writes fills one page, so the records begin on a page boundary. -/
theorem length_packHeader {layer lo hi rows : ℕ} {header : Bytes}
    (h : packHeader layer lo hi rows = some header) : header.length = kPackedHeader := by
  obtain ⟨fields, hfields, rfl⟩ := Option.map_eq_some_iff.mp h
  have hlen : fields.length ≤ kPackedHeader := by
    rw [length_structPack hfields]
    exact (by decide : 8 * 6 ≤ kPackedHeader)
  rw [List.length_append, List.length_replicate, Nat.add_sub_cancel' hlen]

theorem length_shardRows (t : Table) (lo hi : ℕ) :
    (shardRows t lo hi).length = (hi - lo) * kRowBytes := by
  rw [shardRows, List.length_flatMap]
  simp [Table.length_row]

/-- The records of a range are those up to some row followed by those from this row on. -/
theorem shardRows_append (t : Table) {lo mid hi : ℕ} (hlo : lo ≤ mid) (hhi : mid ≤ hi) :
    shardRows t lo hi = shardRows t lo mid ++ shardRows t mid hi := by
  obtain ⟨j, rfl⟩ := Nat.exists_eq_add_of_le hlo
  obtain ⟨k, rfl⟩ := Nat.exists_eq_add_of_le hhi
  have hall : lo + j + k - lo = j + k := by omega
  have hassoc : (fun i => t.row (lo + (j + i))) = fun i => t.row (lo + j + i) :=
    funext fun i => by rw [Nat.add_assoc]
  simp only [shardRows, hall, Nat.add_sub_cancel_left, List.range_add, List.flatMap_append,
    List.flatMap_map, hassoc]

/-- The records of a range of one row are the record of that row. -/
theorem shardRows_self (t : Table) (id : ℕ) : shardRows t id (id + 1) = t.row id := by
  rw [shardRows, Nat.add_sub_cancel_left, List.range_one, List.flatMap_singleton, Nat.add_zero]

/-- A file of a header page and the records of a range holds the rows of this range. -/
theorem holdsShard_ofBytes {t : Table} {layer lo hi : ℕ} {header : Bytes}
    (h : packHeader layer lo hi t.rows = some header) :
    (File.ofBytes (header ++ shardRows t lo hi)).HoldsShard t := by
  refine ⟨?_, fun id hlo hhi => ?_⟩
  · rw [packedHeader_ofBytes h, File.size_ofBytes, List.length_append, length_packHeader h,
      length_shardRows]
  · rw [packedHeader_ofBytes h] at hlo hhi ⊢
    dsimp only at hlo hhi ⊢
    have hoff : kPackedHeader + (id - lo) * kRowBytes = (header ++ shardRows t lo id).length := by
      rw [List.length_append, length_packHeader h, length_shardRows]
    rw [shardRows_append t hlo hhi.le, shardRows_append t (Nat.le_succ id) hhi, shardRows_self,
      ← List.append_assoc, hoff, ← t.length_row id, File.slice_ofBytes]

/-! ## A store before the shard is attached -/

namespace Store

theorem fill_packed (s : Store) (id : ℕ) (row : Bytes) : (s.fill id row).packed = s.packed := by
  rw [fill]
  split
  · rfl
  · rfl

theorem fetchRow_packed {s s' : Store} {id : ℕ} {os : List Pread} {row : Bytes}
    (h : s.fetchRow id os = some (row, s')) : s'.packed = s.packed := by
  rw [fetchRow.eq_def] at h
  split at h
  · obtain ⟨-, rfl⟩ := Prod.mk.inj (Option.some.inj h)
    rfl
  · obtain ⟨⟨row', n⟩, -, hpure⟩ := Option.bind_eq_some_iff.mp h
    obtain ⟨-, rfl⟩ := Prod.mk.inj (Option.some.inj hpure)
    exact fill_packed _ _ _

theorem serve_packed {s s' : Store} {ids : List (ℤ × List Pread)} {out : List Served}
    (h : s.serve ids = some (s', out)) : s'.packed = s.packed := by
  induction ids generalizing s out with
  | nil =>
    obtain ⟨rfl, -⟩ := Prod.mk.inj (Option.some.inj h)
    rfl
  | cons p ids ih =>
    obtain ⟨id, os⟩ := p
    rw [serve] at h
    split at h
    · cases h
    · split at h
      · obtain ⟨⟨s₁, out₁⟩, hrest, hpure⟩ := Option.bind_eq_some_iff.mp h
        obtain ⟨rfl, -⟩ := Prod.mk.inj (Option.some.inj hpure)
        exact ih hrest
      · obtain ⟨⟨row, s₁⟩, hfetch, hrest⟩ := Option.bind_eq_some_iff.mp h
        obtain ⟨⟨s₂, out₂⟩, hserve, hpure⟩ := Option.bind_eq_some_iff.mp hrest
        obtain ⟨rfl, -⟩ := Prod.mk.inj (Option.some.inj hpure)
        exact (ih hserve).trans (fetchRow_packed hfetch)

theorem serveSched_packed {ids : List ℤ} {st st' : Store × (ℕ → Phase)}
    {sched : List (ℕ × List Pread)} (h : serveSched ids st sched = some st') :
    st'.1.packed = st.1.packed := by
  have hstep : ∀ {st₁ a st₂}, st₁.1.packed = st.1.packed → serveStep ids st₁ a = some st₂ →
      st₂.1.packed = st.1.packed := by
    rintro ⟨s, phase⟩ a st₂ hsame hstep
    cases serveStep_section hstep with
    | fill => exact (fill_packed _ _ _).trans hsame
    | _ => exact hsame
  exact serveSched_keeps hstep rfl h

end Store

/-- A lookup neither attaches a packed shard nor detaches the one that is there. -/
theorem rowStoreLookup_packed {s s' : Store} {ids : List ℤ} {how : Schedule} {out : List Served}
    (h : rowStoreLookup s ids how = some (s', out)) : s'.packed = s.packed := by
  cases how with
  | serial os => exact Store.serve_packed h
  | pooled sched =>
    obtain ⟨⟨s₁, phase⟩, hrun, hrest⟩ := Option.bind_eq_some_iff.mp h
    obtain ⟨out', -, hpure⟩ := Option.bind_eq_some_iff.mp hrest
    obtain ⟨rfl, -⟩ := Prod.mk.inj (Option.some.inj hpure)
    exact Store.serveSched_packed hrun

/-- After a file was attached the store's packed shard is that file, and the call has returned
true. -/
theorem rowStoreAttachPacked_packed {s s' : Store} {f : File} {layerId : ℕ} {os : List Pread}
    {b : Bool} (h : rowStoreAttachPacked s (some f) layerId os = some (s', b)) :
    s'.packed = some f ∧ b = true := by
  rw [rowStoreAttachPacked.eq_def] at h
  dsimp only at h
  split at h
  · cases h
  · split_ifs at h
    obtain ⟨rfl, rfl⟩ := Prod.mk.inj (Option.some.inj h)
    exact ⟨rfl, rfl⟩

/-- A store that a call leaves without a shard had none before it. -/
theorem Store.call_unpacked {s s' : Store} {c : Call} {out : List Served}
    (h : s.call c = some (s', out)) (hnone : s'.packed = none) : s.packed = none := by
  cases c with
  | range lo hi residentScales allocated os =>
    obtain ⟨s₁, hrange, hpair⟩ := Option.map_eq_some_iff.mp h
    obtain ⟨rfl, -⟩ := Prod.mk.inj hpair
    rwa [← (rowStoreRange_range hrange).2.2]
  | attach shard layerId os =>
    obtain ⟨⟨s₁, b⟩, hattach, hpair⟩ := Option.map_eq_some_iff.mp h
    obtain ⟨rfl, -⟩ := Prod.mk.inj hpair
    cases shard with
    | none =>
      obtain ⟨rfl, -⟩ := Prod.mk.inj (Option.some.inj hattach)
      exact hnone
    | some f =>
      rw [(rowStoreAttachPacked_packed hattach).1] at hnone
      cases hnone
  | lookup ids how => rwa [← rowStoreLookup_packed h]

/-- A store without a shard is sound: there was none that a range was moved under. -/
theorem rowStore_unpacked {t : Table} {s : Store} (hs : (rowStore t).Reach s)
    (hnone : s.packed = none) : s.Sound ∧ s.table = t := by
  refine Machine.Invariant.reach (I := fun s => s.packed = none → s.Sound ∧ s.table = t)
    ⟨?_, ?_⟩ hs hnone
  · rintro s ⟨budget, waysEnv, ram, mapped, hopen⟩ -
    exact ⟨rowStoreOpen_sound hopen, rowStoreOpen_table hopen⟩
  · rintro s c s' ih ⟨hpacked, out, hcall⟩ hnone'
    have hnone := Store.call_unpacked hcall hnone'
    obtain ⟨hsound, htable⟩ := ih hnone
    have hkeeps : c.KeepsShard s := by
      cases c with
      | range lo hi residentScales allocated os =>
        intro f hf
        rw [hnone] at hf
        cases hf
      | attach => trivial
      | lookup => trivial
    obtain ⟨hsound', htable'⟩ := hsound.call hpacked hkeeps hcall
    exact ⟨hsound', htable'.trans htable⟩

/-! ## Attaching the target -/

/-- A file is accepted exactly when its header page can be read, its fields match the store and its
size does. -/
theorem rowStoreAttachPacked_isSome {s : Store} {f : File} {layerId : ℕ} {os : List Pread} :
    (rowStoreAttachPacked s (some f) layerId os).isSome ↔
      (f.pread kPage 0 os).1 = some kPage ∧
      f.packedHeader = ⟨kPackedMagic, layerId, s.rowLo, s.rowHi, s.table.rows, kRowBytes⟩ ∧
      kPackedHeader + (s.rowHi - s.rowLo) * kRowBytes ≤ f.size := by
  rw [rowStoreAttachPacked.eq_def]
  dsimp only
  cases hread : (f.pread kPage 0 os).1 with
  | none => simp
  | some got =>
    have hle : got ≤ kPage := File.pread_le_want (Prod.ext hread rfl)
    dsimp only
    split
    next hshort =>
      have hne : got ≠ kPage := hshort.ne
      simp [hne]
    next hfull =>
      obtain rfl : got = kPage := le_antisymm hle (not_lt.mp hfull)
      split
      next hheader => simp [hheader]
      next hheader =>
        split
        next hsize => simp [Nat.not_le.mpr hsize]
        next hsize => simpa [not_ne_iff.mp hheader] using hsize

/-- Lookups, one after the other. -/
def lookups (s : Store) : Machine Store (List ℤ × Schedule) where
  init s' := s' = s
  step s a s' := ∃ out, rowStoreLookup s a.1 a.2 = some (s', out)

/-- A store that serves its range goes on serving it after any run of lookups. -/
theorem Store.Serves.lookups {s s' : Store} {t : Table} {lo hi : ℕ} (h : s.Serves t lo hi)
    (hs : (lookups s).Reach s') : s'.Serves t lo hi := by
  refine Machine.Invariant.reach (I := fun s => s.Serves t lo hi) ⟨?_, ?_⟩ hs
  · rintro _ rfl
    exact h
  · rintro s ⟨ids, how⟩ s' hserves ⟨out, hlookup⟩
    exact (hserves.lookup hlookup).2

/-- What a shard that was packed owes the store it is attached to: the two stores, with it and
without it, serve the range of the rank alike, now and after any lookups. -/
structure ServesAlike (t : Table) (lo hi : ℕ) (unpacked packed : Store) : Prop where
  /-- a row that is read through the shard is the row of the checkpoint, as one is that is read
  without it -/
  row : ∀ id, lo ≤ id → id < hi → ∀ s, s = unpacked ∨ s = packed → ∀ os row n,
    s.readRow id os = some (row, n) → row = t.weight id ++ t.scale id
  /-- and every lookup serves the same -/
  served : ∀ s₁ s₂, (lookups unpacked).Reach s₁ → (lookups packed).Reach s₂ →
    ∀ ids how₁ how₂ s₁' s₂' out₁ out₂, rowStoreLookup s₁ ids how₁ = some (s₁', out₁) →
      rowStoreLookup s₂ ids how₂ = some (s₂', out₂) →
      out₂ = out₁ ∧ out₂ = ids.map fun id => t.owed lo hi id.toNat

/-- Two stores that serve one range of one table read the same rows and answer every lookup
alike. -/
theorem Store.Serves.alike {t : Table} {lo hi : ℕ} {s s' : Store} (h : s.Serves t lo hi)
    (h' : s'.Serves t lo hi) : ServesAlike t lo hi s s' := by
  refine ⟨fun id hlo hhi r hr os row n hread => ?_,
    fun s₁ s₂ hs₁ hs₂ ids how₁ how₂ s₁' s₂' out₁ out₂ hl₁ hl₂ => ?_⟩
  · have hserves : r.Serves t lo hi := by
      rcases hr with rfl | rfl
      · exact h
      · exact h'
    obtain ⟨hsound, rfl, rfl, rfl⟩ := hserves
    exact hsound.readRow hlo hhi hread
  · have hout₁ := ((h.lookups hs₁).lookup hl₁).1
    have hout₂ := ((h'.lookups hs₂).lookup hl₂).1
    exact ⟨hout₂.trans hout₁.symm, hout₂⟩

/-- **What is asked of a target.** A store of the rank's range that attaches it serves as it did
before. -/
def ShardServes (t : Table) (layer rank tp : ℕ) (f : Bytes) : Prop :=
  ∀ s os s' b, (rowStore t).Reach s → s.packed = none → s.rowLo = rankStart t.rows tp rank →
    s.rowHi = rankStart t.rows tp (rank + 1) →
    rowStoreAttachPacked s (some (.ofBytes f)) layer os = some (s', b) →
      s'.packed = some (.ofBytes f) ∧
        ServesAlike t (rankStart t.rows tp rank) (rankStart t.rows tp (rank + 1)) s s'

/-- The header that the packer writes for a rank. -/
def shardHeader (t : Table) (layer rank tp : ℕ) : PackedHeader :=
  ⟨kPackedMagic, layer, rankStart t.rows tp rank, rankStart t.rows tp (rank + 1), t.rows, kRowBytes⟩

/-- A target that holds the shard, if it has its header, serves. -/
theorem shardServes_of_holds {t : Table} {layer rank tp : ℕ} {f : Bytes}
    (hholds : shardSize t rank tp ≤ f.length →
      (File.ofBytes f).packedHeader = shardHeader t layer rank tp →
      (File.ofBytes f).HoldsShard t) : ShardServes t layer rank tp f := by
  intro s os s' b hs hnone hlo hhi hattach
  obtain ⟨hsound, htable⟩ := rowStore_unpacked hs hnone
  obtain ⟨-, hheader, hsize⟩ := rowStoreAttachPacked_isSome.mp (Option.isSome_of_mem hattach)
  rw [hlo, hhi, htable] at hheader
  rw [File.size_ofBytes, hlo, hhi] at hsize
  obtain ⟨hsound', htable'⟩ := rowStoreAttachPacked_sound hsound
    (fun g hg => Option.some.inj hg ▸ htable ▸ hholds hsize hheader) hattach
  obtain ⟨hlo', hhi'⟩ := rowStoreAttachPacked_range hattach
  have hserves : s.Serves t _ _ := ⟨hsound, htable, hlo, hhi⟩
  have hserves' : s'.Serves t _ _ :=
    ⟨hsound', htable'.trans htable, hlo'.trans hlo, hhi'.trans hhi⟩
  exact ⟨(rowStoreAttachPacked_packed hattach).1, hserves.alike hserves'⟩

/-- A file that torn writes left of the shard holds it when it is as long. -/
theorem StoredShard.holds {t : Table} {layer rank tp : ℕ} {f : Bytes}
    (h : StoredShard t layer rank tp f) (hlen : shardSize t rank tp ≤ f.length) :
    ∃ header, packHeader layer (rankStart t.rows tp rank) (rankStart t.rows tp (rank + 1)) t.rows =
      some header ∧ header <+: f ∧ (File.ofBytes f).HoldsShard t := by
  obtain ⟨header, hheader, hstored⟩ := h
  have hfull : (header ++ shardRows t (rankStart t.rows tp rank)
      (rankStart t.rows tp (rank + 1))).length = shardSize t rank tp := by
    rw [List.length_append, length_packHeader hheader, length_shardRows, shardSize]
  -- no write was torn
  have hwhole := hstored.eq (le_antisymm hstored.le (hfull.trans_le hlen))
  refine ⟨header, hheader, ?_, ?_⟩
  · rw [hwhole]
    exact List.prefix_append _ _
  · rw [hwhole]
    exact holdsShard_ofBytes hheader

/-- A file that the packer stored is therefore attached and serves the range, or it is refused. -/
theorem StoredShard.serves {t : Table} {layer rank tp : ℕ} {f : Bytes}
    (h : StoredShard t layer rank tp f) : ShardServes t layer rank tp f :=
  shardServes_of_holds fun hlen _ =>
    let ⟨_, _, _, hholds⟩ := h.holds hlen
    hholds

/-- There is a store of the rank's range without a shard. -/
theorem exists_unpacked (t : Table) {rank tp : ℕ} (hrank : rank < tp) :
    ∃ s, (rowStore t).Reach s ∧ s.packed = none ∧ s.rowLo = rankStart t.rows tp rank ∧
      s.rowHi = rankStart t.rows tp (rank + 1) := by
  have hopen : ∃ s₀, rowStoreOpen t.file t.rows t.weightOffset t.scaleOffset 0 0 false true =
      some s₀ ∧ s₀.packed = none ∧ s₀.scales = none := by
    rw [rowStoreOpen, dif_pos ⟨⟨t.weight_fits, t.scale_fits⟩, rfl⟩]
    exact ⟨_, rfl, rfl, rfl⟩
  obtain ⟨s₀, hopen, hnone, hscales⟩ := hopen
  have hrange : rankStart t.rows tp rank ≤ rankStart t.rows tp (rank + 1) ∧
      rankStart t.rows tp (rank + 1) ≤ s₀.table.rows := by
    refine ⟨rankStart_le_succ .., ?_⟩
    rw [rowStoreOpen_table hopen]
    exact Nat.div_le_of_le_mul (by rw [Nat.mul_comm]; exact Nat.mul_le_mul_right _ hrank)
  have hmove : ∃ s, rowStoreRange s₀ (rankStart t.rows tp rank) (rankStart t.rows tp (rank + 1))
      false false [] = some s := by
    rw [rowStoreRange, dif_pos hrange, if_neg (by simp [hscales])]
    simp
  obtain ⟨s, hmove⟩ := hmove
  obtain ⟨hlo, hhi, hpacked⟩ := rowStoreRange_range hmove
  have hreach : (rowStore t).Reach s := by
    refine .step (a := .range (rankStart t.rows tp rank) (rankStart t.rows tp (rank + 1)) false
      false []) (.init ⟨0, 0, false, true, hopen⟩) ⟨trivial, [], ?_⟩
    rw [Store.call, hmove, Option.map_some]
  exact ⟨s, hreach, hpacked.trans hnone, hlo, hhi⟩

/-- A direct read inside the file succeeds when the system calls do. -/
theorem readFrom_served {f : File} {off len : ℕ} (h : off + len ≤ f.size) :
    readFrom false f off len [] = some (f.slice off len, []) := by
  have hbase : off / kPage * kPage ≤ off := Nat.div_mul_le_self off kPage
  have hgot : off - off / kPage * kPage + len ≤
      min ((off - off / kPage * kPage + len + kPage - 1) / kPage * kPage)
        (f.size - off / kPage * kPage) := by
    refine le_min ?_ (by omega)
    simp only [kPage]
    omega
  rw [readFrom, if_neg Bool.false_ne_true]
  dsimp only [File.pread]
  rw [if_neg hgot.not_gt, File.take_drop_slice _ hgot, Nat.add_sub_cancel' hbase]

/-- **A target that serves holds the shard**, when it is as long and has its header. The store
that attaches it would read it record by record. -/
theorem ShardServes.holds {t : Table} {layer rank tp : ℕ} {f : Bytes} (hrank : rank < tp)
    (hserves : ShardServes t layer rank tp f) (hlen : f.length = shardSize t rank tp)
    (hheader : (File.ofBytes f).packedHeader = shardHeader t layer rank tp) :
    (File.ofBytes f).HoldsShard t := by
  obtain ⟨s, hs, hnone, hlo, hhi⟩ := exists_unpacked t hrank
  obtain ⟨-, htable⟩ := rowStore_unpacked hs hnone
  have hread : ((File.ofBytes f).pread kPage 0 []).1 = some kPage := by
    have hpage : kPage ≤ f.length := hlen ▸ Nat.le_add_right ..
    simp only [File.pread, File.size_ofBytes, Nat.sub_zero, min_eq_left hpage]
  have hattach := rowStoreAttachPacked_isSome.mpr ⟨hread, by rw [hlo, hhi, htable]; exact hheader,
    by rw [hlo, hhi, File.size_ofBytes]; exact hlen.ge⟩
  obtain ⟨⟨s', b⟩, hattach⟩ := Option.isSome_iff_exists.mp hattach
  obtain ⟨hpacked, halike⟩ := hserves s [] s' b hs hnone hlo hhi hattach
  refine ⟨by rw [hheader, File.size_ofBytes, hlen]; rfl, fun id hid hid' => ?_⟩
  rw [hheader] at hid hid' ⊢
  dsimp only [shardHeader] at hid hid' ⊢
  -- the record of the id is inside the file
  have hin : kPackedHeader + (id - rankStart t.rows tp rank) * kRowBytes + kRowBytes ≤
      (File.ofBytes f).size := by
    have hmul := Nat.mul_le_mul_right kRowBytes
      (show id - rankStart t.rows tp rank + 1 ≤
        rankStart t.rows tp (rank + 1) - rankStart t.rows tp rank by omega)
    rw [File.size_ofBytes, hlen, shardSize]
    rw [Nat.succ_mul] at hmul
    omega
  have hrow : s'.readRow id [] = some ((File.ofBytes f).slice
      (kPackedHeader + (id - rankStart t.rows tp rank) * kRowBytes) kRowBytes, 1) := by
    rw [Store.readRow, hpacked, (rowStoreAttachPacked_range hattach).1, hlo]
    dsimp only
    rw [readFrom_served hin]
    rfl
  exact halike.row id hid hid' s' (.inr rfl) [] _ _ hrow

/-- What an attached file is accepted for, when it begins with the packer's header. -/
theorem attach_iff_of_header {t : Table} {layer lo hi : ℕ} {header f : Bytes}
    (hheader : packHeader layer lo hi t.rows = some header) (hstarts : header <+: f) (s : Store)
    (layerId : ℕ) (os : List Pread) :
    (rowStoreAttachPacked s (some (.ofBytes f)) layerId os).isSome ↔
      ((File.ofBytes f).pread kPage 0 os).1 = some kPage ∧ layerId = layer ∧ s.rowLo = lo ∧
        s.rowHi = hi ∧ s.table.rows = t.rows ∧
        kPackedHeader + (hi - lo) * kRowBytes ≤ f.length := by
  obtain ⟨rest, rfl⟩ := hstarts
  rw [rowStoreAttachPacked_isSome, packedHeader_ofBytes hheader, PackedHeader.mk.injEq]
  constructor
  · rintro ⟨hread, ⟨-, hlayer, hlo, hhi, hrows, -⟩, hsize⟩
    rw [File.size_ofBytes, ← hlo, ← hhi] at hsize
    exact ⟨hread, hlayer.symm, hlo.symm, hhi.symm, hrows.symm, hsize⟩
  · rintro ⟨hread, rfl, hlo, hhi, hrows, hsize⟩
    refine ⟨hread, ⟨rfl, rfl, hlo.symm, hhi.symm, hrows.symm, rfl⟩, ?_⟩
    rw [File.size_ofBytes, hlo, hhi]
    exact hsize

/-- **A packed shard is the rows of the checkpoint, or is refused, unless it was there before.**
After a run that returns, whatever ran before it, the target serves as the checkpoint does if and
only if a target that was there at first, of the expected size and with the header of the rank,
holds the shard of this table. What a run has written itself always serves, torn writes included,
and is the header and the records once it is as long as they are. That header is accepted exactly
by the store of the packer's layer, range and table size, once the whole file is there. -/
theorem packed_lookup_exact (t : Table) (layer : ℕ) {rank tp : ℕ} (hrank : rank < tp)
    (target₀ : Option Bytes) :
    ((∀ target, (packer t layer rank tp target₀).Reach target → ∀ chunkRows os f,
        packLayer t layer rank tp chunkRows target os = some f → ShardServes t layer rank tp f) ↔
      ∀ f₀, target₀ = some f₀ → f₀.length = shardSize t rank tp →
        (File.ofBytes f₀).packedHeader = shardHeader t layer rank tp →
          (File.ofBytes f₀).HoldsShard t) ∧
    (∀ f, (packer t layer rank tp target₀).Reach (some f) → target₀ ≠ some f →
      ShardServes t layer rank tp f ∧ (shardSize t rank tp ≤ f.length → ∃ header,
        packHeader layer (rankStart t.rows tp rank) (rankStart t.rows tp (rank + 1)) t.rows =
          some header ∧ header <+: f)) ∧
    ∀ header f,
      packHeader layer (rankStart t.rows tp rank) (rankStart t.rows tp (rank + 1)) t.rows =
        some header → header <+: f → ∀ s layerId os,
        (rowStoreAttachPacked s (some (.ofBytes f)) layerId os).isSome ↔
          ((File.ofBytes f).pread kPage 0 os).1 = some kPage ∧ layerId = layer ∧
            s.rowLo = rankStart t.rows tp rank ∧ s.rowHi = rankStart t.rows tp (rank + 1) ∧
            s.table.rows = t.rows ∧ shardSize t rank tp ≤ f.length := by
  refine ⟨⟨fun hall f₀ h₀ hlen hheader => ?_, fun hkept target hr chunkRows os f hf => ?_⟩,
    fun f hf hne => ?_, fun header f hheader hstarts => attach_iff_of_header hheader hstarts⟩
  · -- the run keeps the target
    have htp : 0 < tp := Nat.zero_lt_of_lt hrank
    subst h₀
    exact (hall _ (.init rfl) 1 [] f₀ (packLayer_kept htp hlen)).holds hrank hlen hheader
  · rcases packLayer_cases hf with ⟨rfl, hlen⟩ | hstored
    · rcases packer_stored hr with h₀ | ⟨g, hg, hstored⟩
      · exact shardServes_of_holds fun _ => hkept f h₀.symm hlen
      · obtain rfl := Option.some.inj hg
        exact hstored.serves
    · exact hstored.serves
  · rcases packer_stored hf with h₀ | ⟨g, hg, hstored⟩
    · exact absurd h₀.symm hne
    · obtain rfl := Option.some.inj hg
      refine ⟨hstored.serves, fun hlen => ?_⟩
      obtain ⟨header, hheader, hstarts, -⟩ := hstored.holds hlen
      exact ⟨header, hheader, hstarts⟩

/-- A run that tears the header over a target of another size, and a run that repairs it: the
store of both rows attaches the target, and serves with it as without it. -/
theorem packed_lookup_exact_twoRows : ∃ f s s',
    (packer twoRowTable 1 0 1 (some [0, 0])).Reach (some f) ∧ f.length = 4624 ∧
      rowStoreOpen twoRows 2 0 512 0 4 false true = some s ∧
      rowStoreAttachPacked s (some (.ofBytes f)) 1 [] = some (s', true) ∧
      ServesAlike twoRowTable 0 2 s s' := by
  have hpack : ((packLayer twoRowTable 1 0 1 2 (some [0, 0]) [.upTo 100]).bind fun torn =>
      packLayer twoRowTable 1 0 1 1 (some torn) []).map List.length = some 4624 := by
    decide +kernel
  obtain ⟨f, hf, hlen⟩ := Option.map_eq_some_iff.mp hpack
  obtain ⟨torn, htorn, hf⟩ := Option.bind_eq_some_iff.mp hf
  have hreach₀ : (packer twoRowTable 1 0 1 (some [0, 0])).Reach (some [0, 0]) := .init rfl
  have hreach₁ : (packer twoRowTable 1 0 1 (some [0, 0])).Reach (some torn) := by
    have h := packer_run hreach₀ 2 [.upTo 100]
    rwa [htorn] at h
  have hreach₂ : (packer twoRowTable 1 0 1 (some [0, 0])).Reach (some f) := by
    have h := packer_run hreach₁ 1 []
    rwa [hf] at h
  obtain ⟨hserves, hwritten, haccepts⟩ :=
    packed_lookup_exact twoRowTable 1 Nat.one_pos (some [0, 0])
  have hright : ShardServes twoRowTable 1 0 1 f := by
    refine hserves.mpr (fun f₀ h₀ hlen₀ _ => ?_) _ hreach₁ 1 [] f hf
    -- what was there at first has not the size
    obtain rfl := Option.some.inj h₀
    exact absurd hlen₀ (by decide)
  obtain ⟨header, hheader, hstarts⟩ := (hwritten f hreach₂ (by
    rintro h
    rw [← Option.some.inj h] at hlen
    cases hlen)).2 hlen.ge
  have hopen : (rowStoreOpen twoRows 2 0 512 0 4 false true).map
      (fun s => (s.packed.isNone, s.rowLo, s.rowHi)) = some (true, 0, 2) := by
    decide +kernel
  obtain ⟨s, hs, hfields⟩ := Option.map_eq_some_iff.mp hopen
  simp only [Prod.mk.injEq, Option.isNone_iff_eq_none] at hfields
  obtain ⟨hnone, hlo, hhi⟩ := hfields
  have htable : s.table = twoRowTable := rowStoreOpen_table (t := twoRowTable) hs
  have hread : ((File.ofBytes f).pread kPage 0 []).1 = some kPage := by
    rw [File.pread, File.size_ofBytes, hlen]
    rfl
  have hattach := (haccepts header f hheader hstarts s 1 []).mpr
    ⟨hread, rfl, hlo, hhi, by rw [htable], hlen.ge⟩
  obtain ⟨⟨s', b⟩, hattach⟩ := Option.isSome_iff_exists.mp hattach
  obtain ⟨-, rfl⟩ := rowStoreAttachPacked_packed hattach
  exact ⟨f, s, s', hreach₂, hlen, hs, hattach,
    (hright s [] s' true (.init ⟨0, 4, false, true, hs⟩) hnone hlo hhi hattach).2⟩

/-- Another checkpoint of two rows. -/
def otherRowTable : Table := ⟨⟨528, fun _ => 3⟩, 2, 0, 512, by decide, by decide⟩

/-- **The claim fails** where the shard of another checkpoint is at the target: the packer keeps
it for its size, the store accepts it for its header, and serves rows of the other checkpoint. -/
theorem not_packed_lookup_exact : ¬∀ (t : Table) (layer rank tp : ℕ), rank < tp →
    ∀ target₀ target, (packer t layer rank tp target₀).Reach target → ∀ chunkRows os f,
      packLayer t layer rank tp chunkRows target os = some f → ShardServes t layer rank tp f := by
  intro hall
  have hother : (packLayer otherRowTable 1 0 1 2 none []).map (fun f => (f.length,
      decide ((File.ofBytes f).packedHeader = shardHeader twoRowTable 1 0 1),
      (File.ofBytes f).byte kPackedHeader)) = some (4624, true, 3) := by
    decide +kernel
  obtain ⟨f, -, hfields⟩ := Option.map_eq_some_iff.mp hother
  simp only [Prod.mk.injEq, decide_eq_true_eq] at hfields
  obtain ⟨hlen, hheader, hbyte⟩ := hfields
  have hsize : f.length = shardSize twoRowTable 0 1 := hlen
  have hserves := hall twoRowTable 1 0 1 Nat.one_pos (some f) (some f) (.init rfl) 2 [] f
    (packLayer_kept Nat.one_pos hsize)
  have hrow := (hserves.holds Nat.one_pos hsize hheader).row 0
    (by rw [hheader]; exact le_rfl) (by rw [hheader]; decide)
  rw [hheader] at hrow
  -- the first byte of the first record
  have hfirst := congrArg (fun r : Bytes => r.getD 0 0) hrow
  have hget : ((File.ofBytes f).slice kPackedHeader kRowBytes).getD 0 0 =
      (File.ofBytes f).byte kPackedHeader := rfl
  have hone : (twoRowTable.row 0).getD 0 0 = 1 := by decide +kernel
  have heq : (File.ofBytes f).byte kPackedHeader = 1 := (hget.symm.trans hfirst).trans hone
  rw [hbyte] at heq
  exact absurd heq (by decide)

end LuzServing

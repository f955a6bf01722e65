import LuzServing.RowStoreRuns

/-!
# Direct reads and their buffers

The row store reads its files in whole pages: a row goes through a buffer of two pages on the stack,
the scales of a whole range through one of 8 MiB. The offsets in the buffers are not those that were
asked for, at either end, and a `pread` may stop anywhere.

Here the buffers are explicit, and an access outside of one is a fault of its own. No read has one
(`Buffered.readFrom_eq`, `Buffered.pinLoop_eq`): the reads are those of the files alone, as the row
store is modelled on. So a row is exact or the process aborts, and the pinned scales are exact or
the store keeps the fields that it has (`directReads_exact`).
-/

namespace LuzServing

/-! ## Buffers -/

/-- How a call may end without returning. -/
inductive Fault : Type where
  /-- `fail` -/
  | abort
  /-- an access outside of a buffer -/
  | outOfBounds
  deriving DecidableEq

/-- A buffer of the process. -/
structure Buffer : Type where
  /-- its length -/
  size : ℕ
  /-- its bytes -/
  byte : ℕ → UInt8

namespace Buffer

/-- `memcpy` of `len` bytes from `off` on, to the caller. -/
def read (b : Buffer) (off len : ℕ) : Except Fault Bytes :=
  if off + len ≤ b.size then .ok ((List.range len).map fun i => b.byte (off + i))
  else .error .outOfBounds

/-- `memcpy` of `len` bytes from `off` on, to place `dst` of another buffer. -/
def copy (out : Buffer) (dst : ℕ) (b : Buffer) (off len : ℕ) : Except Fault Buffer :=
  if dst + len ≤ out.size ∧ off + len ≤ b.size then
    .ok ⟨out.size, fun i =>
      if dst ≤ i ∧ i < dst + len then b.byte (off + (i - dst)) else out.byte i⟩
  else .error .outOfBounds

end Buffer

/-- The bytes of a file that is mapped as a whole. -/
def File.mapping (f : File) : Buffer := ⟨f.size, f.byte⟩

/-- A buffer after `got` bytes of a file were read into its start. -/
def Buffer.load (b : Buffer) (f : File) (off got : ℕ) : Buffer :=
  ⟨b.size, fun i => if i < got then f.byte (off + i) else b.byte i⟩

/-- The loop around `pread`, of `want` bytes into a buffer. -/
def File.preadInto (f : File) (b : Buffer) (want off : ℕ) (os : List Pread) :
    Except Fault (Option ℕ × Buffer × List Pread) :=
  if b.size < want then .error .outOfBounds
  else
    match f.pread want off os with
    | (none, os) => .ok (none, b, os)
    | (some got, os) => .ok (some got, b.load f off got, os)

/-! ## Reads through buffers -/

/-- The fields that `pin_scales` sets. -/
structure ScaleFields : Type where
  /-- `scales` -/
  scales : Option Buffer
  /-- `scales_size` -/
  scalesSize : ℕ

namespace Buffered

/-- `read_from`, with what its page holds before. -/
def readFrom (resident : Bool) (f : File) (page : ℕ → UInt8) (off len : ℕ) (os : List Pread) :
    Except Fault (Bytes × List Pread) :=
  if resident then do
    let out ← f.mapping.read off len
    pure (out, os)
  else do
    let base := off / kPage * kPage
    let delta := off - base
    let requested := (delta + len + kPage - 1) / kPage * kPage
    let (got, page, os) ← f.preadInto ⟨8192, page⟩ requested base os
    match got with
    | none => throw .abort
    | some got =>
      if got < delta + len then throw .abort
      else
        let out ← page.read delta len
        pure (out, os)

/-- `span` -/
def span : ℕ := 8 * 1024 * 1024

/-- `want`: whole pages up to the end, and at most the buffer. -/
def pinWant (stop offset : ℕ) : ℕ := min span ((stop - offset + kPage - 1) / kPage * kPage)

/-- One pass of the read loop of `pin_scales`: a `pread` of `want` bytes at `offset`, and the copy
of those of its bytes that are scales. -/
def pinRead (f : File) (start stop want offset : ℕ) (buffer out : Buffer) (os : List Pread) :
    Except Fault (Option ℕ × Buffer × Buffer × List Pread) := do
  let (got, buffer, os) ← f.preadInto buffer want offset os
  match got with
  | none => pure (none, buffer, out, os)
  | some got =>
    let lo := max offset start
    let hi := min (offset + got) stop
    if lo < hi then
      let out ← out.copy (lo - start) buffer (lo - offset) (hi - lo)
      pure (some got, buffer, out, os)
    else pure (some got, buffer, out, os)

/-- The read loop of `pin_scales`, which asks for `want offset` bytes; `none` when a read fails or
ends. -/
def pinLoop (f : File) (start stop : ℕ) (want : ℕ → ℕ) (offset : ℕ) (buffer out : Buffer)
    (os : List Pread) : Except Fault (Option Buffer) :=
  if offset < stop then
    match pinRead f start stop (want offset) offset buffer out os with
    | .error fault => .error fault
    | .ok (none, _, _, _) => .ok none
    | .ok (some 0, _, _, _) => .ok none
    | .ok (some (got + 1), buffer, out, os) =>
      pinLoop f start stop want (offset + (got + 1)) buffer out os
  else .ok (some out)
termination_by stop - offset

/-- `pin_scales`: what it returns and the fields that it leaves. `mapped` and `aligned` are the two
allocations, `raw` what the read buffer holds before. -/
def pinScales (s : Store) (fields : ScaleFields) (mapped aligned : Bool) (raw : ℕ → UInt8)
    (os : List Pread) : Except Fault (Bool × ScaleFields) :=
  let count := s.rowHi - s.rowLo
  if count = 0 then .ok (false, fields)
  else
    let bytes := count * kScaleBytes
    if !mapped then .ok (false, fields)
    else
      let out : Buffer := ⟨bytes, fun _ => 0⟩
      let start := s.table.scaleOffset + s.rowLo * kScaleBytes
      let stop := start + bytes
      if s.resident then do
        let out ← out.copy 0 s.table.file.mapping start bytes
        pure (true, ⟨some out, bytes⟩)
      else if !aligned then .ok (false, fields)
      else do
        match ← pinLoop s.table.file start stop (pinWant stop) (start / kPage * kPage) ⟨span, raw⟩
          out os with
        | none => pure (false, fields)
        | some out => pure (true, ⟨some out, bytes⟩)

end Buffered

/-! ## No access is outside of a buffer -/

/-- Bytes that were read into a buffer are those of the file. -/
theorem Buffer.read_load {b : Buffer} {f : File} {base got delta len : ℕ}
    (hgot : delta + len ≤ got) (hsize : delta + len ≤ b.size) :
    (b.load f base got).read delta len = .ok (f.slice (base + delta) len) := by
  rw [read, if_pos (show delta + len ≤ (b.load f base got).size from hsize), File.slice]
  refine congrArg Except.ok (List.map_congr_left fun i hi => ?_)
  have hi := List.mem_range.mp hi
  rw [Nat.add_assoc]
  exact if_pos (by omega)

/-- A buffer is copied into as a whole from a buffer that holds as many bytes from an offset on. -/
theorem Buffer.copy_all (out b : Buffer) {off : ℕ} (h : off + out.size ≤ b.size) :
    ∃ byte : ℕ → UInt8, (∀ i, i < out.size → byte i = b.byte (off + i)) ∧
      out.copy 0 b off out.size = .ok ⟨out.size, byte⟩ := by
  have hcopy : 0 + out.size ≤ out.size ∧ off + out.size ≤ b.size := ⟨(Nat.zero_add _).le, h⟩
  refine ⟨_, fun i hi => ?_, if_pos hcopy⟩
  exact if_pos ⟨Nat.zero_le i, (Nat.zero_add _).symm ▸ hi⟩

namespace Buffered

/-- **A read of a row is the read of the file**: the pages that are asked for fit in the buffer, and
so do the bytes that are copied out. -/
theorem readFrom_eq {resident : Bool} {f : File} {off len : ℕ} (hlen : len ≤ kRowBytes)
    (hmapped : resident = true → off + len ≤ f.size) (page : ℕ → UInt8) (os : List Pread) :
    readFrom resident f page off len os =
      match LuzServing.readFrom resident f off len os with
      | none => .error .abort
      | some read => .ok read := by
  rw [kRowBytes] at hlen
  cases resident with
  | true =>
    rw [readFrom, if_pos rfl, LuzServing.readFrom, if_pos rfl, Buffer.read,
      if_pos (show off + len ≤ f.mapping.size from hmapped rfl)]
    rfl
  | false =>
    have hbase : off / kPage * kPage ≤ off := Nat.div_mul_le_self off kPage
    have hdelta : off - off / kPage * kPage < kPage := by
      have hsplit := Nat.div_add_mod' off kPage
      have hmod := Nat.mod_lt off (show 0 < kPage by decide)
      omega
    have hfits : ¬ 8192 < (off - off / kPage * kPage + len + kPage - 1) / kPage * kPage := by
      rw [kPage] at hdelta ⊢
      omega
    simp only [readFrom, LuzServing.readFrom, Bool.false_eq_true, if_false, File.preadInto,
      if_neg hfits]
    rcases f.pread ((off - off / kPage * kPage + len + kPage - 1) / kPage * kPage)
      (off / kPage * kPage) os with ⟨_ | got, os'⟩
    · rfl
    · by_cases hshort : got < off - off / kPage * kPage + len
      · simp only [if_pos hshort]
        exact if_pos hshort
      · have hgot := Nat.not_lt.mp hshort
        have hroom : off - off / kPage * kPage + len ≤ 8192 := by
          rw [kPage] at hdelta ⊢
          omega
        simp only [if_neg hshort]
        refine (if_neg hshort).trans ?_
        rw [f.take_drop_slice hgot, Buffer.read_load hgot hroom]
        rfl

/-- What a copy of the scales among the bytes read writes is `blit`. -/
theorem copy_load {f : File} {start stop offset got : ℕ} {buffer : Buffer} {out : ℕ → UInt8}
    (hroom : got ≤ buffer.size)
    (hlt : max offset start < min (offset + got) stop) :
    Buffer.copy ⟨stop - start, out⟩ (max offset start - start) (buffer.load f offset got)
      (max offset start - offset) (min (offset + got) stop - max offset start) =
      .ok ⟨stop - start, blit f start (max offset start) (min (offset + got) stop) out⟩ := by
  generalize hlo : max offset start = lo at hlt ⊢
  generalize hhi : min (offset + got) stop = hi at hlt ⊢
  have hbounds : lo - start + (hi - lo) ≤ stop - start ∧ lo - offset + (hi - lo) ≤ buffer.size := by
    omega
  refine (if_pos hbounds).trans (congrArg Except.ok (congrArg (Buffer.mk _) (funext fun i => ?_)))
  have hiff : (lo - start ≤ i ∧ i < lo - start + (hi - lo)) ↔ lo ≤ start + i ∧ start + i < hi := by
    omega
  rw [blit, if_congr hiff rfl rfl]
  by_cases hin : lo ≤ start + i ∧ start + i < hi
  · have hplace : offset + (lo - offset + (i - (lo - start))) = start + i := by omega
    rw [if_pos hin, if_pos hin, ← hplace]
    exact if_pos (by omega)
  · rw [if_neg hin, if_neg hin]

/-- **One pass of the loop** stays in both buffers, and copies the scales among the bytes read. -/
theorem pinRead_eq {f : File} {start stop want offset : ℕ} {buffer : Buffer} {out : ℕ → UInt8}
    {os : List Pread} (hwant : want ≤ buffer.size) :
    pinRead f start stop want offset buffer ⟨stop - start, out⟩ os =
      match f.pread want offset os with
      | (none, os) => .ok (none, buffer, ⟨stop - start, out⟩, os)
      | (some got, os) => .ok (some got, buffer.load f offset got,
          ⟨stop - start, blit f start (max offset start) (min (offset + got) stop) out⟩, os) := by
  rw [pinRead, File.preadInto, if_neg (Nat.not_lt.mpr hwant)]
  rcases hread : f.pread want offset os with ⟨_ | got, os'⟩
  · rfl
  · have hgot := (File.pread_le_want hread).trans hwant
    by_cases hlt : max offset start < min (offset + got) stop
    · refine (if_pos hlt).trans ?_
      rw [copy_load hgot hlt]
      rfl
    · refine (if_neg hlt).trans ?_
      have hnone : blit f start (max offset start) (min (offset + got) stop) out = out :=
        funext fun i => if_neg (by omega)
      dsimp only
      rw [hnone]
      rfl

/-- A pass of the loop as the row store is modelled on. -/
theorem pinLoop_step {f : File} {start stop offset : ℕ} (hlt : offset < stop) (out : ℕ → UInt8)
    (os : List Pread) : LuzServing.pinLoop f start stop offset out os =
      match f.pread (pinWant stop offset) offset os with
      | (none, _) => none
      | (some 0, _) => none
      | (some (got + 1), os) => LuzServing.pinLoop f start stop (offset + (got + 1))
          (blit f start (max offset start) (min (offset + (got + 1)) stop) out) os := by
  rw [LuzServing.pinLoop, if_pos hlt]
  rfl

/-- **The read loop is that of the file**: no pass leaves a buffer. -/
theorem pinLoop_eq (f : File) (start stop offset : ℕ) {buffer : Buffer} (out : ℕ → UInt8)
    (os : List Pread) (hsize : buffer.size = span) :
    pinLoop f start stop (pinWant stop) offset buffer ⟨stop - start, out⟩ os =
      .ok ((LuzServing.pinLoop f start stop offset out os).map (Buffer.mk (stop - start))) := by
  induction h : stop - offset using Nat.strong_induction_on generalizing offset buffer out os with
  | _ n ih =>
    by_cases hlt : offset < stop
    · have hwant : pinWant stop offset ≤ buffer.size := hsize ▸ Nat.min_le_left ..
      rw [pinLoop, if_pos hlt, pinRead_eq hwant, pinLoop_step hlt]
      rcases f.pread (pinWant stop offset) offset os with ⟨_ | _ | got, os'⟩
      · rfl
      · rfl
      · exact ih (stop - (offset + (got + 1))) (by omega) _ _ _ hsize rfl
    · rw [pinLoop, if_neg hlt, LuzServing.pinLoop, if_neg hlt]
      rfl

section
variable (s : Store) (fields : ScaleFields) (aligned : Bool) (raw : ℕ → UInt8) (os : List Pread)

/-- The number of bytes of the owned scales. -/
abbrev scaleBytes : ℕ := (s.rowHi - s.rowLo) * kScaleBytes

/-- The place in the file where the scales of the owned rows begin. -/
abbrev scaleStart : ℕ := s.table.scaleOffset + s.rowLo * kScaleBytes

/-- The scales of the rows that a store owns lie within the file, as `open` has checked. -/
theorem scaleStart_add_le : scaleStart s + scaleBytes s ≤ s.table.file.size := by
  obtain ⟨hoff, hrows⟩ := s.table.scale_fits
  have hrange := s.range_le
  have hfits := (Nat.le_div_iff_mul_le (by decide : 0 < kScaleBytes)).mp hrows
  rw [scaleStart, scaleBytes]
  rw [kScaleBytes] at hfits ⊢
  omega

/-- **`pin_scales` reads the scales of the owned range into a buffer of their length**, or returns
false and sets nothing. -/
theorem pinScales_eq (mapped : Bool) :
    pinScales s fields mapped aligned raw os = .ok (false, fields) ∨
      ∃ m, LuzServing.pinScales s mapped os = some m ∧ ∃ out : ℕ → UInt8,
        (∀ i, i < scaleBytes s → out i = m i) ∧ pinScales s fields mapped aligned raw os =
          .ok (true, ⟨some ⟨scaleBytes s, out⟩, scaleBytes s⟩) := by
  by_cases hcount : s.rowHi - s.rowLo = 0
  · exact .inl (if_pos hcount)
  cases mapped with
  | false => exact .inl (if_neg hcount)
  | true =>
    simp only [pinScales, LuzServing.pinScales, if_neg hcount, Bool.not_true, Bool.false_eq_true,
      if_false]
    by_cases hres : s.resident = true
    · -- the scales are copied out of the mapping at once
      obtain ⟨out, hout, hcopy⟩ := Buffer.copy_all ⟨scaleBytes s, fun _ => 0⟩
        s.table.file.mapping (scaleStart_add_le s)
      rw [if_pos hres, if_pos hres]
      refine .inr ⟨_, rfl, out, hout, ?_⟩
      dsimp only [scaleBytes, scaleStart] at hcopy
      rw [hcopy]
      rfl
    · rw [if_neg hres, if_neg hres]
      cases aligned with
      | false => exact .inl rfl
      | true =>
        have hbytes : scaleStart s + scaleBytes s - scaleStart s = scaleBytes s :=
          Nat.add_sub_cancel_left ..
        have hloop := pinLoop_eq s.table.file (scaleStart s) (scaleStart s + scaleBytes s)
          (scaleStart s / kPage * kPage) (fun _ => 0) os (rfl : (Buffer.mk span raw).size = span)
        rw [hbytes] at hloop
        simp only [Bool.not_true, Bool.false_eq_true, if_false]
        rw [hloop]
        cases LuzServing.pinLoop s.table.file (scaleStart s) (scaleStart s + scaleBytes s)
            (scaleStart s / kPage * kPage) (fun _ => 0) os with
        | none => exact .inl rfl
        | some m => exact .inr ⟨m, rfl, m, fun _ _ => rfl, rfl⟩

end

end Buffered

/-- The scales of an id, out of a buffer that holds those of the owned range. -/
theorem read_of_pinned {t : Table} {lo hi id : ℕ} {m out : ℕ → UInt8}
    (hm : PinnedFor t lo hi m) (hout : ∀ i, i < (hi - lo) * kScaleBytes → out i = m i)
    (hlo : lo ≤ id) (hhi : id < hi) :
    Buffer.read ⟨(hi - lo) * kScaleBytes, out⟩ (kScaleBytes * (id - lo)) kScaleBytes =
      .ok (t.scale id) := by
  have hroom : (id - lo) * kScaleBytes + kScaleBytes ≤ (hi - lo) * kScaleBytes := by
    rw [kScaleBytes]
    omega
  rw [Nat.mul_comm kScaleBytes, Buffer.read, if_pos hroom, ← hm.scale_eq hlo hhi]
  refine congrArg Except.ok (List.map_congr_left fun i hmem => hout _ ?_)
  have hlt := List.mem_range.mp hmem
  omega

/-- **Direct reads are exact or are not served.** Whatever the system calls do, `read_from` aborts
or returns the bytes that were asked for, and `pin_scales` comes back: with the scales of every
owned id, or with the fields as they were. Neither goes outside of a buffer. Of a mapped file only
bytes inside are asked for, which `row_store_open` checks of every row. -/
theorem directReads_exact :
    (∀ (resident : Bool) (f : File) (page : ℕ → UInt8) (off len : ℕ) (os : List Pread),
      len ≤ kRowBytes → (resident = true → off + len ≤ f.size) →
        Buffered.readFrom resident f page off len os = .error .abort ∨
          ∃ os', Buffered.readFrom resident f page off len os = .ok (f.slice off len, os')) ∧
    ∀ (s : Store) (fields : ScaleFields) (mapped aligned : Bool) (raw : ℕ → UInt8)
      (os : List Pread), ∃ pinned fields',
        Buffered.pinScales s fields mapped aligned raw os = .ok (pinned, fields') ∧
        (pinned = true → ∃ scales, fields'.scales = some scales ∧
          fields'.scalesSize = scales.size ∧ scales.size = (s.rowHi - s.rowLo) * kScaleBytes ∧
          ∀ id, s.rowLo ≤ id → id < s.rowHi →
            scales.read (kScaleBytes * (id - s.rowLo)) kScaleBytes = .ok (s.table.scale id)) ∧
        (pinned = false → fields' = fields) := by
  refine ⟨fun resident f page off len os hlen hmapped => ?_,
    fun s fields mapped aligned raw os => ?_⟩
  · rw [Buffered.readFrom_eq hlen hmapped]
    cases hread : readFrom resident f off len os with
    | none => exact .inl rfl
    | some read =>
      obtain ⟨out, os'⟩ := read
      rw [readFrom_eq_some hread]
      exact .inr ⟨os', rfl⟩
  · rcases Buffered.pinScales_eq s fields aligned raw os mapped with
      heq | ⟨m, hm, out, hout, heq⟩
    · exact ⟨_, _, heq, fun h => absurd h Bool.false_ne_true, fun _ => rfl⟩
    · refine ⟨_, _, heq, fun _ => ⟨_, rfl, rfl, rfl, fun id hlo hhi => ?_⟩,
        fun h => absurd h.symm Bool.false_ne_true⟩
      exact read_of_pinned (pinScales_spec hm) hout hlo hhi

/-- A read of the second row that is interrupted once, and a pinning whose reads are interrupted,
end inside the scales, and go on byte by byte: the row and both rows' scales are exact. -/
theorem directReads_exact_twoRows :
    (∃ os', Buffered.readFrom false twoRows (fun _ => 7) 256 256 [.eintr, .upTo 4095] =
      .ok (twoRows.slice 256 256, os')) ∧
    ∃ fields scales, Buffered.pinScales oneWay ⟨none, 0⟩ true true (fun _ => 7)
        [.eintr, .upTo 519, .eintr, .upTo 0] = .ok (true, fields) ∧
      fields.scales = some scales ∧
      ∀ id, id < 2 → scales.read (kScaleBytes * id) kScaleBytes = .ok (twoRowTable.scale id) := by
  constructor
  · refine (directReads_exact.1 false twoRows _ 256 256 _ (by decide) (by decide)).resolve_left ?_
    intro habort
    have hreturns : (Buffered.readFrom false twoRows (fun _ => 7) 256 256
        [.eintr, .upTo 4095]).toOption.isSome = true := by decide +kernel
    rw [habort] at hreturns
    cases hreturns
  · obtain ⟨pinned, fields, hpin, hscales, -⟩ := directReads_exact.2 oneWay ⟨none, 0⟩ true true
      (fun _ => 7) [.eintr, .upTo 519, .eintr, .upTo 0]
    have hpinned : (Buffered.pinScales oneWay ⟨none, 0⟩ true true (fun _ => 7)
        [.eintr, .upTo 519, .eintr, .upTo 0]).toOption.map Prod.fst = some true := by
      decide +kernel
    rw [hpin] at hpinned
    obtain rfl := Option.some.inj hpinned
    obtain ⟨scales, hfields, -, -, hexact⟩ := hscales rfl
    exact ⟨fields, scales, hpin, hfields, fun id hid => hexact id (Nat.zero_le id) hid⟩

end LuzServing

import LuzServing.PartialMaps
import LuzServing.RowStore

/-!
# Lookups over whole runs of the row store

The store is *sound* (`Store.Sound`) when every source it could serve a row
from agrees with the checkpoint: each occupied way holds the row of its key, the
pinned scales are the scale rows of the owned range, and the attached shard is
indexed off the `rowLo` its header names. Soundness is what every lock section
of a lookup keeps, so a lookup is exact in any interleaving of its sections
(`rowStoreLookup_exact`).

`row_store_range` keeps it only where it does not move the range under an
attached shard: it guards the pinned scales, not the shard. `Call.KeepsShard` is
the condition on the call, `lookup_exact` the theorem over runs that meet it,
and `lookup_not_exact` the run that does not.
-/

namespace LuzServing

/-! ## The pinned scales -/

/-- The pinned scales are those of the rows `[lo, hi)`, indexed off `lo`. -/
def PinnedFor (t : Table) (lo hi : ℕ) (scales : ℕ → UInt8) : Prop :=
  ∀ i, i < (hi - lo) * kScaleBytes →
    scales i = t.file.byte (t.scaleOffset + lo * kScaleBytes + i)

/-- The read loop keeps "every byte below `offset` is copied", and ends with
every byte copied. -/
theorem pinLoop_spec {f : File} {start stop : ℕ} {offset : ℕ} {out : ℕ → UInt8}
    {os : List Pread} {m : ℕ → UInt8}
    (hcopied : ∀ i, start + i < offset → start + i < stop → out i = f.byte (start + i))
    (h : pinLoop f start stop offset out os = some m) :
    ∀ i, start + i < stop → m i = f.byte (start + i) := by
  induction offset, out, os using pinLoop.induct f start stop with
  | case1 offset out os hlt span want os' hread =>
    rw [pinLoop, if_pos hlt] at h
    simp only [span, want] at hread
    simp only [hread] at h
    cases h
  | case2 offset out os hlt span want os' hread =>
    rw [pinLoop, if_pos hlt] at h
    simp only [span, want] at hread
    simp only [hread] at h
    cases h
  | case3 offset out os hlt span want got os' hread ih =>
    rw [pinLoop, if_pos hlt] at h
    simp only [span, want] at hread
    simp only [hread] at h
    refine ih ?_ h
    intro i hi hstop
    unfold blit
    by_cases hnew : max offset start ≤ start + i ∧ start + i < min (offset + (got + 1)) stop
    · rw [if_pos hnew]
    · rw [if_neg hnew]
      exact hcopied i (by omega) hstop
  | case4 offset out os hge =>
    rw [pinLoop, if_neg hge] at h
    intro i hi
    rw [← Option.some.inj h]
    exact hcopied i (by omega) hi

/-- When `pin_scales` returns, the scale rows of the owned range are pinned as the table has
them. -/
theorem pinScales_spec {s : Store} {allocated : Bool} {os : List Pread} {m : ℕ → UInt8}
    (h : pinScales s allocated os = some m) : PinnedFor s.table s.rowLo s.rowHi m := by
  intro i hi
  unfold pinScales at h
  simp only at h
  split at h
  · cases h
  · split at h
    · cases h
    · split at h
      · rw [← Option.some.inj h]
      · refine pinLoop_spec ?_ h i (by omega)
        intro j hj
        have := Nat.div_mul_le_self (s.table.scaleOffset + s.rowLo * kScaleBytes) kPage
        omega

/-- The scale row of an owned id, out of the pinned scales. -/
theorem PinnedFor.scale_eq {t : Table} {lo hi : ℕ} {scales : ℕ → UInt8}
    (h : PinnedFor t lo hi scales) {id : ℕ} (hlo : lo ≤ id) (hhi : id < hi) :
    ((List.range kScaleBytes).map fun i => scales ((id - lo) * kScaleBytes + i)) =
      t.scale id := by
  unfold Table.scale File.slice
  refine List.map_congr_left fun i hi => ?_
  have hi' : i < kScaleBytes := List.mem_range.mp hi
  simp only [kScaleBytes] at hi' ⊢
  rw [h _ (by simp only [kScaleBytes]; omega)]
  congr 1
  simp only [kScaleBytes]
  omega

/-! ## Soundness of a store -/

/-- What a lookup of `id` owes under the ownership range `[lo, hi)`: the
checkpoint's bytes inside the range, zeroes outside. -/
def Table.owed (t : Table) (lo hi id : ℕ) : Served :=
  if lo ≤ id ∧ id < hi then (t.weight id, t.scale id) else zeroRow

namespace Store

/-- What a lookup of `id` owes under the store's own range. -/
def expected (s : Store) (id : ℕ) : Served := s.table.owed s.rowLo s.rowHi id

/-- Every source of a row agrees with the checkpoint. -/
structure Sound (s : Store) : Prop where
  /-- an occupied way holds the row of its key -/
  cached : ∀ slot id, s.keys slot = id + 1 → s.cache slot = s.table.row id
  /-- the pinned scales are those of the owned range -/
  pinned : ∀ m, s.scales = some m → PinnedFor s.table s.rowLo s.rowHi m
  /-- the attached shard is indexed off its own first row -/
  shard : ∀ f, s.packed = some f → f.HoldsShard s.table ∧ f.packedHeader.lo = s.rowLo

/-- What no lock section of a lookup changes. -/
structure SameRange (s s' : Store) : Prop where
  /-- the table -/
  table : s'.table = s.table
  /-- the first owned row -/
  rowLo : s'.rowLo = s.rowLo
  /-- the end of the owned range -/
  rowHi : s'.rowHi = s.rowHi

theorem SameRange.refl (s : Store) : s.SameRange s := ⟨rfl, rfl, rfl⟩

theorem SameRange.trans {a b c : Store} (h₁ : a.SameRange b) (h₂ : b.SameRange c) :
    a.SameRange c :=
  ⟨h₂.table.trans h₁.table, h₂.rowLo.trans h₁.rowLo, h₂.rowHi.trans h₁.rowHi⟩

theorem SameRange.expected {s s' : Store} (h : s.SameRange s') (id : ℕ) :
    s'.expected id = s.expected id := by
  simp only [Store.expected, h.table, h.rowLo, h.rowHi]

theorem SameRange.countHit (s : Store) : s.SameRange s.countHit := ⟨rfl, rfl, rfl⟩

theorem SameRange.countMiss (s : Store) (n : ℕ) : s.SameRange (s.countMiss n) := ⟨rfl, rfl, rfl⟩

/-- Counting a hit leaves every source of rows alone, so the store stays sound. -/
theorem Sound.countHit {s : Store} (hs : s.Sound) : s.countHit.Sound :=
  ⟨hs.cached, hs.pinned, hs.shard⟩

/-- Counting misses leaves every source of rows alone, so the store stays sound. -/
theorem Sound.countMiss {s : Store} (hs : s.Sound) (n : ℕ) : (s.countMiss n).Sound :=
  ⟨hs.cached, hs.pinned, hs.shard⟩

/-- A row that a sound store finds in its cache is the row of its id in the table. -/
theorem Sound.probe {s : Store} (hs : s.Sound) {id : ℕ} {row : Bytes}
    (h : s.probe id = some row) : row = s.table.row id := by
  unfold Store.probe at h
  split at h
  · cases h
  · obtain ⟨w, hw, rfl⟩ := Option.map_eq_some_iff.mp h
    exact hs.cached _ _ (by simpa using List.find?_some hw)

/-- A read that does not abort is the row of its id. -/
theorem Sound.readRow {s : Store} (hs : s.Sound) {id n : ℕ} {os : List Pread} {row : Bytes}
    (hlo : s.rowLo ≤ id) (hhi : id < s.rowHi) (h : s.readRow id os = some (row, n)) :
    row = s.table.row id := by
  unfold Store.readRow at h
  split at h
  · rename_i f hf
    obtain ⟨hholds, hbase⟩ := hs.shard f hf
    obtain ⟨⟨row', os'⟩, hread, hrow⟩ := Option.bind_eq_some_iff.mp h
    obtain ⟨rfl, -⟩ := Prod.mk.inj (Option.some.inj hrow)
    -- past the shard's last record the read is short and aborts
    have hend : id < f.packedHeader.hi := by
      have hle := readFrom_le_size (by decide) hread
      rw [hholds.size, ← hbase] at hle
      simp only [kRowBytes] at hle
      omega
    rw [readFrom_eq_some hread, ← hbase]
    exact hholds.row id (hbase ▸ hlo) hend
  · obtain ⟨⟨weight, os₁⟩, hweight, hrest⟩ := Option.bind_eq_some_iff.mp h
    have hw : weight = s.table.weight id := readFrom_eq_some hweight
    simp only at hrest
    split at hrest
    · rename_i scales hscales
      obtain ⟨rfl, -⟩ := Prod.mk.inj (Option.some.inj hrest)
      rw [hw, (hs.pinned scales hscales).scale_eq hlo hhi]
      rfl
    · obtain ⟨⟨scale, os₂⟩, hscale, hrow⟩ := Option.bind_eq_some_iff.mp hrest
      obtain ⟨rfl, -⟩ := Prod.mk.inj (Option.some.inj hrow)
      rw [hw, readFrom_eq_some hscale]
      rfl

theorem SameRange.fill (s : Store) (id : ℕ) (row : Bytes) : s.SameRange (s.fill id row) := by
  unfold Store.fill
  split
  · exact .refl s
  · exact ⟨rfl, rfl, rfl⟩

/-- Filling a way with the row of its id keeps the store sound. -/
theorem Sound.fill {s : Store} (hs : s.Sound) (id : ℕ) : (s.fill id (s.table.row id)).Sound := by
  unfold Store.fill
  split
  · exact hs
  · refine ⟨?_, hs.pinned, hs.shard⟩
    intro slot id' hkey
    simp only [Function.update_apply] at hkey ⊢
    split at hkey
    · rename_i hslot
      rw [if_pos hslot, Nat.succ.inj hkey]
    · rename_i hslot
      rw [if_neg hslot]
      exact hs.cached slot id' hkey

/-- `fetch_row` run alone returns the row and keeps the store sound. -/
theorem Sound.fetchRow {s s' : Store} (hs : s.Sound) {id : ℕ} {os : List Pread} {row : Bytes}
    (hlo : s.rowLo ≤ id) (hhi : id < s.rowHi) (h : s.fetchRow id os = some (row, s')) :
    row = s.table.row id ∧ s'.Sound ∧ s.SameRange s' := by
  unfold Store.fetchRow at h
  split at h
  · rename_i hit hprobe
    obtain ⟨rfl, rfl⟩ := Prod.mk.inj (Option.some.inj h)
    exact ⟨hs.probe hprobe, hs.countHit, .countHit s⟩
  · obtain ⟨⟨row', n⟩, hread, hrest⟩ := Option.bind_eq_some_iff.mp h
    obtain ⟨rfl, rfl⟩ := Prod.mk.inj (Option.some.inj hrest)
    obtain rfl := hs.readRow hlo hhi hread
    exact ⟨rfl, (hs.countMiss n).fill id, (SameRange.countMiss s n).trans (.fill _ _ _)⟩

/-! ## Lookups -/

@[simp] theorem splitRow_row (t : Table) (id : ℕ) :
    splitRow (t.row id) = (t.weight id, t.scale id) := by
  simp [splitRow]

theorem expected_of_owned {s : Store} {id : ℕ} (hlo : s.rowLo ≤ id) (hhi : id < s.rowHi) :
    s.expected id = (s.table.weight id, s.table.scale id) :=
  if_pos ⟨hlo, hhi⟩

theorem expected_of_not_owned {s : Store} {id : ℕ} (h : id < s.rowLo ∨ s.rowHi ≤ id) :
    s.expected id = zeroRow :=
  if_neg (by omega)

/-- The serial loop over the ids of a lookup serves each of them what it is owed. -/
theorem Sound.serve {s : Store} (hs : s.Sound) {ids : List (ℤ × List Pread)} {s' : Store}
    {out : List Served} (h : s.serve ids = some (s', out)) :
    out = ids.map (fun p => s.expected p.1.toNat) ∧ s'.Sound ∧ s.SameRange s' := by
  induction ids generalizing s out with
  | nil =>
    obtain ⟨rfl, rfl⟩ := Prod.mk.inj (Option.some.inj h)
    exact ⟨rfl, hs, .refl s⟩
  | cons p ids ih =>
    obtain ⟨id, os⟩ := p
    rw [Store.serve] at h
    split at h
    · cases h
    · split at h
      · rename_i hout
        obtain ⟨⟨s₁, out₁⟩, hrest, hpure⟩ := Option.bind_eq_some_iff.mp h
        obtain ⟨rfl, rfl⟩ := Prod.mk.inj (Option.some.inj hpure)
        obtain ⟨rfl, hs₁, hsame⟩ := ih hs hrest
        refine ⟨?_, hs₁, hsame⟩
        rw [List.map_cons, expected_of_not_owned hout]
      · rename_i howned
        have hlo : s.rowLo ≤ id.toNat := by omega
        have hhi : id.toNat < s.rowHi := by omega
        obtain ⟨⟨row, s₁⟩, hfetch, hrest⟩ := Option.bind_eq_some_iff.mp h
        obtain ⟨⟨s₂, out₂⟩, hserve, hpure⟩ := Option.bind_eq_some_iff.mp hrest
        obtain ⟨rfl, rfl⟩ := Prod.mk.inj (Option.some.inj hpure)
        obtain ⟨rfl, hs₁, hsame₁⟩ := hs.fetchRow hlo hhi hfetch
        obtain ⟨rfl, hs₂, hsame₂⟩ := ih hs₁ hserve
        refine ⟨?_, hs₂, hsame₁.trans hsame₂⟩
        rw [List.map_cons, expected_of_owned hlo hhi, splitRow_row]
        congr 1
        exact List.map_congr_left fun q _ => hsame₁.expected _

/-! ## The sections of a fetch -/

/-- The id is owned: it is one of the table's rows, and in the store's range. -/
def owns (s : Store) (id : ℤ) : Bool :=
  decide (0 ≤ id) && decide (s.rowLo ≤ id.toNat) && decide (id.toNat < s.rowHi)

theorem owns_iff {s : Store} {id : ℤ} :
    s.owns id = true ↔ (0 ≤ id ∧ s.rowLo ≤ id.toNat) ∧ id.toNat < s.rowHi := by
  simp [owns]

/-- What a section of the thread of index `i` can do. -/
inductive Section (ids : List ℤ) (s : Store) (phase : ℕ → Phase) (i : ℕ) :
    Store × (ℕ → Phase) → Prop where
  /-- nothing is left to do -/
  | idle : Section ids s phase i (s, phase)
  /-- the id is not owned -/
  | zero {id : ℤ} : ids[i]? = some id → phase i = .todo → s.owns id = false →
    Section ids s phase i (s, Function.update phase i (.done zeroRow))
  /-- the probe finds the row -/
  | hit {id : ℤ} {row : Bytes} : ids[i]? = some id → phase i = .todo → s.owns id = true →
    s.probe id.toNat = some row →
    Section ids s phase i (s.countHit, Function.update phase i (.done (splitRow row)))
  /-- it does not -/
  | miss {id : ℤ} : ids[i]? = some id → phase i = .todo → s.owns id = true →
    s.probe id.toNat = none → Section ids s phase i (s, Function.update phase i .missed)
  /-- the row is read, without the lock -/
  | read {id : ℤ} {row : Bytes} {n : ℕ} {os : List Pread} : ids[i]? = some id →
    phase i = .missed → s.readRow id.toNat os = some (row, n) →
    Section ids s phase i (s.countMiss n, Function.update phase i (.holding row))
  /-- the row is filled in -/
  | fill {id : ℤ} {row : Bytes} : ids[i]? = some id → phase i = .holding row →
    Section ids s phase i
      (s.fill id.toNat row, Function.update phase i (.done (splitRow row)))

/-- Whatever step a thread takes in a lookup is one of the sections that are listed. -/
theorem serveStep_section {ids : List ℤ} {s : Store} {phase : ℕ → Phase} {i : ℕ}
    {os : List Pread} {st : Store × (ℕ → Phase)}
    (h : serveStep ids (s, phase) (i, os) = some st) : Section ids s phase i st := by
  simp only [serveStep] at h
  split at h
  next =>
    obtain rfl := Option.some.inj h
    exact .idle
  next id hid =>
    split at h
    next hph =>
      split at h
      next => cases h
      next hrange =>
        have howns : s.owns id = !decide (id.toNat < s.rowLo ∨ s.rowHi ≤ id.toNat) := by
          rw [owns, Bool.eq_iff_iff]
          simp only [Bool.and_eq_true, decide_eq_true_eq, Bool.not_eq_true',
            decide_eq_false_iff_not]
          omega
        split at h
        next hout =>
          obtain rfl := Option.some.inj h
          exact .zero hid hph (by rw [howns, decide_eq_true hout]; rfl)
        next hin =>
          have hown : s.owns id = true := by rw [howns, decide_eq_false hin]; rfl
          split at h
          next row hprobe =>
            obtain rfl := Option.some.inj h
            exact .hit hid hph hown hprobe
          next hprobe =>
            obtain rfl := Option.some.inj h
            exact .miss hid hph hown hprobe
    next hph =>
      obtain ⟨⟨row, n⟩, hread, hpure⟩ := Option.bind_eq_some_iff.mp h
      obtain rfl := Option.some.inj hpure
      exact .read hid hph hread
    next row hph =>
      obtain rfl := Option.some.inj h
      exact .fill hid hph
    next =>
      obtain rfl := Option.some.inj h
      exact .idle

/-- An id that a thread takes up is not negative, since the negative ones are refused before. -/
theorem nonneg_of_serveStep {ids : List ℤ} {s : Store} {phase : ℕ → Phase} {i : ℕ}
    {os : List Pread} {st : Store × (ℕ → Phase)} {id : ℤ} (hid : ids[i]? = some id)
    (hph : phase i = .todo) (h : serveStep ids (s, phase) (i, os) = some st) : 0 ≤ id := by
  simp only [serveStep, hid, hph] at h
  split at h
  next => cases h
  next hrange => omega

/-! ## Lookups in progress -/

/-- What the thread serving index `i` may hold: the row of its id, once it has
read; what it owes, once it is done. -/
def PhaseOk (s : Store) (id : ℕ) : Phase → Prop
  | .todo => True
  | .missed => s.rowLo ≤ id ∧ id < s.rowHi
  | .holding row => (s.rowLo ≤ id ∧ id < s.rowHi) ∧ row = s.table.row id
  | .done out => out = s.expected id

/-- A lookup in progress: the store is sound and every thread holds what its
phase says. -/
structure Serving (ids : List ℤ) (s₀ : Store) (st : Store × (ℕ → Phase)) : Prop where
  /-- the store is sound -/
  sound : st.1.Sound
  /-- the range is the one the lookup began with -/
  same : s₀.SameRange st.1
  /-- each index holds what it should -/
  phase : ∀ i id, ids[i]? = some id → PhaseOk s₀ id.toNat (st.2 i)

/-- Moving one index to a phase it may be in, over a store that keeps the range,
keeps the lookup going. -/
theorem Serving.advance {ids : List ℤ} {s₀ s s' : Store} {phase : ℕ → Phase}
    (h : Serving ids s₀ (s, phase)) {i : ℕ} {id : ℤ} (hid : ids[i]? = some id)
    (hsound : s'.Sound) (hsame : s.SameRange s') {p : Phase} (hp : PhaseOk s₀ id.toNat p) :
    Serving ids s₀ (s', Function.update phase i p) := by
  refine ⟨hsound, h.same.trans hsame, ?_⟩
  intro j id' hid'
  by_cases hj : j = i
  · subst hj
    obtain rfl := Option.some.inj (hid.symm.trans hid')
    simpa using hp
  · simpa [Function.update_of_ne hj] using h.phase j id' hid'

/-- **One section of one thread keeps the lookup going**, whichever index moves. -/
theorem Serving.step {ids : List ℤ} {s₀ : Store} {st st' : Store × (ℕ → Phase)}
    (h : Serving ids s₀ st) {a : ℕ × List Pread} (hstep : serveStep ids st a = some st') :
    Serving ids s₀ st' := by
  obtain ⟨s, phase⟩ := st
  obtain ⟨i, os⟩ := a
  have hlo : s.rowLo = s₀.rowLo := h.same.rowLo
  have hhi : s.rowHi = s₀.rowHi := h.same.rowHi
  have htable : s.table = s₀.table := h.same.table
  have hphase : ∀ id, ids[i]? = some id → PhaseOk s₀ id.toNat (phase i) := h.phase i
  cases serveStep_section hstep with
  | idle => exact h
  | @zero id hid hph hown =>
    apply h.advance hid h.sound (.refl s)
    refine (expected_of_not_owned ?_).symm
    have hpos := nonneg_of_serveStep hid hph hstep
    simp only [owns, Bool.and_eq_false_iff, decide_eq_false_iff_not] at hown
    omega
  | @hit id row hid hph hown hprobe =>
    obtain ⟨howned₁, howned₂⟩ := owns_iff.mp hown
    apply h.advance hid h.sound.countHit (.countHit s)
    rw [h.sound.probe hprobe, htable, PhaseOk, splitRow_row,
      expected_of_owned (hlo ▸ howned₁.2) (hhi ▸ howned₂)]
  | @miss id hid hph hown hprobe =>
    obtain ⟨howned₁, howned₂⟩ := owns_iff.mp hown
    exact h.advance hid h.sound (.refl s) ⟨hlo ▸ howned₁.2, hhi ▸ howned₂⟩
  | @read id row n _ hid hph hread =>
    have howned := hphase id hid
    rw [hph] at howned
    have hrow : row = s.table.row id.toNat :=
      h.sound.readRow (hlo ▸ howned.1) (hhi ▸ howned.2) hread
    exact h.advance hid (h.sound.countMiss n) (.countMiss s n) ⟨howned, htable ▸ hrow⟩
  | @fill id row hid hph =>
    have hrow := hphase id hid
    rw [hph] at hrow
    obtain ⟨howned, rfl⟩ := hrow
    apply h.advance hid _ (SameRange.fill _ _ _)
    · rw [PhaseOk, splitRow_row, expected_of_owned howned.1 howned.2]
    · rw [← htable]
      exact h.sound.fill _

/-- **What every section keeps, a schedule keeps**, by induction on the schedule. -/
theorem serveSched_keeps {ids : List ℤ} {P : Store × (ℕ → Phase) → Prop}
    (hP : ∀ {st a st'}, P st → serveStep ids st a = some st' → P st')
    {st st' : Store × (ℕ → Phase)} {sched : List (ℕ × List Pread)} (h : P st)
    (hrun : serveSched ids st sched = some st') : P st' := by
  induction sched generalizing st with
  | nil =>
    obtain rfl := Option.some.inj hrun
    exact h
  | cons a sched ih =>
    obtain ⟨st₁, hstep, hrest⟩ := Option.bind_eq_some_iff.mp hrun
    exact ih (hP h hstep) hrest

/-- Over a whole schedule of sections the lookup goes on serving each id what it is owed. -/
theorem Serving.sched {ids : List ℤ} {s₀ : Store} {st st' : Store × (ℕ → Phase)}
    {sched : List (ℕ × List Pread)} (h : Serving ids s₀ st)
    (hrun : serveSched ids st sched = some st') : Serving ids s₀ st' :=
  serveSched_keeps (fun h hstep => h.step hstep) h hrun

theorem Serving.start {s : Store} (hs : s.Sound) (ids : List ℤ) :
    Serving ids s (s, fun _ => .todo) :=
  ⟨hs, .refl s, fun _ _ _ => trivial⟩

end Store

/-- **A lookup is exact**, serial or pooled, in any interleaving, and it keeps
the store sound. -/
theorem rowStoreLookup_exact {s s' : Store} (hs : s.Sound) {ids : List ℤ} {how : Schedule}
    {out : List Served} (h : rowStoreLookup s ids how = some (s', out)) :
    out = ids.map (fun id => s.expected id.toNat) ∧ s'.Sound ∧ s.SameRange s' := by
  cases how with
  | serial os =>
    obtain ⟨hout, hs', hsame⟩ := hs.serve h
    refine ⟨?_, hs', hsame⟩
    rw [hout, List.map_map, ← List.zipIdx_map_fst 0 ids, List.map_map]
    simp [Function.comp_def]
  | pooled sched =>
    obtain ⟨⟨s₁, phase⟩, hrun, hrest⟩ := Option.bind_eq_some_iff.mp h
    obtain ⟨out', hmap, hpure⟩ := Option.bind_eq_some_iff.mp hrest
    obtain ⟨rfl, rfl⟩ := Prod.mk.inj (Option.some.inj hpure)
    have hserving := (Store.Serving.start hs ids).sched hrun
    refine ⟨?_, hserving.sound, hserving.same⟩
    have hmapped := eq_map_of_mapM_eq_some (g := fun i => s.expected (ids.getD i 0).toNat) hmap ?_
    · rw [hmapped]
      refine List.ext_getElem (by simp) fun i h₁ h₂ => ?_
      have hi : i < ids.length := by simpa using h₂
      simp [hi]
    · intro i hi x hx
      have hid : ids[i]? = some (ids.getD i 0) := by simp [List.mem_range.mp hi]
      have hok := hserving.phase i _ hid
      simp only at hok
      cases hph : phase i with
      | done served =>
        rw [hph] at hx hok
        rw [← Option.some.inj hx]
        exact hok
      | _ => rw [hph] at hx; cases hx

/-! ## Calls and runs -/

/-- A call on an open store, with what the environment and the system do in it. -/
inductive Call : Type where
  /-- `row_store_range` -/
  | range (lo hi : ℕ) (residentScales allocated : Bool) (os : List Pread)
  /-- `row_store_attach_packed` -/
  | attach (shard : Option File) (layerId : ℕ) (os : List Pread)
  /-- `row_store_lookup` -/
  | lookup (ids : List ℤ) (how : Schedule)

/-- Execute one call: the store after it and the rows a lookup served. -/
def Store.call (s : Store) : Call → Option (Store × List Served)
  | .range lo hi residentScales allocated os =>
    (rowStoreRange s lo hi residentScales allocated os).map fun s' => (s', [])
  | .attach shard layerId os => (rowStoreAttachPacked s shard layerId os).map fun r => (r.1, [])
  | .lookup ids how => rowStoreLookup s ids how

/-- Every shard a call attaches holds the rows its header names: what
`pack_layer` writes. -/
def Call.PackedByTool (t : Table) : Call → Prop
  | .attach (some f) _ _ => f.HoldsShard t
  | _ => True

/-- The call does not move the range under an attached shard: the range still
begins at the row the shard begins at. -/
def Call.KeepsShard (s : Store) : Call → Prop
  | .range lo _ _ _ _ => ∀ f, s.packed = some f → lo = f.packedHeader.lo
  | _ => True

/-- The runs of one store over the table `t`: `row_store_open` with any budget,
way count and mode, then any calls that do not abort. -/
def rowStore (t : Table) : Machine Store Call where
  init s := ∃ budget waysEnv ram mapped,
    rowStoreOpen t.file t.rows t.weightOffset t.scaleOffset budget waysEnv ram mapped = some s
  step s c s' := c.PackedByTool s.table ∧ ∃ out, s.call c = some (s', out)

/-- An open store is sound: nothing is cached, pinned or attached. -/
theorem rowStoreOpen_sound {file : File} {rows woff soff budget waysEnv : ℕ} {ram mapped : Bool}
    {s : Store} (h : rowStoreOpen file rows woff soff budget waysEnv ram mapped = some s) :
    s.Sound := by
  unfold rowStoreOpen at h
  split at h
  · obtain rfl := Option.some.inj h
    exact ⟨fun _ _ hkey => absurd hkey (by simp), fun _ h => by simp at h, fun _ h => by simp at h⟩
  · cases h

theorem rowStoreOpen_table {t : Table} {budget waysEnv : ℕ} {ram mapped : Bool} {s : Store}
    (h : rowStoreOpen t.file t.rows t.weightOffset t.scaleOffset budget waysEnv ram mapped =
      some s) : s.table = t := by
  unfold rowStoreOpen at h
  split at h
  · obtain rfl := Option.some.inj h
    rfl
  · cases h

/-- Attaching a shard the tool wrote keeps the store sound: the header check ties
it to the store's range. -/
theorem rowStoreAttachPacked_sound {s s' : Store} (hs : s.Sound) {shard : Option File}
    {layerId : ℕ} {os : List Pread} {b : Bool}
    (hpacked : ∀ f, shard = some f → f.HoldsShard s.table)
    (h : rowStoreAttachPacked s shard layerId os = some (s', b)) :
    s'.Sound ∧ s'.table = s.table := by
  unfold rowStoreAttachPacked at h
  split at h
  · obtain ⟨rfl, -⟩ := Prod.mk.inj (Option.some.inj h)
    exact ⟨hs, rfl⟩
  · rename_i f
    split at h
    · cases h
    · split at h
      · cases h
      · split at h
        · cases h
        · rename_i hheader
          split at h
          · cases h
          · obtain ⟨rfl, -⟩ := Prod.mk.inj (Option.some.inj h)
            refine ⟨⟨hs.cached, hs.pinned, ?_⟩, rfl⟩
            intro g hg
            obtain rfl := Option.some.inj hg
            have heq := not_ne_iff.mp hheader
            exact ⟨hpacked f rfl, by rw [heq]⟩

/-- A range call keeps the store sound when it does not move the range under an
attached shard: pinned scales are guarded by the call itself. -/
theorem rowStoreRange_sound {s s' : Store} (hs : s.Sound) {lo hi : ℕ}
    {residentScales allocated : Bool} {os : List Pread}
    (hkeeps : ∀ f, s.packed = some f → lo = f.packedHeader.lo)
    (h : rowStoreRange s lo hi residentScales allocated os = some s') :
    s'.Sound ∧ s'.table = s.table := by
  have hshard : ∀ f, s.packed = some f → f.HoldsShard s.table ∧ f.packedHeader.lo = lo :=
    fun f hf => ⟨(hs.shard f hf).1, (hkeeps f hf).symm⟩
  unfold rowStoreRange at h
  split at h
  · split at h
    · cases h
    · rename_i hguard
      simp only at h
      split at h
      · obtain rfl := Option.some.inj h
        exact ⟨⟨hs.cached, fun m hm => pinScales_spec hm, hshard⟩, rfl⟩
      · obtain rfl := Option.some.inj h
        refine ⟨⟨hs.cached, ?_, hshard⟩, rfl⟩
        intro m hm
        -- the scales are pinned, so the guard says that the range is the old one
        have hm' : s.scales = some m := hm
        have hsame : lo = s.rowLo ∧ hi = s.rowHi := by
          rw [hm'] at hguard
          simpa [not_or] using hguard
        have hpinned := hs.pinned m hm'
        rwa [← hsame.1, ← hsame.2] at hpinned
  · cases h

/-- A call that keeps the shard keeps the store sound, over the same table. -/
theorem Store.Sound.call {s s' : Store} (hs : s.Sound) {c : Call} {out : List Served}
    (hpacked : c.PackedByTool s.table) (hkeeps : c.KeepsShard s)
    (h : s.call c = some (s', out)) : s'.Sound ∧ s'.table = s.table := by
  cases c with
  | range lo hi residentScales allocated os =>
    obtain ⟨s₁, hrange, hpair⟩ := Option.map_eq_some_iff.mp h
    obtain ⟨rfl, -⟩ := Prod.mk.inj hpair
    exact rowStoreRange_sound hs hkeeps hrange
  | attach shard layerId os =>
    obtain ⟨⟨s₁, b⟩, hattach, hpair⟩ := Option.map_eq_some_iff.mp h
    obtain ⟨rfl, -⟩ := Prod.mk.inj hpair
    refine rowStoreAttachPacked_sound hs ?_ hattach
    rintro f rfl
    exact hpacked
  | lookup ids how =>
    obtain ⟨-, hs', hsame⟩ := rowStoreLookup_exact hs h
    exact ⟨hs', hsame.table⟩

/-- Every state of a run that keeps the shard is sound. -/
theorem rowStore_sound {t : Table} {s : Store}
    (hs : ((rowStore t).guarded fun s c => c.KeepsShard s).Reach s) : s.Sound ∧ s.table = t := by
  refine Machine.Invariant.reach (I := fun s => s.Sound ∧ s.table = t) ⟨?_, ?_⟩ hs
  · rintro s ⟨budget, waysEnv, ram, mapped, hopen⟩
    exact ⟨rowStoreOpen_sound hopen, rowStoreOpen_table hopen⟩
  · rintro s c s' ⟨hs, htable⟩ ⟨hkeeps, hpacked, out, hcall⟩
    obtain ⟨hs', htable'⟩ := hs.call hpacked hkeeps hcall
    exact ⟨hs', htable'.trans htable⟩

/-- **Lookups are exact over whole runs.** In every run whose range calls do not
move the range under an attached shard, every lookup that does not abort serves
each id its 256 weight bytes and 8 scale bytes inside the range and zeroes
outside, and both shards are indexed off the row they were built for. -/
theorem lookup_exact {t : Table} {s : Store}
    (hs : ((rowStore t).guarded fun s c => c.KeepsShard s).Reach s) :
    (∀ ids how s' out, rowStoreLookup s ids how = some (s', out) →
      out = ids.map fun id => t.owed s.rowLo s.rowHi id.toNat) ∧
    (∀ f, s.packed = some f → f.packedHeader.lo = s.rowLo) ∧
    (∀ m, s.scales = some m → PinnedFor t s.rowLo s.rowHi m) := by
  obtain ⟨hsound, rfl⟩ := rowStore_sound hs
  exact ⟨fun _ _ _ _ h => (rowStoreLookup_exact hsound h).1,
    fun f hf => (hsound.shard f hf).2, hsound.pinned⟩

/-! ### A range moved under the shard

Two rows, packed as one shard of both; then the range moves to the second row
alone. The shard's record of row 1 is now looked for at its beginning, where row
0 is. -/

/-- A checkpoint of two rows: 256 B of ones, 256 B of twos, then the scales. -/
def twoRows : File where
  size := 528
  byte i := if i < 256 ∨ (512 ≤ i ∧ i < 520) then 1 else 2

/-- The shard `pack_layer` writes for rows 0 and 1 of layer 1. -/
def twoRowShard : File where
  size := kPackedHeader + 2 * kRowBytes
  byte i :=
    if i < 48 then
      ([0x44, 0x53, 0x56, 0x31, 0x45, 0x4e, 0x34, 0x31, 1, 0, 0, 0, 0, 0, 0, 0,
        0, 0, 0, 0, 0, 0, 0, 0, 2, 0, 0, 0, 0, 0, 0, 0,
        2, 0, 0, 0, 0, 0, 0, 0, 8, 1, 0, 0, 0, 0, 0, 0] : Bytes).getD i 0
    else if i < kPackedHeader then 0
    else if i < kPackedHeader + kRowBytes then 1 else 2

/-- The table over `twoRows`. -/
def twoRowTable : Table := ⟨twoRows, 2, 0, 512, by decide, by decide⟩

/-- A store over it, whose cache is of one way. -/
def oneWay : Store where
  table := twoRowTable
  resident := false
  rowLo := 0
  rowHi := 2
  range_le := by decide
  sets := 1
  ways := 1
  ways_pos := by decide
  keys _ := 0
  cache _ := []
  victim _ := 0
  scales := none
  packed := none
  hits := 0
  misses := 0
  reads := 0

theorem twoRowShard_header : twoRowShard.packedHeader = ⟨kPackedMagic, 1, 0, 2, 2, 264⟩ := by
  decide +kernel

theorem twoRowShard_holds : twoRowShard.HoldsShard twoRowTable := by
  refine ⟨by decide +kernel, fun id hlo hhi => ?_⟩
  rw [twoRowShard_header] at hhi ⊢
  have hid : id = 0 ∨ id = 1 := by
    simp only at hhi
    omega
  rcases hid with rfl | rfl <;> decide +kernel

/-- Open, attach the shard of both rows, and move the range to `[lo, 2)`. -/
def movedRange (lo : ℕ) : Option Store := do
  let s ← rowStoreOpen twoRows 2 0 512 0 4 false true
  let (s, _) ← rowStoreAttachPacked s (some twoRowShard) 1 []
  rowStoreRange s lo 2 false true []

/-- `movedRange` is a run of the store, guarded as its range call is. -/
theorem movedRange_reach {lo : ℕ} {s : Store} (h : movedRange lo = some s)
    (guard : Store → Call → Prop) (hattach : ∀ s, guard s (.attach (some twoRowShard) 1 []))
    (hrange : ∀ s, s.packed = some twoRowShard → guard s (.range lo 2 false true [])) :
    ((rowStore twoRowTable).guarded guard).Reach s := by
  unfold movedRange at h
  obtain ⟨s₀, hopen, hrest⟩ := Option.bind_eq_some_iff.mp h
  obtain ⟨⟨s₁, b⟩, hatt, hran⟩ := Option.bind_eq_some_iff.mp hrest
  have htable : s₀.table = twoRowTable := rowStoreOpen_table (t := twoRowTable) hopen
  have hpacked : s₁.packed = some twoRowShard := by
    revert hatt
    unfold rowStoreAttachPacked
    simp only
    split
    · simp
    · split_ifs <;> simp only [false_implies, Option.some.injEq, Prod.mk.injEq]
      rintro ⟨rfl, -⟩
      rfl
  have hr₀ : ((rowStore twoRowTable).guarded guard).Reach s₀ := .init ⟨0, 4, false, true, hopen⟩
  have hr₁ : ((rowStore twoRowTable).guarded guard).Reach s₁ := by
    refine hr₀.step (a := .attach (some twoRowShard) 1 []) ⟨hattach s₀, ?_, [], ?_⟩
    · rw [htable]
      exact twoRowShard_holds
    · simp only [Store.call, hatt, Option.map_some]
  refine hr₁.step (a := .range lo 2 false true []) ⟨hrange s₁ hpacked, trivial, [], ?_⟩
  simp only at hran
  simp only [Store.call, hran, Option.map_some]

/-- **The packed shard goes stale**: after a range call moves the range under the
attached shard, a lookup of row 1 serves row 0. -/
theorem lookup_not_exact :
    ∃ s s' out, (rowStore twoRowTable).Reach s ∧
      rowStoreLookup s [1] (.serial []) = some (s', out) ∧
      out = [(List.replicate 256 1, List.replicate 8 1)] ∧
      [twoRowTable.owed s.rowLo s.rowHi 1] = [(List.replicate 256 2, List.replicate 8 2)] := by
  have hrun : ((movedRange 1).bind fun s => (rowStoreLookup s [1] (.serial [])).map fun r =>
      (r.2, s.rowLo, s.rowHi)) =
      some ([(List.replicate 256 1, List.replicate 8 1)], 1, 2) := by
    decide +kernel
  obtain ⟨s, hmoved, hlookup⟩ := Option.bind_eq_some_iff.mp hrun
  obtain ⟨⟨s', out⟩, hlook, hout⟩ := Option.map_eq_some_iff.mp hlookup
  simp only [Prod.mk.injEq] at hout
  obtain ⟨hout, hlo, hhi⟩ := hout
  refine ⟨s, s', out, ?_, hlook, hout, ?_⟩
  · exact (movedRange_reach hmoved (fun _ _ => True) (fun _ => trivial)
      fun _ _ => trivial).of_guarded
  · rw [hlo, hhi]
    decide +kernel

/-- `lookup_exact` on a run that keeps the shard: the range stays `[0, 2)`, and a
lookup of row 1 through the shard serves row 1. -/
theorem lookup_exact_twoRows :
    ∃ s s' out, s.packed.isSome ∧ rowStoreLookup s [1] (.serial []) = some (s', out) ∧
      out = [(List.replicate 256 2, List.replicate 8 2)] := by
  have hrun : ((movedRange 0).bind fun s => (rowStoreLookup s [1] (.serial [])).map fun _ =>
      (s.packed.isSome, s.rowLo, s.rowHi)) = some (true, 0, 2) := by
    decide +kernel
  obtain ⟨s, hmoved, hlookup⟩ := Option.bind_eq_some_iff.mp hrun
  obtain ⟨⟨s', out⟩, hlook, hrange⟩ := Option.map_eq_some_iff.mp hlookup
  simp only [Prod.mk.injEq] at hrange
  obtain ⟨hsome, hlo, hhi⟩ := hrange
  have hreach := movedRange_reach hmoved (fun s c => c.KeepsShard s) (fun _ => trivial)
    fun s hs f hf => by
      obtain rfl := Option.some.inj (hs.symm.trans hf)
      rw [twoRowShard_header]
  refine ⟨s, s', out, hsome, hlook, ?_⟩
  rw [(lookup_exact hreach).1 _ _ _ _ hlook, hlo, hhi]
  decide +kernel

end LuzServing

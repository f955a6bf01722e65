import LuzServing.PairState

/-!
# What a batch does with the pair state

A batch, on either path, reads the partner of a request's first row from the ring, as it was
before the batch, and the partners of the others from the batch. It writes rows of the
requests' own rings, none twice, the last row of a request among them when it is pending
(`PairSpec`).

The torch path reads before it writes. The fused path needs no barrier: the ring is wider
than a verify block, so a block's even positions never fall on the row before its first
(`fused_unseen`).
-/

namespace LuzServing

/-! ## The ring size -/

section

variable (pool : PairPool)

/-- The size is two, or a power of two that is wider than the draft. -/
theorem PairPool.ring_cases : pool.ring = 2 ∧ pool.isSpeculative = false ∨
    pool.ring = 2 ^ (pool.numDraftTokens + 1).size ∧ pool.isSpeculative = true := by
  have hring := pool.ring_eq false false
  cases hspec : pool.isSpeculative with
  | false =>
    rw [hspec] at hring
    exact .inl ⟨(Except.ok.inj hring).symm, rfl⟩
  | true =>
    rw [hspec] at hring
    have hshift : 1 <<< (pool.numDraftTokens + 1).size = pool.ring := Except.ok.inj hring
    rw [Nat.shiftLeft_eq, Nat.one_mul] at hshift
    exact .inr ⟨hshift.symm, rfl⟩

theorem PairPool.ring_even : 2 ∣ pool.ring := by
  rcases pool.ring_cases with ⟨hring, -⟩ | ⟨hring, -⟩
  · rw [hring]
  · rw [hring]
    refine dvd_pow_self 2 (Nat.pos_iff_ne_zero.mp ?_)
    exact Nat.size_pos.mpr (Nat.succ_pos _)

/-- The ring of a speculative pool is wider than a verify block, so a block never overwrites its own
rows. -/
theorem PairPool.draft_lt_ring (h : pool.isSpeculative = true) :
    pool.numDraftTokens + 1 < pool.ring := by
  rcases pool.ring_cases with ⟨-, hspec⟩ | ⟨hring, -⟩
  · rw [h] at hspec
    cases hspec
  · rw [hring]
    exact Nat.lt_size_self _

theorem PairPool.ring_pos : 0 < pool.ring := by
  rcases pool.ring_cases with ⟨hring, -⟩ | ⟨hring, -⟩
  · rw [hring]
    exact Nat.two_pos
  · rw [hring]
    exact Nat.two_pow_pos _

/-- Positions that are less than a ring's width apart have different rows of the ring. -/
theorem mod_window {a b w : ℕ} (ha : a < b + w) (hb : b < a + w) (h : a % w = b % w) : a = b := by
  have hle := Nat.sub_mod_eq_zero_of_mod_eq h
  have hge := Nat.sub_mod_eq_zero_of_mod_eq h.symm
  rw [Nat.mod_eq_of_lt (by omega)] at hle hge
  omega

variable {pool}

/-- A row of the state belongs to one request, and the positions that share it differ by multiples
of the ring. -/
theorem PairPool.slot_inj {r r' pos pos' : ℕ} (h : pool.slot r pos = pool.slot r' pos') :
    r = r' ∧ pos % pool.ring = pos' % pool.ring :=
  mul_add_inj (Nat.mod_lt _ pool.ring_pos) (Nat.mod_lt _ pool.ring_pos) h

theorem PairPool.slot_div (r pos : ℕ) : pool.slot r pos / pool.ring = r := by
  refine Nat.div_eq_of_lt_le (Nat.le_add_right _ _) ?_
  rw [Nat.succ_mul]
  exact Nat.add_lt_add_left (Nat.mod_lt _ pool.ring_pos) _

/-- The rows of a request lie below the dummy row, in the part of the state that is live. -/
theorem PairPool.slot_lt {r : ℕ} (hr : r < pool.numReqSlots) (pos : ℕ) :
    pool.slot r pos < pool.numReqSlots * pool.ring := by
  have hle : (r + 1) * pool.ring ≤ pool.numReqSlots * pool.ring := Nat.mul_le_mul_right _ hr
  rw [Nat.succ_mul] at hle
  exact (Nat.add_lt_add_left (Nat.mod_lt _ pool.ring_pos) _).trans_le hle

theorem PairPool.stateLoc_eq_slot (r pos : ℕ) : pool.stateLoc r (pos : ℤ) = pool.slot r pos :=
  pool.stateLoc_natCast r pos

theorem PairPool.stateLoc_neg (r : ℕ) : pool.stateLoc r (-1) = pool.dummy :=
  pool.stateLoc_of_neg r (-1) (by decide)

end

section

variable {V : Type} {pool : PairPool} {s : PairState V} {b : PairBatch V}

/-! ## The rows of a batch -/

/-- A row of the batch, counted from where its part begins, is the row of the part. -/
theorem PairBatch.row_eq {p j : ℕ} (hp : p < b.numParts) (hj : j < b.lens p) :
    b.row (segStart b.lens p + j) = (b.part p).row j := by
  rw [PairBatch.row, getD_segRows hp hj, Nat.add_sub_cancel_left]

/-- A row that belongs to a request is never taken for padding. -/
theorem isPad_request (hb : b.Allowed pool s) {p r j : ℕ} (hp : p < b.numParts)
    (hr : (b.part p).slot = some r) (hj : j < b.lens p) :
    isPad b.row (segStart b.lens p + j) = false := by
  obtain ⟨o, -, hrows⟩ := hb.tokens p r hp hr
  rw [isPad, b.row_eq hp hj]
  exact beq_eq_false_iff_ne.mpr (hrows j hj).2.2

/-- A row of the batch is taken for padding exactly when its part belongs to no request. -/
theorem isPad_iff (hb : b.Allowed pool s) {p j : ℕ} (hp : p < b.numParts) (hj : j < b.lens p) :
    isPad b.row (segStart b.lens p + j) = true ↔ (b.part p).slot = none := by
  cases hslot : (b.part p).slot with
  | none =>
    rw [isPad, b.row_eq hp hj, hb.padding p hp hslot j hj]
    exact iff_of_true rfl rfl
  | some r =>
    rw [isPad_request hb hp hslot hj]
    exact iff_of_false Bool.false_ne_true nofun

/-- A row of another part is padding, or it belongs to another request. -/
theorem other_part (hb : b.Allowed pool s) {p p' r j' : ℕ} (hp : p < b.numParts)
    (hp' : p' < b.numParts) (hne : p ≠ p') (hr : (b.part p).slot = some r) (hj' : j' < b.lens p') :
    isPad b.row (segStart b.lens p' + j') = true ∨
      (b.row (segStart b.lens p' + j')).req ≠ r := by
  cases hslot : (b.part p').slot with
  | none => exact .inl ((isPad_iff hb hp' hj').mpr hslot)
  | some r' =>
    obtain ⟨o, -, hrows⟩ := hb.tokens p' r' hp' hslot
    refine .inr fun heq => hne ?_
    rw [b.row_eq hp' hj', (hrows j' hj').1] at heq
    exact hb.distinct p p' r hp hp' hr (heq ▸ hslot)

/-! ## What a step does -/

/-- What a batch reads and writes. -/
structure PairSpec (pool : PairPool) (s : PairState V) (b : PairBatch V) (out : PairOut V) :
    Prop where
  /-- a row that follows another one of its request is pooled with it -/
  follows : ∀ p r j, p < b.numParts → (b.part p).slot = some r → 0 < j → j < b.lens p →
    out.partner (segStart b.lens p + j) = ((b.part p).row (j - 1)).value
  /-- a first row is pooled with what the state held before the batch -/
  carried : ∀ p r, p < b.numParts → (b.part p).slot = some r → 0 < b.lens p →
    ∃ loc, out.partner (segStart b.lens p) = s.rows loc ∧
      (0 < ((b.part p).row 0).pos → loc = pool.slot r (((b.part p).row 0).pos - 1))
  /-- the dummy row or a row's own is written -/
  own : ∀ w ∈ out.writes, w.1 = pool.dummy ∨ ∃ p r j, p < b.numParts ∧
    (b.part p).slot = some r ∧ j < b.lens p ∧
    w = (pool.slot r ((b.part p).row j).pos, ((b.part p).row j).value)
  /-- no row of a ring is written twice -/
  distinct : ((out.writes.map Prod.fst).filter fun loc =>
    decide (loc < pool.numReqSlots * pool.ring)).Nodup
  /-- the last rows of a request are written, the pending ones at least -/
  written : ∀ p r j, p < b.numParts → (b.part p).slot = some r → j < b.lens p →
    b.lens p ≤ j + pool.ring → ((b.part p).row j).pos % 2 = 0 →
    (pool.slot r ((b.part p).row j).pos, ((b.part p).row j).value) ∈ out.writes
  /-- the state after the writes -/
  state : out.state = storeAll s.rows out.writes

/-! ## By torch operations -/

/-- The first row of a request has no predecessor of its own in the batch. -/
theorem inBatch_first (hb : b.Allowed pool s) {p r : ℕ} (hp : p < b.numParts)
    (hr : (b.part p).slot = some r) (hpos : 0 < b.lens p) :
    inBatch b.row (segStart b.lens p) = false := by
  rw [Bool.eq_false_iff]
  intro hin
  rw [inBatch, Bool.and_eq_true, Bool.and_eq_true, Bool.and_eq_true, Bool.and_eq_true,
    decide_eq_true_eq, beq_iff_eq, beq_iff_eq, Bool.not_eq_true', Bool.not_eq_true'] at hin
  obtain ⟨⟨⟨⟨hlt, hreq⟩, -⟩, -⟩, hpad⟩ := hin
  have hbefore : segStart b.lens p - 1 < segStart b.lens p := by omega
  obtain ⟨p', hp', j', hj', hprev⟩ := exists_seg hbefore
  obtain ⟨o, -, hrows⟩ := hb.tokens p r hp hr
  have hfirst := b.row_eq hp hpos
  rw [Nat.add_zero] at hfirst
  rw [hprev] at hreq hpad
  rcases other_part hb hp (hp'.trans hp) hp'.ne' hr hj' with hother | hother
  · rw [hpad] at hother
    cases hother
  · rw [← hreq, hfirst, (hrows 0 hpos).1] at hother
    exact hother rfl

/-- Every later row of a request follows a row of the same request in the batch. -/
theorem inBatch_follows (hb : b.Allowed pool s) {p r j : ℕ} (hp : p < b.numParts)
    (hr : (b.part p).slot = some r) (hj0 : 0 < j) (hj : j < b.lens p) :
    inBatch b.row (segStart b.lens p + j) = true ∧
      b.row (segStart b.lens p + j - 1) = (b.part p).row (j - 1) := by
  obtain ⟨o, -, hrows⟩ := hb.tokens p r hp hr
  have hprev : segStart b.lens p + j - 1 = segStart b.lens p + (j - 1) := by omega
  have hprow := b.row_eq hp (by omega : j - 1 < b.lens p)
  obtain ⟨hreq, hpos, -⟩ := hrows j hj
  obtain ⟨hreq', hpos', -⟩ := hrows (j - 1) (by omega)
  rw [inBatch, hprev, isPad_request hb hp hr hj, isPad_request hb hp hr (by omega), b.row_eq hp hj,
    hprow, hreq, hreq', hpos, hpos', decide_eq_true (by omega)]
  refine ⟨?_, rfl⟩
  have hsucc : o.next + j = o.next + (j - 1) + 1 := by omega
  simp [hsucc]

/-- A request's row is kept when it is among the last. -/
theorem keepRow_request (hb : b.Allowed pool s) {p r j : ℕ} (hp : p < b.numParts)
    (hr : (b.part p).slot = some r) (hj : j < b.lens p) :
    keepRow pool b.numRows b.row (segStart b.lens p + j) = true ↔ b.lens p ≤ j + pool.ring := by
  obtain ⟨o, -, hrows⟩ := hb.tokens p r hp hr
  have hreq : (b.row (segStart b.lens p + j)).req = r := by rw [b.row_eq hp hj, (hrows j hj).1]
  rw [keepRow, isPad_request hb hp hr hj, Bool.not_false, Bool.true_and, Bool.or_eq_true,
    Bool.or_eq_true, Bool.not_eq_true', decide_eq_false_iff_not, bne_iff_ne, hreq]
  by_cases hlast : b.lens p ≤ j + pool.ring
  · refine iff_of_true ?_ hlast
    by_cases hlt : segStart b.lens p + j + pool.ring < b.numRows
    · -- the row a ring further is of another part
      obtain ⟨p', hp', j', hj', heq⟩ := exists_seg hlt
      have hne : p ≠ p' := by
        rintro rfl
        omega
      rw [heq]
      exact .inr ((other_part hb hp hp' hne hr hj').symm.imp Ne.symm id)
    · exact .inl hlt
  · refine iff_of_false ?_ hlast
    have hj' : j + pool.ring < b.lens p := not_le.mp hlast
    have hlt : segStart b.lens p + (j + pool.ring) < b.numRows := seg_lt hp hj'
    rw [Nat.add_assoc, isPad_request hb hp hr hj', b.row_eq hp hj', (hrows _ hj').1]
    rintro (hnot | hne | hpad)
    · exact hnot hlt
    · exact hne rfl
    · cases hpad

/-- On the torch path a row writes the slot of its own position, or the dummy row. -/
theorem torch_write (hb : b.Allowed pool s) {p j : ℕ} (hp : p < b.numParts) (hj : j < b.lens p) :
    (∃ r, (b.part p).slot = some r ∧ b.lens p ≤ j + pool.ring ∧
      pool.stateLoc (b.row (segStart b.lens p + j)).req
        (if keepRow pool b.numRows b.row (segStart b.lens p + j) then
          ((b.row (segStart b.lens p + j)).pos : ℤ) else -1) =
        pool.slot r ((b.part p).row j).pos) ∨
    pool.stateLoc (b.row (segStart b.lens p + j)).req
      (if keepRow pool b.numRows b.row (segStart b.lens p + j) then
        ((b.row (segStart b.lens p + j)).pos : ℤ) else -1) = pool.dummy := by
  cases hslot : (b.part p).slot with
  | none =>
    refine .inr ?_
    have hkeep : keepRow pool b.numRows b.row (segStart b.lens p + j) = false := by
      rw [keepRow, (isPad_iff hb hp hj).mpr hslot]
      rfl
    rw [hkeep, if_neg Bool.false_ne_true, PairPool.stateLoc_neg]
  | some r =>
    by_cases hkeep : keepRow pool b.numRows b.row (segStart b.lens p + j) = true
    · obtain ⟨o, -, hrows⟩ := hb.tokens p r hp hslot
      refine .inl ⟨r, rfl, (keepRow_request hb hp hslot hj).mp hkeep, ?_⟩
      rw [if_pos hkeep, PairPool.stateLoc_eq_slot, b.row_eq hp hj, (hrows j hj).1]
    · refine .inr ?_
      rw [if_neg hkeep, PairPool.stateLoc_neg]

/-- **The torch path** does what the specification says of every allowed batch. -/
theorem torch_spec (hb : b.Allowed pool s) :
    PairSpec pool s b (lowRatioPairPartners pool s.rows b.numRows b.row) where
  follows p r j hp hr hj0 hj := by
    obtain ⟨hin, hprev⟩ := inBatch_follows hb hp hr hj0 hj
    rw [lowRatioPairPartners]
    dsimp only
    rw [if_pos hin, hprev]
  carried p r hp hr hpos := by
    obtain ⟨o, -, hrows⟩ := hb.tokens p r hp hr
    have hpad := isPad_request hb hp hr hpos
    have hfirst := b.row_eq hp hpos
    rw [Nat.add_zero] at hpad hfirst
    rw [lowRatioPairPartners]
    dsimp only
    rw [inBatch_first hb hp hr hpos, if_neg Bool.false_ne_true, hpad, if_neg Bool.false_ne_true,
      hfirst, (hrows 0 hpos).1]
    refine ⟨_, rfl, fun hlt => ?_⟩
    rw [← PairPool.stateLoc_eq_slot, Nat.cast_sub hlt]
    rfl
  own w hw := by
    obtain ⟨i, hi, rfl⟩ := List.mem_map.mp hw
    obtain ⟨p, hp, j, hj, rfl⟩ := exists_seg (List.mem_range.mp hi)
    rcases torch_write hb hp hj with ⟨r, hr, -, hloc⟩ | hloc
    · exact .inr ⟨p, r, j, hp, hr, hj, Prod.ext hloc (by rw [b.row_eq hp hj])⟩
    · exact .inl hloc
  distinct := by
    rw [lowRatioPairPartners]
    dsimp only
    rw [List.map_map, List.filter_map]
    refine List.Nodup.map_on (fun i hi i' hi' heq => ?_) (List.nodup_range.filter _)
    obtain ⟨hi, hlive⟩ := List.mem_filter.mp hi
    obtain ⟨hi', hlive'⟩ := List.mem_filter.mp hi'
    obtain ⟨p, hp, j, hj, rfl⟩ := exists_seg (List.mem_range.mp hi)
    obtain ⟨p', hp', j', hj', rfl⟩ := exists_seg (List.mem_range.mp hi')
    simp only [Function.comp_apply, decide_eq_true_eq] at hlive hlive' heq
    have hdummy := pool.dummy_ge
    rcases torch_write hb hp hj with ⟨r, hr, hlast, hloc⟩ | hloc
    · rcases torch_write hb hp' hj' with ⟨r', hr', hlast', hloc'⟩ | hloc'
      · rw [hloc, hloc'] at heq
        obtain ⟨rfl, hmod⟩ := PairPool.slot_inj heq
        obtain rfl := hb.distinct p p' r hp hp' hr hr'
        obtain ⟨o, -, hrows⟩ := hb.tokens p r hp hr
        rw [(hrows j hj).2.1, (hrows j' hj').2.1] at hmod
        have := mod_window (by omega) (by omega) hmod
        omega
      · omega
    · omega
  written p r j hp hr hj hlast _ := by
    obtain ⟨o, -, hrows⟩ := hb.tokens p r hp hr
    refine List.mem_map.mpr ⟨segStart b.lens p + j, List.mem_range.mpr (seg_lt hp hj), ?_⟩
    rw [(keepRow_request hb hp hr hj).mpr hlast, if_pos rfl, PairPool.stateLoc_eq_slot,
      b.row_eq hp hj, (hrows j hj).1]
  state := rfl

/-! ## By the fused kernel -/

/-- The thread block of a request's row writes the slot of its position when the position is
even. -/
theorem fusedWrite_request (hb : b.Allowed pool s) {p r j : ℕ} (hp : p < b.numParts)
    (hr : (b.part p).slot = some r) (hj : j < b.lens p) :
    fusedWrite pool ((b.part p).row j) =
      if ((b.part p).row j).pos % 2 = 0 then
        some (pool.slot r ((b.part p).row j).pos, ((b.part p).row j).value)
      else none := by
  obtain ⟨o, -, hrows⟩ := hb.tokens p r hp hr
  obtain ⟨hreq, -, hloc⟩ := hrows j hj
  rw [fusedWrite, if_neg hloc, hreq]
  rfl

/-- A thread block that writes anything works on a request's row, and writes the slot of its
position. -/
theorem fusedWrite_some (hb : b.Allowed pool s) {p j : ℕ} (hp : p < b.numParts)
    (hj : j < b.lens p) {w : ℕ × V} (hw : fusedWrite pool ((b.part p).row j) = some w) :
    ∃ r, (b.part p).slot = some r ∧
      w = (pool.slot r ((b.part p).row j).pos, ((b.part p).row j).value) := by
  cases hslot : (b.part p).slot with
  | none =>
    rw [fusedWrite, hb.padding p hp hslot j hj] at hw
    split at hw
    · cases hw
    · cases hw
  | some r =>
    rw [fusedWrite_request hb hp hslot hj] at hw
    split at hw
    · exact ⟨r, rfl, (Option.some.inj hw).symm⟩
    · cases hw

variable {draftLen : ℕ} {before : ℕ → List ℕ} {order : List ℕ}

/-- A block of the fused path ends before it comes round to the row before its first. -/
theorem fused_fits (hpath : (PairPath.fused draftLen before order).Allowed pool b) {j : ℕ}
    (hj : j < draftLen) : j + 1 < pool.ring := by
  obtain ⟨-, hone | ⟨hspec, hdraft, -⟩, -⟩ := hpath
  · have := Nat.le_of_dvd pool.ring_pos pool.ring_even
    omega
  · have := pool.draft_lt_ring hspec
    omega

/-- **No barrier is needed**: what a request's first row loads is not written by the batch. -/
theorem fused_unseen (hb : b.Allowed pool s)
    (hpath : (PairPath.fused draftLen before order).Allowed pool b) {p r : ℕ}
    (hp : p < b.numParts) (hr : (b.part p).slot = some r) (hpos : 0 < b.lens p) {seen : List ℕ}
    (hseen : ∀ i ∈ seen, i < b.numRows) :
    storeAll s.rows (seen.filterMap fun i => fusedWrite pool (b.row i))
        (fusedReadRow pool ((b.part p).row 0)) =
      s.rows (fusedReadRow pool ((b.part p).row 0)) := by
  refine storeAll_of_ne fun w hw heq => ?_
  obtain ⟨i, hi, hw⟩ := List.mem_filterMap.mp hw
  obtain ⟨p', hp', j', hj', rfl⟩ := exists_seg (hseen i hi)
  rw [b.row_eq hp' hj'] at hw
  obtain ⟨r', hr', rfl⟩ := fusedWrite_some hb hp' hj' hw
  obtain ⟨o, -, hrows⟩ := hb.tokens p r hp hr
  have hread : fusedReadRow pool ((b.part p).row 0) =
      pool.slot r (((b.part p).row 0).pos + pool.ring - 1) := by
    rw [fusedReadRow, (hrows 0 hpos).1]
    rfl
  rw [hread] at heq
  obtain ⟨rfl, hmod⟩ := PairPool.slot_inj heq
  obtain rfl := hb.distinct p p' r' hp hp' hr hr'
  have hfits := fused_fits hpath (hpath.1 p hp ▸ hj')
  rw [(hrows j' hj').2.1, (hrows 0 hpos).2.1] at hmod
  have := mod_window (by omega) (by omega) hmod
  omega

/-- Two different thread blocks that both write write different rows of the state. -/
theorem fused_distinct (hb : b.Allowed pool s)
    (hpath : (PairPath.fused draftLen before order).Allowed pool b) {i i' : ℕ}
    (hi : i < b.numRows) (hi' : i' < b.numRows) {w w' : ℕ × V}
    (hw : fusedWrite pool (b.row i) = some w) (hw' : fusedWrite pool (b.row i') = some w')
    (heq : w.1 = w'.1) : i = i' := by
  obtain ⟨p, hp, j, hj, rfl⟩ := exists_seg hi
  obtain ⟨p', hp', j', hj', rfl⟩ := exists_seg hi'
  rw [b.row_eq hp hj] at hw
  rw [b.row_eq hp' hj'] at hw'
  obtain ⟨r, hr, rfl⟩ := fusedWrite_some hb hp hj hw
  obtain ⟨r', hr', rfl⟩ := fusedWrite_some hb hp' hj' hw'
  obtain ⟨rfl, hmod⟩ := PairPool.slot_inj heq
  obtain rfl := hb.distinct p p' r hp hp' hr hr'
  obtain ⟨o, -, hrows⟩ := hb.tokens p r hp hr
  have hfits := fused_fits hpath (hpath.1 p hp ▸ hj)
  have hfits' := fused_fits hpath (hpath.1 p hp ▸ hj')
  rw [(hrows j hj).2.1, (hrows j' hj').2.1] at hmod
  have := mod_window (by omega) (by omega) hmod
  omega

/-- **The fused path** runs, and does what the torch path does. -/
theorem fused_spec (hb : b.Allowed pool s)
    (hpath : (PairPath.fused draftLen before order).Allowed pool b) :
    ∃ out, c2Decode pool s.rows b.numRows b.row draftLen before order = .ok out ∧
      PairSpec pool s b out := by
  obtain ⟨hlens, hdraft, hbefore, horder⟩ := id hpath
  have hone : 1 ≤ draftLen := by omega
  by_cases hn : b.numRows = 0
  · -- there is no row at all
    refine ⟨_, if_pos hn, ?_⟩
    have hnone : ∀ p j, p < b.numParts → j < b.lens p → False := by
      intro p j hp hj
      have hlt : segStart b.lens p + j < b.numRows := seg_lt hp hj
      omega
    constructor
    case follows => exact fun p r j hp _ _ hj => (hnone p j hp hj).elim
    case carried => exact fun p r hp _ hpos => (hnone p 0 hp hpos).elim
    case own => exact fun w hw => absurd hw List.not_mem_nil
    case distinct => exact List.nodup_nil
    case written => exact fun p r j hp _ hj => (hnone p j hp hj).elim
    case state => rfl
  · have hmul : b.numRows % draftLen = 0 := by
      rw [PairBatch.numRows, segStart_const hlens]
      exact Nat.mul_mod_left _ _
    have hwide : ¬(1 < draftLen ∧ pool.ring ≤ draftLen) := by
      rintro ⟨hlt, hle⟩
      have := fused_fits hpath (Nat.sub_lt hone Nat.one_pos)
      omega
    rw [c2Decode]
    rw [if_neg hn, if_neg (not_not.mpr ⟨pool.ring_pos, hone⟩), if_neg fun h => h.2 hmul,
      if_neg hwide]
    have hmod : ∀ p j, p < b.numParts → j < b.lens p →
        (segStart b.lens p + j) % draftLen = j := by
      intro p j hp hj
      rw [segStart_const fun p' hp' => hlens p' (hp'.trans hp), Nat.mul_add_mod']
      exact Nat.mod_eq_of_lt (hlens p hp ▸ hj)
    refine ⟨_, rfl, ?_⟩
    constructor
    case follows =>
      intro p r j hp hr hj0 hj
      obtain ⟨-, hprev⟩ := inBatch_follows hb hp hr hj0 hj
      have hlen := hlens p hp
      dsimp only
      rw [hmod p j hp hj, if_pos ⟨by omega, hj0.ne'⟩, hprev]
    case carried =>
      intro p r hp hr hpos
      obtain ⟨o, -, hrows⟩ := hb.tokens p r hp hr
      have hfirst := b.row_eq hp hpos
      have hmod0 := hmod p 0 hp hpos
      rw [Nat.add_zero] at hfirst hmod0
      dsimp only
      rw [hmod0, if_neg fun h => h.2 rfl, hfirst, fused_unseen hb hpath hp hr hpos (hbefore _)]
      refine ⟨_, rfl, fun hlt => ?_⟩
      rw [fusedReadRow, (hrows 0 hpos).1, PairPool.slot, Nat.sub_add_comm hlt, Nat.add_mod_right]
    case own =>
      intro w hw
      obtain ⟨i, hi, hw⟩ := List.mem_filterMap.mp hw
      have hi := List.mem_range.mp (horder.mem_iff.mp hi)
      obtain ⟨p, hp, j, hj, rfl⟩ := exists_seg hi
      rw [b.row_eq hp hj] at hw
      obtain ⟨r, hr, rfl⟩ := fusedWrite_some hb hp hj hw
      exact .inr ⟨p, r, j, hp, hr, hj, rfl⟩
    case distinct =>
      have hnodup : order.Nodup := horder.nodup_iff.mpr List.nodup_range
      refine List.Nodup.filter _ (List.pairwise_map.mpr (List.pairwise_filterMap.mpr ?_))
      refine hnodup.imp_of_mem fun {i i'} hi hi' hne w hw w' hw' heq => hne ?_
      exact fused_distinct hb hpath (List.mem_range.mp (horder.mem_iff.mp hi))
        (List.mem_range.mp (horder.mem_iff.mp hi')) hw hw' heq
    case written =>
      intro p r j hp hr hj _ heven
      refine List.mem_filterMap.mpr ⟨segStart b.lens p + j,
        horder.mem_iff.mpr (List.mem_range.mpr (seg_lt hp hj)), ?_⟩
      rw [b.row_eq hp hj, fusedWrite_request hb hp hr hj, if_pos heven]
    case state => rfl

end

end LuzServing

import LuzServing.DecodePlan
import LuzServing.Segments

/-!
# The decode plan over the steps

Both paths leave the same plan (`planValues`), the legacy one from whatever buffers it has. The
staged one keeps a ring of two slots with buffers of their own (`Ring`): an acquired slot's buffers
are not those of the slot before, whether the ring grows or not, so the views of a step stay until
the step after the next acquires (`host_kept`), and when tokens are needed the device rows are
copied, so that they are the host's (`decode_plan_staged`).
-/

namespace LuzServing

/-! ## The plan of a step -/

/-- What a step leaves, with the entries of its tensors. -/
structure PlanValues : Type where
  /-- `seq_lens_cpu` -/
  seqLensCpu : List ℤ
  /-- `seq_lens_sum` -/
  seqLensSum : ℤ
  /-- `nxt_kv_lens_cpu` -/
  nxtKvLensCpu : List ℤ
  /-- `nxt_kv_lens_sum` -/
  nxtKvLensSum : ℤ
  /-- `max_top_k` -/
  maxTopK : ℤ
  /-- `uniform_top_k_value` -/
  uniformTopKValue : Option ℤ

/-- What a step left, with the entries that a memory has. -/
def PreparedDecode.values (p : PreparedDecode) (m : PlanMemory) : PlanValues where
  seqLensCpu := p.seqLensCpu.host m
  seqLensSum := p.seqLensSum
  nxtKvLensCpu := p.nxtKvLensCpu.host m
  nxtKvLensSum := p.nxtKvLensSum
  maxTopK := p.maxTopK
  uniformTopKValue := p.uniformTopKValue

/-- The `top_k` that all requests have. -/
def commonTopK : List ℤ → Option ℤ
  | [] => none
  | k :: ks => if ∀ k' ∈ ks, k' = k then some k else none

/-- The plan of a step: the committed lengths, the next lengths and the `top_k`s. -/
def planValues (cfg : PlanConfig) (reqs : List DecodeReq) : PlanValues where
  seqLensCpu := reqs.map DecodeReq.committedLen
  seqLensSum := (reqs.map DecodeReq.committedLen).sum
  nxtKvLensCpu := (cfg.lens reqs).2.1
  nxtKvLensSum := (cfg.lens reqs).2.1.sum
  maxTopK := (reqs.map DecodeReq.topK).foldl max 1
  uniformTopKValue := commonTopK (reqs.map DecodeReq.topK)

namespace TopKScan

variable {α : Type} (f : α → ℤ)

/-- The rounds after the first: the greatest, and whether all are the first one's. -/
theorem foldl_later (l : List α) {k : ℕ} (hk : 0 < k) (s : TopKScan) :
    (l.zipIdx k).foldl (fun s p => s.step p.2 (f p.1)) s =
      ⟨(l.map f).foldl max s.maxTopK, s.uniformTopKValue,
        s.uniformTopK && decide (∀ x ∈ l, some (f x) = s.uniformTopKValue)⟩ := by
  induction l generalizing k s with
  | nil => simp
  | cons x l ih =>
    rw [List.zipIdx_cons, List.foldl_cons, ih (Nat.succ_pos k)]
    have hk' : k ≠ 0 := hk.ne'
    have hmax : (if s.maxTopK < f x then f x else s.maxTopK) = max s.maxTopK (f x) := by
      rw [max_def_lt]
    simp only [step, if_neg hk', hmax, List.map_cons, List.foldl_cons, TopKScan.mk.injEq, true_and,
      List.forall_mem_cons]
    by_cases hx : some (f x) = s.uniformTopKValue
    · simp [hx]
    · cases hu : s.uniformTopK <;> simp [hx]

/-- A running maximum never falls below the value that it starts with, whatever the list holds. -/
theorem le_foldl_max (l : List ℤ) (a : ℤ) : a ≤ l.foldl max a := by
  induction l generalizing a with
  | nil => exact le_rfl
  | cons x l ih => exact (le_max_left a x).trans (ih (max a x))

/-- **The loop over the `top_k`s**: the greatest, not less than 1, and the one that all have. -/
theorem foldl_eq (l : List α) :
    (l.zipIdx.foldl (fun s p => s.step p.2 (f p.1)) start).resultMax = (l.map f).foldl max 1 ∧
      (l.zipIdx.foldl (fun s p => s.step p.2 (f p.1)) start).resultUniform =
        commonTopK (l.map f) := by
  cases l with
  | nil => exact ⟨rfl, rfl⟩
  | cons x l =>
    have hfirst : start.step 0 (f x) = ⟨max 1 (f x), some (f x), true⟩ := by
      rw [max_def_lt]
      rfl
    rw [List.zipIdx_cons, List.foldl_cons, hfirst, foldl_later f l (Nat.succ_pos 0)]
    simp only [resultMax, resultUniform, List.map_cons, List.foldl_cons, commonTopK, Bool.true_and,
      Option.some.injEq, List.forall_mem_map, decide_eq_true_eq, and_true]
    exact max_eq_left ((le_max_left 1 (f x)).trans (le_foldl_max _ _))

end TopKScan

/-! ## Reading what is written -/

namespace PlanMemory

variable {m : PlanMemory} {buffer row : ℕ}

theorem writeRow_host (values : List ℤ) : (m.writeRow buffer row values).host =
    Function.update m.host buffer (Function.update (m.host buffer) row fun i =>
      if i < values.length then values.getD i 0 else m.host buffer row i) := rfl

/-- After a row is written, each of its entries is the value that was written there, and past the
values the row is as before. -/
theorem host_writeRow (m : PlanMemory) (buffer row : ℕ) (values : List ℤ) (i : ℕ) :
    (m.writeRow buffer row values).host buffer row i =
      if i < values.length then values.getD i 0 else m.host buffer row i := by
  rw [writeRow_host, Function.update_self, Function.update_self]

/-- Writing a row of one buffer leaves the host memory of every other buffer as it was. -/
theorem host_writeRow_of_ne {b : ℕ} (hb : b ≠ buffer) (values : List ℤ) :
    (m.writeRow buffer row values).host b = m.host b := Function.update_of_ne hb ..

/-- Writing one row of a buffer leaves the other rows of the same buffer as they were. -/
theorem host_writeRow_row {r : ℕ} (hr : r ≠ row) (values : List ℤ) :
    (m.writeRow buffer row values).host buffer r = m.host buffer r := by
  rw [writeRow_host, Function.update_self, Function.update_of_ne hr]

/-- A view of a row that has just been written reads the values that were written, when it is as
long as they are. -/
theorem read_writeRow (m : PlanMemory) {values : List ℤ} {n : ℕ} (hn : values.length = n) :
    (PlanView.mk buffer row n).host (m.writeRow buffer row values) = values := by
  subst hn
  conv_rhs => rw [← map_range_getD values 0]
  refine List.map_congr_left fun i hi => ?_
  rw [host_writeRow, if_pos (List.mem_range.mp hi)]

/-- After a copy to the device, every entry within the copied rows and columns is what the host
holds there. -/
theorem device_copyToDevice (m : PlanMemory) {src dst rows cols i : ℕ} (hrow : row < rows)
    (hi : i < cols) : (m.copyToDevice src dst rows cols).device dst row i = m.host src row i := by
  have hcopy : (m.copyToDevice src dst rows cols).device dst = fun row i =>
      if row < rows ∧ i < cols then m.host src row i else m.device dst row i :=
    Function.update_self ..
  rw [hcopy]
  exact if_pos ⟨hrow, hi⟩

end PlanMemory

/-- Views of buffers that are left alone have the entries they had. -/
theorem PlanView.host_congr {v : PlanView} {m m' : PlanMemory}
    (h : m'.host v.buffer v.row = m.host v.buffer v.row) : v.host m' = v.host m := by
  rw [PlanView.host, PlanView.host, h]

/-! ## The legacy path -/

section Legacy

variable (cpu : PrepareCpuBuffers)

/-- A buffer that every round writes at its number has, after the loop, what the rounds wrote. -/
theorem host_legacyScan (b : ℕ) (value : DecodeReq × ℤ × ℤ → ℤ)
    (hstep : ∀ (s : LegacyScan) p i, (s.step cpu (p, i)).mem.host b 0 =
      Function.update (s.mem.host b 0) i (value p))
    (l : List (DecodeReq × ℤ × ℤ)) (k : ℕ) (s : LegacyScan) (i : ℕ) :
    ((l.zipIdx k).foldl (LegacyScan.step cpu) s).mem.host b 0 i =
      if k ≤ i ∧ i < k + l.length then (l.map value).getD (i - k) 0 else s.mem.host b 0 i := by
  induction l generalizing k s with
  | nil => exact (if_neg (by simp)).symm
  | cons p l ih =>
    rw [List.zipIdx_cons, List.foldl_cons, ih, hstep]
    rcases Nat.lt_trichotomy i k with hlt | rfl | hgt
    · rw [if_neg (by omega), if_neg (by omega), Function.update_of_ne hlt.ne]
    · rw [if_neg (by omega), if_pos ⟨le_rfl, by rw [List.length_cons]; omega⟩,
        Function.update_self, Nat.sub_self]
      rfl
    · have hsub : i - k = i - (k + 1) + 1 := by omega
      rw [Function.update_of_ne hgt.ne', hsub, List.map_cons, List.getD_cons_succ, List.length_cons]
      exact if_congr (by omega) rfl rfl

/-- The view of a buffer that the loop fills one entry a request reads the values of the requests in
order. -/
theorem view_legacyScan (b : ℕ) (value : DecodeReq × ℤ × ℤ → ℤ)
    (hstep : ∀ (s : LegacyScan) p i, (s.step cpu (p, i)).mem.host b 0 =
      Function.update (s.mem.host b 0) i (value p))
    (l : List (DecodeReq × ℤ × ℤ)) (s : LegacyScan) :
    (PlanView.mk b 0 l.length).host (l.zipIdx.foldl (LegacyScan.step cpu) s).mem = l.map value := by
  conv_rhs => rw [← map_range_getD (l.map value) 0, List.length_map]
  refine List.map_congr_left fun i hi => ?_
  have hi : i < l.length := List.mem_range.mp hi
  rw [host_legacyScan cpu b value hstep, if_pos ⟨Nat.zero_le i, by omega⟩, Nat.sub_zero]

/-- What the loop carries besides its buffers: the sums of the lengths over the requests and the
`top_k` flags. -/
theorem legacyScan_rest (l : List (DecodeReq × ℤ × ℤ)) (k : ℕ) (s : LegacyScan) :
    let s' := (l.zipIdx k).foldl (LegacyScan.step cpu) s
    s'.nxtKvLensSum = s.nxtKvLensSum + (l.map fun p => p.2.2).sum ∧
      s'.committedSeqLensSum = s.committedSeqLensSum + (l.map fun p => p.1.committedLen).sum ∧
      s'.topK = (l.zipIdx k).foldl (fun t p => t.step p.2 p.1.1.topK) s.topK := by
  induction l generalizing k s with
  | nil => simp
  | cons p l ih =>
    obtain ⟨hnxt, hcommitted, htopK⟩ := ih (k + 1) (s.step cpu (p, k))
    dsimp only
    rw [List.zipIdx_cons, List.foldl_cons, List.foldl_cons, hnxt, hcommitted, htopK, List.map_cons,
      List.map_cons, List.sum_cons, List.sum_cons, ← add_assoc, ← add_assoc]
    exact ⟨rfl, rfl, rfl⟩

/-- The buffers have the lengths of the requests, and the sums and `top_k`s are theirs. -/
theorem legacyScan_values (reqs : List DecodeReq) {cur nxt : List ℤ}
    (hcur : cur.length = reqs.length) (hnxt : nxt.length = reqs.length) (m : PlanMemory) :
    let s := (reqs.zip (cur.zip nxt)).zipIdx.foldl (LegacyScan.step cpu) ⟨m, 0, 0, TopKScan.start⟩
    (PlanView.mk cpu.seqLens 0 reqs.length).host s.mem = reqs.map DecodeReq.committedLen ∧
      (PlanView.mk cpu.nxtKvLens 0 reqs.length).host s.mem = nxt ∧
      s.committedSeqLensSum = (reqs.map DecodeReq.committedLen).sum ∧ s.nxtKvLensSum = nxt.sum ∧
      s.topK.resultMax = (reqs.map DecodeReq.topK).foldl max 1 ∧
      s.topK.resultUniform = commonTopK (reqs.map DecodeReq.topK) := by
  obtain ⟨hseqCur, hseqNxt, hcurNxt⟩ := cpu.distinct
  have hzip : (cur.zip nxt).length = reqs.length := by
    rw [List.length_zip, hcur, hnxt, min_self]
  have hlen : (reqs.zip (cur.zip nxt)).length = reqs.length := by
    rw [List.length_zip, hzip, min_self]
  have hreqs : (reqs.zip (cur.zip nxt)).map Prod.fst = reqs := List.map_fst_zip hzip.ge
  have hpairs : (reqs.zip (cur.zip nxt)).map Prod.snd = cur.zip nxt := List.map_snd_zip hzip.le
  have hnxts : (reqs.zip (cur.zip nxt)).map (fun p => p.2.2) = nxt := by
    have hsnd : (cur.zip nxt).map Prod.snd = nxt := List.map_snd_zip (hnxt.trans hcur.symm).le
    rw [← hpairs, List.map_map] at hsnd
    exact hsnd
  have hof : ∀ f : DecodeReq → ℤ, (reqs.zip (cur.zip nxt)).map (fun p => f p.1) = reqs.map f := by
    intro f
    conv_rhs => rw [← hreqs, List.map_map]
    rfl
  have hseq := view_legacyScan cpu cpu.seqLens (fun p => p.1.committedLen)
    (fun s p i => by
      simp only [LegacyScan.step, PlanMemory.writeAt, Function.update_self,
        Function.update_of_ne hseqCur, Function.update_of_ne hseqNxt])
    (reqs.zip (cur.zip nxt)) ⟨m, 0, 0, TopKScan.start⟩
  have hnext := view_legacyScan cpu cpu.nxtKvLens (fun p => p.2.2)
    (fun s p i => by
      simp only [LegacyScan.step, PlanMemory.writeAt, Function.update_self,
        Function.update_of_ne hcurNxt.symm, Function.update_of_ne hseqNxt.symm])
    (reqs.zip (cur.zip nxt)) ⟨m, 0, 0, TopKScan.start⟩
  obtain ⟨hnxtSum, hcommittedSum, htopK⟩ :=
    legacyScan_rest cpu (reqs.zip (cur.zip nxt)) 0 ⟨m, 0, 0, TopKScan.start⟩
  obtain ⟨hmax, huniform⟩ :=
    TopKScan.foldl_eq (fun p : DecodeReq × ℤ × ℤ => p.1.topK) (reqs.zip (cur.zip nxt))
  rw [hlen] at hseq hnext
  rw [hof DecodeReq.committedLen] at hseq hcommittedSum
  rw [hnxts] at hnext hnxtSum
  rw [← htopK, hof DecodeReq.topK] at hmax huniform
  refine ⟨hseq, hnext, ?_, ?_, hmax, huniform⟩
  · rw [hcommittedSum, zero_add]
  · rw [hnxtSum, zero_add]

/-- **The legacy path leaves the plan**, whatever buffers the draft input has. -/
theorem legacy_values {cfg : PlanConfig} (hblock : 0 < cfg.blockSize) (s : LegacyState)
    {a : DecodeStep} (hreqs : a.reqs.length ≠ 0) :
    ∃ s' p, prepareForDecodeLegacy cfg s a = .ok (s', some p) ∧
      p.values s'.mem = planValues cfg a.reqs := by
  have hcur := cfg.length_cur a.reqs (2 * cfg.blockSize) cfg.pageSize
  have hnxt := cfg.length_nxt a.reqs (2 * cfg.blockSize) cfg.pageSize
  rw [prepareForDecodeLegacy, if_neg hreqs]
  dsimp only
  rw [if_neg (not_le.mpr hblock)]
  refine ⟨_, _, rfl, ?_⟩
  obtain ⟨hseq, hnext, hcommittedSum, hnxtSum, hmax, huniform⟩ :=
    legacyScan_values (ensurePrepareLengthBuffers s a.reqs.length).1 a.reqs hcur hnxt
      (ensurePrepareLengthBuffers s a.reqs.length).2.2
  rw [PreparedDecode.values, planValues, PlanValues.mk.injEq]
  exact ⟨hseq, hcommittedSum, hnext, hnxtSum, hmax, huniform⟩

end Legacy

/-! ## The ring -/

namespace DecodePlanStaging

/-- The buffers of the ring are there, and each slot has its own. -/
structure Ring (st : DecodePlanStaging) (next : ℕ) : Prop where
  /-- the slot is one of the ring -/
  slot_lt : st.slot < ringDepth
  /-- there are device rows -/
  gpu : ∃ gpu, st.lensGpu = some gpu
  /-- the buffers of the committed lengths have been made -/
  seqLens_lt : ∀ k, k < ringDepth → st.hostSeqLens k < next
  /-- those of the other lengths, too -/
  lens_lt : ∀ k, k < ringDepth → st.hostLens k < next
  /-- none is for both -/
  seqLens_ne_lens : ∀ j k, j < ringDepth → k < ringDepth → st.hostSeqLens j ≠ st.hostLens k
  /-- the slots have buffers of their own for the committed lengths -/
  seqLens_ne : ∀ j k, j < ringDepth → k < ringDepth → j ≠ k → st.hostSeqLens j ≠ st.hostSeqLens k
  /-- and for the others -/
  lens_ne : ∀ j k, j < ringDepth → k < ringDepth → j ≠ k → st.hostLens j ≠ st.hostLens k

/-- The views of the current slot's buffers, for a batch of this size. -/
def rows (st : DecodePlanStaging) (bs : ℕ) : DecodePlanHostRows where
  seqLens := ⟨st.hostSeqLens st.slot, 0, bs⟩
  curKvLens := ⟨st.hostLens st.slot, planRowCurKvLens, bs⟩
  nxtKvLens := ⟨st.hostLens st.slot, planRowNxtKvLens, bs⟩

/-- The buffer is one of those of the current slot. -/
def Current (st : DecodePlanStaging) (b : ℕ) : Prop :=
  b = st.hostSeqLens st.slot ∨ b = st.hostLens st.slot

/-- What an acquired slot is: views of buffers of its own, in a ring with room. -/
structure Acquired (st : DecodePlanStaging) (m : PlanMemory) (bs : ℕ) (host : DecodePlanHostRows)
    (st' : DecodePlanStaging) (m' : PlanMemory) : Prop where
  /-- the views are of the slot -/
  rows_eq : host = st'.rows bs
  /-- the ring is one -/
  ring : st'.Ring m'.next
  /-- it has room for the step -/
  capacity : bs ≤ st'.capacity
  /-- buffers are only added -/
  next_le : m.next ≤ m'.next
  /-- the buffers that there were keep what they hold -/
  host_eq : ∀ b, b < m.next → m'.host b = m.host b
  /-- those of the slot before are not acquired -/
  fresh : st.Ring m.next → ∀ b, st.Current b → ¬ st'.Current b

variable {st : DecodePlanStaging} {m : PlanMemory} {bs : ℕ}

/-- The buffers of the current slot have been allocated, so their numbers are below the next free
one. -/
theorem Ring.lt_of_current {next b : ℕ} (h : st.Ring next) (hb : st.Current b) : b < next := by
  rcases hb with rfl | rfl
  · exact h.seqLens_lt _ h.slot_lt
  · exact h.lens_lt _ h.slot_lt

/-- The next slot of the ring is a slot of the ring, and it is another one than the current slot. -/
theorem nextSlot_ne (slot : ℕ) :
    (slot + 1) % ringDepth < ringDepth ∧ (slot + 1) % ringDepth ≠ slot := by
  simp only [ringDepth]
  omega

/-- The staging with the next slot. -/
def advance (st : DecodePlanStaging) : DecodePlanStaging :=
  { st with slot := (st.slot + 1) % ringDepth }

/-- Advancing keeps the ring a ring, and the next slot shares no buffer with the slot that was
current. -/
theorem Ring.advance {next : ℕ} (h : st.Ring next) :
    st.advance.Ring next ∧ ∀ b, st.Current b → ¬ st.advance.Current b := by
  obtain ⟨hlt, hne⟩ := nextSlot_ne st.slot
  refine ⟨⟨hlt, h.gpu, h.seqLens_lt, h.lens_lt, h.seqLens_ne_lens, h.seqLens_ne, h.lens_ne⟩, ?_⟩
  rintro b (rfl | rfl) (hb | hb)
  · exact h.seqLens_ne _ _ h.slot_lt hlt hne.symm hb
  · exact h.seqLens_ne_lens _ _ h.slot_lt hlt hb
  · exact h.seqLens_ne_lens _ _ hlt h.slot_lt hb.symm
  · exact h.lens_ne _ _ h.slot_lt hlt hne.symm hb

/-- Growing makes a ring whose buffers are all new, so none of them was in use before. -/
theorem grow_ring (st : DecodePlanStaging) (m : PlanMemory) (bs : ℕ) :
    (st.grow m bs).1.advance.Ring (st.grow m bs).2.next ∧
      ∀ b, (st.grow m bs).1.advance.Current b → m.next ≤ b := by
  have hlt : (st.slot + 1) % ringDepth < ringDepth := Nat.mod_lt _ (by decide)
  refine ⟨⟨hlt, ⟨_, rfl⟩, ?_, ?_, ?_, ?_, ?_⟩, ?_⟩
  · intro k hk
    change m.next + k < m.next + 2 * ringDepth + 1
    omega
  · intro k hk
    change m.next + ringDepth + k < m.next + 2 * ringDepth + 1
    omega
  · intro j k hj _ h
    have h : m.next + j = m.next + ringDepth + k := h
    omega
  · intro j k _ _ hne h
    exact hne (Nat.add_left_cancel h)
  · intro j k _ _ hne h
    exact hne (Nat.add_left_cancel h)
  · rintro b (rfl | rfl)
    · exact Nat.le_add_right ..
    · exact (Nat.le_add_right ..).trans (Nat.le_add_right ..)

/-- Growing allocates buffers and leaves alone what the buffers that were there hold on the host. -/
theorem grow_host (st : DecodePlanStaging) (m : PlanMemory) (bs : ℕ) {b : ℕ} (hb : b < m.next) :
    (st.grow m bs).2.host b = m.host b := by
  have hfirst : b ≠ m.next + ringDepth + 0 := by omega
  have hsecond : b ≠ m.next + ringDepth + 1 := by omega
  exact (Function.update_of_ne hsecond ..).trans (Function.update_of_ne hfirst ..)

/-- **What `acquire` does** when it returns: one lemma for the ring that fits and the ring that has
to grow. -/
theorem acquired_of_ok (hst : st.capacity = 0 ∨ st.Ring m.next) (hbs : 0 < bs) {drained : Bool}
    {host : DecodePlanHostRows} {st' : DecodePlanStaging} {m' : PlanMemory}
    (h : st.acquire m bs drained = .ok (host, st', m')) : Acquired st m bs host st' m' := by
  rw [acquire] at h
  by_cases hcap : st.capacity < bs
  · rw [if_pos hcap] at h
    obtain ⟨rfl, rfl, rfl⟩ : (st.grow m bs).1.advance.rows bs = host ∧
        (st.grow m bs).1.advance = st' ∧ (st.grow m bs).2 = m' := by
      have hout := Except.ok.inj h
      rw [Prod.mk.injEq, Prod.mk.injEq] at hout
      exact hout
    obtain ⟨hring, hnew⟩ := grow_ring st m bs
    refine ⟨rfl, hring, le_max_left .., ?_, fun b hb => grow_host st m bs hb, ?_⟩
    · exact Nat.le_add_right_of_le (Nat.le_add_right ..)
    · exact fun hold b hb hb' => absurd (hold.lt_of_current hb) (not_lt.mpr (hnew b hb'))
  · rw [if_neg hcap] at h
    dsimp only at h
    by_cases hguard : (st.slotCopied ((st.slot + 1) % ringDepth) && !drained) = true
    · rw [if_pos hguard] at h
      cases h
    · rw [if_neg hguard] at h
      obtain ⟨rfl, rfl, rfl⟩ : st.advance.rows bs = host ∧ st.advance = st' ∧ m = m' := by
        have hout := Except.ok.inj h
        rw [Prod.mk.injEq, Prod.mk.injEq] at hout
        exact hout
      have hring : st.Ring m.next := hst.resolve_left fun hzero => hcap (hzero ▸ hbs)
      exact ⟨rfl, hring.advance.1, not_lt.mp hcap, le_rfl, fun _ _ => rfl,
        fun _ => hring.advance.2⟩

/-- An `acquire` does not raise when the copy that last read the slot has drained, whatever the
batch. -/
theorem acquire_drained (st : DecodePlanStaging) (m : PlanMemory) (bs : ℕ) :
    ∃ r, st.acquire m bs true = .ok r := by
  rw [acquire]
  dsimp only
  rw [Bool.not_true, Bool.and_false, if_neg Bool.false_ne_true]
  exact ⟨_, rfl⟩

/-- What `ship` leaves: the host's memory is not touched, and neither are the ring and its slot;
when tokens are needed, the device rows are the slot's. -/
structure Shipped (st : DecodePlanStaging) (m : PlanMemory) (bs : ℕ) (numNeededTokens : ℤ)
    (device : DecodePlanDeviceRows) (st' : DecodePlanStaging) (m' : PlanMemory) : Prop where
  /-- the host's memory stays -/
  host_eq : m'.host = m.host
  /-- no buffer is added -/
  next_eq : m'.next = m.next
  /-- the ring stays one -/
  ring : st.Ring m.next → st'.Ring m'.next
  /-- its slot stays -/
  current : ∀ b, st'.Current b ↔ st.Current b
  /-- the device rows are the slot's when tokens are needed -/
  device_eq : 0 < numNeededTokens → bs ≤ st.capacity →
    device.curKvLens.device m' = (st.rows bs).curKvLens.host m ∧
      device.nxtKvLens.device m' = (st.rows bs).nxtKvLens.host m

/-- **What `ship` does** in a ring: it returns, and what it leaves on the device is the view of the
host rows. -/
theorem shipped_of_ring (hring : st.Ring m.next) (bs : ℕ) (numNeededTokens : ℤ)
    (reqIds : List String) (checking useEvents : Bool) :
    ∃ device st' m', st.ship m bs numNeededTokens reqIds checking useEvents =
      .ok (device, st', m') ∧ Shipped st m bs numNeededTokens device st' m' := by
  obtain ⟨gpu, hgpu⟩ := hring.gpu
  have hring' := hring
  obtain ⟨hslot, -, hseq, hlens, hapart, hseqNe, hlensNe⟩ := hring'
  rw [ship.eq_def, hgpu]
  dsimp only
  by_cases hdirty : (st.deviceStale || decide (0 < numNeededTokens) ||
      some reqIds != st.shippedReqIds || checking) = true
  · rw [if_pos hdirty]
    refine ⟨_, _, _, rfl, rfl, rfl, fun _ => ⟨hslot, ⟨gpu, rfl⟩, hseq, hlens, hapart, hseqNe,
      hlensNe⟩, fun _ => Iff.rfl, fun _ hbs => ?_⟩
    have hrow : ∀ row, row < planRows →
        (PlanView.mk gpu row bs).device (m.copyToDevice (st.hostLens st.slot) gpu planRows
          st.capacity) = (PlanView.mk (st.hostLens st.slot) row bs).host m := by
      intro row hrow
      refine List.map_congr_left fun i hi => ?_
      exact m.device_copyToDevice hrow ((List.mem_range.mp hi).trans_le hbs)
    exact ⟨hrow planRowCurKvLens (by decide), hrow planRowNxtKvLens (by decide)⟩
  · rw [if_neg hdirty]
    refine ⟨_, _, _, rfl, rfl, rfl, fun _ => ⟨hslot, ⟨gpu, rfl⟩, hseq, hlens, hapart, hseqNe,
      hlensNe⟩, fun _ => Iff.rfl, fun hneeded _ => ?_⟩
    refine absurd ?_ hdirty
    rw [decide_eq_true hneeded, Bool.or_true, Bool.true_or, Bool.true_or]

end DecodePlanStaging

/-! ## A staged step -/

/-- The loop of the staged path: the committed lengths, and the `top_k`s. -/
theorem stagedScan_eq (reqs : List DecodeReq) :
    stagedScan reqs = (reqs.map DecodeReq.committedLen,
      reqs.zipIdx.foldl (fun s p => s.step p.2 p.1.topK) TopKScan.start) := by
  have hloop : ∀ (l : List DecodeReq) (k : ℕ) (s : List ℤ × TopKScan),
      (l.zipIdx k).foldl (fun s p => (s.1 ++ [p.1.committedLen], s.2.step p.2 p.1.topK)) s =
        (s.1 ++ l.map DecodeReq.committedLen,
          (l.zipIdx k).foldl (fun s p => s.step p.2 p.1.topK) s.2) := by
    intro l
    induction l with
    | nil =>
      intro k s
      rw [List.map_nil, List.append_nil]
      rfl
    | cons req l ih =>
      intro k s
      rw [List.zipIdx_cons, List.foldl_cons, List.foldl_cons, ih, List.append_assoc,
        List.singleton_append, List.map_cons]
  exact hloop reqs 0 ([], TopKScan.start)

/-- The staging, if there is one, has a ring. -/
def StagedState.Ready (s : StagedState) : Prop := ∀ st, s.staging = some st → st.Ring s.mem.next

/-- The staging that a step acquires a slot of is new, or has a ring. -/
theorem StagedState.Ready.staging {s : StagedState} (hs : s.Ready) :
    (s.staging.getD DecodePlanStaging.create).capacity = 0 ∨
      (s.staging.getD DecodePlanStaging.create).Ring s.mem.next := by
  cases hstaging : s.staging with
  | none => exact .inl rfl
  | some st => exact .inr (hs st hstaging)

/-- What a staged step of a batch that is not empty does. -/
structure Stepped (cfg : PlanConfig) (s : StagedState) (a : DecodeStep) (s' : StagedState)
    (p : PreparedDecode) : Prop where
  /-- it leaves the plan -/
  values : p.values s'.mem = planValues cfg a.reqs
  /-- the device rows are the host's when tokens are needed -/
  device : 0 < p.alloc.numNeededTokens →
    p.alloc.deviceRows.curKvLens.device s'.mem = p.alloc.curKvLensCpu.host s'.mem ∧
      p.alloc.deviceRows.nxtKvLens.device s'.mem = p.alloc.nxtKvLensCpu.host s'.mem
  /-- there is a ring, and its views are of its slot -/
  ring : ∃ st, s'.staging = some st ∧ st.Ring s'.mem.next ∧ st.Current p.seqLensCpu.buffer ∧
    st.Current p.nxtKvLensCpu.buffer ∧ st.Current p.alloc.curKvLensCpu.buffer
  /-- the buffers of the slot before keep what they hold -/
  kept : ∀ st, s.staging = some st → ∀ b, st.Current b → s'.mem.host b = s.mem.host b

section Staged

variable {cfg : PlanConfig} {s s' : StagedState} {a : DecodeStep}

/-- An empty batch returns at once, with nothing prepared and the state as it was. -/
theorem staged_empty (hreqs : a.reqs.length = 0) :
    prepareForDecodeStaged cfg s a = .ok (s, none) := if_pos hreqs

/-- The memory with the rows of a slot written. -/
def writtenRows (st : DecodePlanStaging) (m : PlanMemory) (committed cur nxt : List ℤ) :
    PlanMemory :=
  ((m.writeRow (st.hostSeqLens st.slot) 0 committed).writeRow (st.hostLens st.slot)
    planRowCurKvLens cur).writeRow (st.hostLens st.slot) planRowNxtKvLens nxt

/-- What is read of the rows that are written, and what is kept. -/
theorem written_rows {st : DecodePlanStaging} {m : PlanMemory} (hring : st.Ring m.next) {bs : ℕ}
    {committed cur nxt : List ℤ} (hcommitted : committed.length = bs) (hcur : cur.length = bs)
    (hnxt : nxt.length = bs) :
    let m' := writtenRows st m committed cur nxt
    (st.rows bs).seqLens.host m' = committed ∧ (st.rows bs).curKvLens.host m' = cur ∧
      (st.rows bs).nxtKvLens.host m' = nxt ∧ ∀ b, ¬ st.Current b → m'.host b = m.host b := by
  have hne : st.hostSeqLens st.slot ≠ st.hostLens st.slot :=
    hring.seqLens_ne_lens _ _ hring.slot_lt hring.slot_lt
  refine ⟨?_, ?_, PlanMemory.read_writeRow _ hnxt, fun b hb => ?_⟩
  · refine (PlanView.host_congr ?_).trans (PlanMemory.read_writeRow m hcommitted)
    rw [writtenRows, DecodePlanStaging.rows, PlanMemory.host_writeRow_of_ne hne,
      PlanMemory.host_writeRow_of_ne hne]
  · refine (PlanView.host_congr ?_).trans
      ((m.writeRow (st.hostSeqLens st.slot) 0 committed).read_writeRow hcur)
    exact PlanMemory.host_writeRow_row (by decide : planRowCurKvLens ≠ planRowNxtKvLens) nxt
  · obtain ⟨hseq, hlens⟩ := not_or.mp hb
    rw [writtenRows, PlanMemory.host_writeRow_of_ne hlens, PlanMemory.host_writeRow_of_ne hlens,
      PlanMemory.host_writeRow_of_ne hseq]

/-- The block size is positive when a batch that is not empty is prepared. -/
theorem blockSize_pos (hreqs : a.reqs.length ≠ 0) {r : StagedState × Option PreparedDecode}
    (h : prepareForDecodeStaged cfg s a = .ok r) : 0 < cfg.blockSize := by
  by_contra hblock
  rw [prepareForDecodeStaged, if_neg hreqs, if_pos (not_lt.mp hblock)] at h
  cases h

/-- What a step hands out, with the rows that it was given. -/
def handedOut (cfg : PlanConfig) (a : DecodeStep) (host : DecodePlanHostRows)
    (device : DecodePlanDeviceRows) : PreparedDecode where
  alloc := ⟨device, host.curKvLens, host.nxtKvLens, (cfg.lens a.reqs).2.2⟩
  reqs := a.reqs.map DecodeReq.advance
  seqLensCpu := host.seqLens
  seqLensSum := (stagedScan a.reqs).1.sum
  nxtKvLensCpu := host.nxtKvLens
  nxtKvLensSum := (cfg.lens a.reqs).2.1.sum
  maxTopK := (stagedScan a.reqs).2.resultMax
  uniformTopKValue := (stagedScan a.reqs).2.resultUniform

/-- **The calls of a staged step** of a batch that is not empty, when it returns: a slot is
acquired, its rows are written, and it is shipped. -/
theorem staged_of_ok (hs : s.Ready) (hreqs : a.reqs.length ≠ 0) {out : Option PreparedDecode}
    (h : prepareForDecodeStaged cfg s a = .ok (s', out)) :
    ∃ st m device st' m',
      DecodePlanStaging.Acquired (s.staging.getD DecodePlanStaging.create) s.mem a.reqs.length
        (st.rows a.reqs.length) st m ∧
      DecodePlanStaging.Shipped st (writtenRows st m (stagedScan a.reqs).1 (cfg.lens a.reqs).1
        (cfg.lens a.reqs).2.1) a.reqs.length (cfg.lens a.reqs).2.2 device st' m' ∧
      s' = ⟨m', some st'⟩ ∧ out = some (handedOut cfg a (st.rows a.reqs.length) device) := by
  have hblock := blockSize_pos hreqs h
  rw [prepareForDecodeStaged, if_neg hreqs, if_neg (not_le.mpr hblock)] at h
  dsimp only at h
  cases hacquire :
      (s.staging.getD DecodePlanStaging.create).acquire s.mem a.reqs.length a.drained with
  | error e =>
    rw [hacquire] at h
    cases h
  | ok r =>
    obtain ⟨host, st, m⟩ := r
    have hacquired := DecodePlanStaging.acquired_of_ok hs.staging (Nat.pos_of_ne_zero hreqs)
      hacquire
    obtain rfl := hacquired.rows_eq
    rw [hacquire] at h
    have hring : st.Ring (writtenRows st m (stagedScan a.reqs).1 (cfg.lens a.reqs).1
      (cfg.lens a.reqs).2.1).next := hacquired.ring
    obtain ⟨device, st', m', hship, hshipped⟩ := DecodePlanStaging.shipped_of_ring hring
      a.reqs.length (cfg.lens a.reqs).2.2 (a.reqs.map DecodeReq.rid) a.checking cfg.useEvents
    have h : (st.ship (writtenRows st m (stagedScan a.reqs).1 (cfg.lens a.reqs).1
        (cfg.lens a.reqs).2.1) a.reqs.length (cfg.lens a.reqs).2.2 (a.reqs.map DecodeReq.rid)
        a.checking cfg.useEvents).bind (fun r => .ok (StagedState.mk r.2.2 (some r.2.1),
          some (handedOut cfg a (st.rows a.reqs.length) r.1))) = .ok (s', out) := h
    rw [hship] at h
    obtain ⟨rfl, rfl⟩ := Prod.mk.inj (Except.ok.inj h)
    exact ⟨st, m, device, st', m', hacquired, hshipped, rfl, rfl⟩

/-- **A staged step** of a batch that is not empty, when it returns. -/
theorem stepped_of_ok (hs : s.Ready) (hreqs : a.reqs.length ≠ 0) {out : Option PreparedDecode}
    (h : prepareForDecodeStaged cfg s a = .ok (s', out)) : ∃ p, out = some p ∧
      Stepped cfg s a s' p := by
  obtain ⟨st, m, device, st', m', hacquired, hshipped, rfl, rfl⟩ := staged_of_ok hs hreqs h
  have hcommitted : (stagedScan a.reqs).1.length = a.reqs.length := by
    rw [stagedScan_eq, List.length_map]
  obtain ⟨hseq, hcur, hnxt, hother⟩ := written_rows hacquired.ring hcommitted
    (cfg.length_cur a.reqs (2 * cfg.blockSize) cfg.pageSize)
    (cfg.length_nxt a.reqs (2 * cfg.blockSize) cfg.pageSize)
  -- the copy to the device leaves the host's memory
  have hread : ∀ v : PlanView, v.host m' = v.host (writtenRows st m (stagedScan a.reqs).1
      (cfg.lens a.reqs).1 (cfg.lens a.reqs).2.1) := fun v =>
    PlanView.host_congr (by rw [hshipped.host_eq])
  refine ⟨_, rfl, ?_, fun hneeded => ?_, ⟨st', rfl, hshipped.ring hacquired.ring, ?_⟩,
    fun old hold b hb => ?_⟩
  · obtain ⟨hmax, huniform⟩ := TopKScan.foldl_eq DecodeReq.topK a.reqs
    have hlist : (stagedScan a.reqs).1 = a.reqs.map DecodeReq.committedLen := by
      rw [stagedScan_eq]
    have hscan := congrArg Prod.snd (stagedScan_eq a.reqs)
    rw [PreparedDecode.values, planValues, PlanValues.mk.injEq, handedOut, hread, hread]
    dsimp only
    rw [hscan, hlist]
    rw [hlist] at hseq hnxt
    exact ⟨hseq, rfl, hnxt, rfl, hmax, huniform⟩
  · rw [hread, hread]
    exact hshipped.device_eq hneeded hacquired.capacity
  · have hcurrent := hshipped.current
    exact ⟨(hcurrent _).mpr (.inl rfl), (hcurrent _).mpr (.inr rfl),
      (hcurrent _).mpr (.inr rfl)⟩
  · have hold' : s.staging.getD DecodePlanStaging.create = old := by
      rw [hold, Option.getD_some]
    have hfresh := hacquired.fresh
    rw [hold'] at hfresh
    have hlt : b < s.mem.next := (hs old hold).lt_of_current hb
    dsimp only
    rw [hshipped.host_eq]
    exact (hother b (hfresh (hs old hold) b hb)).trans (hacquired.host_eq b hlt)

end Staged

/-! ## Step after step -/

/-- The staged path over the steps. -/
def decodePlanning (cfg : PlanConfig) : Machine StagedState DecodeStep where
  init s := s.staging = none
  step s a s' := ∃ out, prepareForDecodeStaged cfg s a = .ok (s', out)

/-- Steps of the staged path that return, one after the other. -/
def runStaged (cfg : PlanConfig) : StagedState → List DecodeStep →
    Option (StagedState × List (Option PreparedDecode)) :=
  runList fun s a => (prepareForDecodeStaged cfg s a).toOption

section Runs

variable {cfg : PlanConfig} {s s' : StagedState}

/-- A step that gives something after its error is forgotten is a step that returned it. -/
theorem ok_of_toOption {a : DecodeStep} {r : StagedState × Option PreparedDecode}
    (h : (prepareForDecodeStaged cfg s a).toOption = some r) :
    prepareForDecodeStaged cfg s a = .ok r := by
  cases hstep : prepareForDecodeStaged cfg s a with
  | error e =>
    rw [hstep] at h
    cases h
  | ok r' =>
    rw [hstep] at h
    exact congrArg Except.ok (Option.some.inj h)

/-- **The ring is one in every state** that the steps reach. -/
theorem ready_of_reach (hs : (decodePlanning cfg).Reach s) : s.Ready := by
  refine Machine.Invariant.reach ⟨fun s hs st hst => ?_, fun s a s' hs h => ?_⟩ hs
  · have hs : s.staging = none := hs
    rw [hs] at hst
    cases hst
  · obtain ⟨out, h⟩ := h
    by_cases hreqs : a.reqs.length = 0
    · rw [staged_empty hreqs] at h
      obtain ⟨rfl, -⟩ := Prod.mk.inj (Except.ok.inj h)
      exact hs
    · obtain ⟨p, -, hstep⟩ := stepped_of_ok hs hreqs h
      obtain ⟨st', hst', hring, -⟩ := hstep.ring
      intro st hst
      rw [hst'] at hst
      obtain rfl := Option.some.inj hst
      exact hring

/-- A computation that returns, followed by one that returns on its result, is a computation that
returns. -/
theorem exists_bind_ok {α β : Type} {x : Except String α} {f : α → Except String β} {r : α}
    (hx : x = .ok r) (hf : ∃ r', f r = .ok r') : ∃ r', x.bind f = .ok r' := by
  rw [hx]
  exact hf

/-- A step returns when the copy of the slot has drained. -/
theorem staged_returns (hblock : 0 < cfg.blockSize) (hs : s.Ready) {a : DecodeStep}
    (hdrained : a.drained = true) : ∃ r, prepareForDecodeStaged cfg s a = .ok r := by
  by_cases hreqs : a.reqs.length = 0
  · exact ⟨_, staged_empty hreqs⟩
  rw [prepareForDecodeStaged, if_neg hreqs, if_neg (not_le.mpr hblock), hdrained]
  obtain ⟨⟨host, st, m⟩, hacquire⟩ := DecodePlanStaging.acquire_drained
    (s.staging.getD DecodePlanStaging.create) s.mem a.reqs.length
  have hring := (DecodePlanStaging.acquired_of_ok hs.staging (Nat.pos_of_ne_zero hreqs)
    hacquire).ring
  let m₁ := ((m.writeRow host.seqLens.buffer host.seqLens.row (stagedScan a.reqs).1).writeRow
    host.curKvLens.buffer host.curKvLens.row (cfg.lens a.reqs).1).writeRow host.nxtKvLens.buffer
    host.nxtKvLens.row (cfg.lens a.reqs).2.1
  have hring₁ : st.Ring m₁.next := hring
  obtain ⟨device, st', m', hship, -⟩ := DecodePlanStaging.shipped_of_ring hring₁ a.reqs.length
    (cfg.lens a.reqs).2.2 (a.reqs.map DecodeReq.rid) a.checking cfg.useEvents
  exact exists_bind_ok hacquire (exists_bind_ok hship ⟨_, rfl⟩)

/-- A run over batches without requests ends in the state that it started from. -/
theorem run_empty {later : List DecodeStep} (hlater : ∀ a ∈ later, a.reqs.length = 0)
    {outs : List (Option PreparedDecode)} (hrun : runStaged cfg s later = some (s', outs)) :
    s' = s := by
  induction later generalizing outs with
  | nil => exact (Prod.mk.inj (Option.some.inj hrun)).1.symm
  | cons a later ih =>
    obtain ⟨ha, hlater⟩ := List.forall_mem_cons.mp hlater
    obtain ⟨s₁, b, outs₁, hstep, hrun, -⟩ := runList_cons_eq_some.mp hrun
    have hstep := ok_of_toOption hstep
    rw [staged_empty ha] at hstep
    obtain ⟨rfl, -⟩ := Prod.mk.inj (Except.ok.inj hstep)
    exact ih hlater hrun

/-- **The buffers of a slot are kept** while at most one more slot is acquired. -/
theorem host_kept (hs : s.Ready) {st : DecodePlanStaging} (hst : s.staging = some st)
    {later : List DecodeStep} {outs : List (Option PreparedDecode)}
    (hrun : runStaged cfg s later = some (s', outs))
    (hone : (later.filter fun a => a.reqs.length ≠ 0).length ≤ 1) {b : ℕ} (hb : st.Current b) :
    s'.mem.host b = s.mem.host b := by
  induction later generalizing outs with
  | nil =>
    obtain ⟨rfl, -⟩ := Prod.mk.inj (Option.some.inj hrun)
    rfl
  | cons a later ih =>
    obtain ⟨s₁, out, outs₁, hstep, hrun, -⟩ := runList_cons_eq_some.mp hrun
    have hstep := ok_of_toOption hstep
    by_cases hreqs : a.reqs.length = 0
    · -- an empty batch acquires no slot
      rw [staged_empty hreqs] at hstep
      obtain ⟨rfl, -⟩ := Prod.mk.inj (Except.ok.inj hstep)
      rw [List.filter_cons_of_neg (by simpa using hreqs)] at hone
      exact ih hrun hone
    · -- the one more, and empty batches behind it
      rw [List.filter_cons_of_pos (by simpa using hreqs), List.length_cons] at hone
      have hnone := List.length_eq_zero_iff.mp (Nat.le_zero.mp (Nat.le_of_succ_le_succ hone))
      have hempty : ∀ a ∈ later, a.reqs.length = 0 := by
        intro a ha
        simpa using List.filter_eq_nil_iff.mp hnone a ha
      obtain ⟨p, -, hstepped⟩ := stepped_of_ok hs hreqs hstep
      rw [run_empty hempty hrun]
      exact hstepped.kept st hst b hb

/-- **The staged plan.** In every state that the steps reach, whatever the batches were, for every
next step: it returns when the copy of the slot has drained; and when it returns, the legacy path
returns, whatever the buffers of its draft input, and both leave the same plan; the device rows are
the host's when tokens are needed; and the views that are handed out keep their entries while at
most one more slot is acquired. -/
theorem decode_plan_staged (cfg : PlanConfig) {s : StagedState} (hs : (decodePlanning cfg).Reach s)
    (a : DecodeStep) :
    (0 < cfg.blockSize → a.drained = true → ∃ r, prepareForDecodeStaged cfg s a = .ok r) ∧
      ∀ s' out, prepareForDecodeStaged cfg s a = .ok (s', out) →
        (∀ l, ∃ l' out', prepareForDecodeLegacy cfg l a = .ok (l', out') ∧
          out.map (fun p => p.values s'.mem) = out'.map fun p => p.values l'.mem) ∧
        ∀ p, out = some p →
          (0 < p.alloc.numNeededTokens →
            p.alloc.deviceRows.curKvLens.device s'.mem = p.alloc.curKvLensCpu.host s'.mem ∧
              p.alloc.deviceRows.nxtKvLens.device s'.mem = p.alloc.nxtKvLensCpu.host s'.mem) ∧
          ∀ later s'' outs, runStaged cfg s' later = some (s'', outs) →
            (later.filter fun a => a.reqs.length ≠ 0).length ≤ 1 →
              p.values s''.mem = p.values s'.mem ∧
                p.alloc.curKvLensCpu.host s''.mem = p.alloc.curKvLensCpu.host s'.mem := by
  have hready := ready_of_reach hs
  refine ⟨fun hblock hdrained => staged_returns hblock hready hdrained,
    fun s' out h => ⟨fun l => ?_, ?_⟩⟩
  · by_cases hreqs : a.reqs.length = 0
    · rw [staged_empty hreqs] at h
      obtain ⟨-, rfl⟩ := Prod.mk.inj (Except.ok.inj h)
      exact ⟨l, none, if_pos hreqs, rfl⟩
    · obtain ⟨p, rfl, hstepped⟩ := stepped_of_ok hready hreqs h
      obtain ⟨l', p', hlegacy, hvalues⟩ := legacy_values (blockSize_pos hreqs h) l hreqs
      refine ⟨l', some p', hlegacy, ?_⟩
      rw [Option.map_some, Option.map_some, hstepped.values, hvalues]
  · rintro p rfl
    have hreqs : a.reqs.length ≠ 0 := by
      intro hreqs
      rw [staged_empty hreqs] at h
      cases h
    obtain ⟨p', hp, hstepped⟩ := stepped_of_ok hready hreqs h
    obtain rfl := Option.some.inj hp
    refine ⟨hstepped.device, fun later s'' outs hrun hone => ?_⟩
    obtain ⟨st, hst, -, hseq, hnxt, hcur⟩ := hstepped.ring
    have hready' : s'.Ready := ready_of_reach (.step hs ⟨_, h⟩)
    have hkept : ∀ v : PlanView, st.Current v.buffer → v.host s''.mem = v.host s'.mem := by
      intro v hv
      exact PlanView.host_congr (by rw [host_kept hready' hst hrun hone hv])
    refine ⟨?_, hkept _ hcur⟩
    rw [PreparedDecode.values, PreparedDecode.values, hkept _ hseq, hkept _ hnxt]

end Runs

/-! ## Three steps -/

/-- A configuration in which each request has room for the tokens of two steps. -/
def roomyConfig : PlanConfig where
  allocLens reqs reserve _ :=
    (reqs.map DecodeReq.allocatedLen,
      reqs.map fun req => max req.allocatedLen (req.committedLen + reserve),
      (reqs.map fun req =>
        max req.allocatedLen (req.committedLen + reserve) - req.allocatedLen).sum)
  length_cur _ _ _ := List.length_map ..
  length_nxt _ _ _ := List.length_map ..
  blockSize := 6
  pageSize := 256
  useEvents := true

/-- The state of the example before its first step, when nothing has been planned. -/
def unplanned : StagedState := ⟨⟨0, fun _ _ _ => 9, fun _ _ _ => 9⟩, none⟩

/-- Two requests, of which one needs six tokens; the same two, which need none; and forty others. -/
def threeSteps : List DecodeStep :=
  [⟨[⟨"a", 130, 256, 1, 0⟩, ⟨"b", 250, 256, 40, 0⟩], false, true⟩,
    ⟨[⟨"a", 136, 256, 1, 1⟩, ⟨"b", 256, 512, 40, 1⟩], false, true⟩,
    ⟨(List.range 40).map fun i => ⟨String.ofList (List.replicate i 'c'), i, i, 1, 0⟩, false, true⟩]

/-- The second step copies nothing, and the third has more requests than the staging has room for:
it plans what the legacy path does, and the device has its rows. -/
theorem decode_plan_staged_three :
    ∃ s s' p l' p', (decodePlanning roomyConfig).Reach s ∧
      s.staging.map (fun st => (st.capacity, st.stageCt, st.h2dCopyCt)) = some (32, 2, 1) ∧
      prepareForDecodeStaged roomyConfig s (threeSteps.getD 2 ⟨[], false, true⟩) =
        .ok (s', some p) ∧
      s'.staging.map (fun st => (st.capacity, st.stageCt, st.h2dCopyCt)) = some (64, 3, 2) ∧
      prepareForDecodeLegacy roomyConfig ⟨unplanned.mem, none, none⟩
        (threeSteps.getD 2 ⟨[], false, true⟩) = .ok (l', some p') ∧
      p.values s'.mem = p'.values l'.mem ∧
      p.alloc.deviceRows.curKvLens.device s'.mem = p.alloc.curKvLensCpu.host s'.mem := by
  have hcounts : ((runStaged roomyConfig unplanned (threeSteps.take 2)).bind fun r =>
      (runStaged roomyConfig r.1 (threeSteps.drop 2)).map fun r' =>
        (r.1.staging.map fun st => (st.capacity, st.stageCt, st.h2dCopyCt),
          r'.1.staging.map fun st => (st.capacity, st.stageCt, st.h2dCopyCt),
          r'.2.map fun out => out.map fun p => decide (0 < p.alloc.numNeededTokens))) =
      some (some (32, 2, 1), some (64, 3, 2), [some true]) := by
    decide +kernel
  obtain ⟨⟨s, outs⟩, hrun, hcounts⟩ := Option.bind_eq_some_iff.mp hcounts
  obtain ⟨⟨s', outs'⟩, hrun', hcounts⟩ := Option.map_eq_some_iff.mp hcounts
  obtain ⟨hs, hs', hneeded⟩ := by simpa only [Prod.mk.injEq] using hcounts
  obtain ⟨s₁, _, _, hstep₁, hrun, -⟩ := runList_cons_eq_some.mp hrun
  obtain ⟨s₂, _, _, hstep₂, hrun, -⟩ := runList_cons_eq_some.mp hrun
  obtain ⟨rfl, -⟩ := Prod.mk.inj (Option.some.inj hrun)
  obtain ⟨s₃, out, _, hstep₃, hlast, rfl⟩ := runList_cons_eq_some.mp hrun'
  obtain ⟨rfl, rfl⟩ := Prod.mk.inj (Option.some.inj hlast)
  have hreach₀ : (decodePlanning roomyConfig).Reach unplanned := .init rfl
  have hreach : (decodePlanning roomyConfig).Reach s₂ :=
    .step (.step hreach₀ ⟨_, ok_of_toOption hstep₁⟩) ⟨_, ok_of_toOption hstep₂⟩
  have hstep := ok_of_toOption hstep₃
  obtain ⟨hlegacy, hdevice⟩ := (decode_plan_staged roomyConfig hreach _).2 _ out hstep
  cases out with
  | none => cases hneeded
  | some p =>
    obtain ⟨l', out', hlegacy, hvalues⟩ := hlegacy ⟨unplanned.mem, none, none⟩
    cases out' with
    | none => cases hvalues
    | some p' =>
      have hpos : 0 < p.alloc.numNeededTokens := by simpa using hneeded
      exact ⟨s₂, s₃, p, l', p', hreach, hs, hstep, hs', hlegacy, Option.some.inj hvalues,
        ((hdevice p rfl).1 hpos).1⟩

end LuzServing

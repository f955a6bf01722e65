import LuzServing.LateLayerRows
import LuzServing.Machine

/-!
# The non-final-chunk switch over whole runs

A run prefills prompts in chunks of any lengths, in batches that mix final chunks with
others and with requests that decode along, and then decodes or verifies. The same run is
made twice: with the switch on (`on`), and with the switch off (`off`), where every chunk
runs its own tail.

With the switch off the window is always there. With the switch on the final chunk is the
first that writes the late layers, and it writes its own last 128 rows (`LateInv`): the
chunks before it were to be overwritten, but a final chunk that is shorter than the window
overwrites less than the window, and a decode row is not floored at the tail of the final
chunk. So the late layers hold the window of the prompt exactly when the final chunk has
at least `min 128 prompt` rows (`late_window_iff`).
-/

namespace LuzServing

/-! ## Runs -/

/-- A forward: its requests and their rows, what its layers compute in the run with the
switch on and in the one with the switch off. -/
structure LateStep (K : Type) : Type where
  /-- the number of requests -/
  bs : ℕ
  /-- the requests -/
  reqs : ℕ → ℕ
  /-- their rows -/
  lens : ℕ → ℕ
  /-- `return_logprob` -/
  returnLogprob : Bool
  /-- `extend_logprob_start_lens` -/
  logprobStartLens : ℕ → ℕ
  /-- all hidden states are captured -/
  captureFull : Bool
  /-- the window K of each layer and row, with the switch on -/
  newK : ℕ → ℕ → K
  /-- and with the switch off -/
  newKOff : ℕ → ℕ → K

/-- The two runs, and what the scheduler knows of each request. -/
structure LateState (K : Type) : Type where
  /-- the positions that are computed and kept -/
  done : ℕ → ℕ
  /-- the length of the chunk that finished the prompt -/
  finalLen : ℕ → ℕ
  /-- the window cache with the switch on -/
  on : WindowCache K
  /-- the window cache with the switch off -/
  off : WindowCache K

namespace LateStep

variable {K : Type} (prompt : ℕ → ℕ) (b : LateStep K) (s : LateState K)

/-- Where the chunk of a request ends. -/
def chunkEnd (r : ℕ) : ℕ := s.done (b.reqs r) + b.lens r

/-- The forward batch, as the scheduler prepares it. -/
def batch : ExtendBatch where
  bs := b.bs
  reqs := b.reqs
  extendLens := b.lens
  seqLens := b.chunkEnd s
  lastChunkMask := some <| (List.range b.bs).map fun r =>
    lastChunkEntry (b.chunkEnd s r) (prompt (b.reqs r)) b.returnLogprob (b.logprobStartLens r)
      (b.lens r)
  returnLogprob := b.returnLogprob
  logprobStartLens := b.logprobStartLens
  captureFull := b.captureFull

/-- The requests that finish their prompts. -/
def finishing : List ℕ :=
  (List.range b.bs).filter fun r =>
    decide (s.done (b.reqs r) < prompt (b.reqs r)) && decide (prompt (b.reqs r) ≤ b.chunkEnd s r)

/-- What a batch is: requests that are distinct and have rows. -/
structure Distinct : Prop where
  /-- the requests are distinct -/
  inj : ∀ r r', r < b.bs → r' < b.bs → b.reqs r = b.reqs r' → r = r'
  /-- they have rows -/
  pos : ∀ r, r < b.bs → 0 < b.lens r

/-- The extends that the scheduler makes: chunks of prompts, and one row of each request
that decodes along. -/
structure Extends : Prop extends b.Distinct where
  /-- a chunk stays in the prompt -/
  chunk : ∀ r, r < b.bs → s.done (b.reqs r) < prompt (b.reqs r) →
    b.chunkEnd s r ≤ prompt (b.reqs r)
  /-- a request whose prompt is done has one row -/
  rider : ∀ r, r < b.bs → prompt (b.reqs r) ≤ s.done (b.reqs r) → b.lens r = 1

/-- The decode and verify forwards: rows of requests whose prompts are done. -/
structure Decodes : Prop extends b.Distinct where
  /-- the prompts are done -/
  done : ∀ r, r < b.bs → prompt (b.reqs r) ≤ s.done (b.reqs r)

end LateStep

/-- What a run does: an extend or mixed forward, or a decode or verify forward. -/
inductive LateAct (K : Type) : Type where
  /-- an extend or mixed forward -/
  | extend (b : LateStep K)
  /-- a decode or verify forward, of which the first rows of each request are kept -/
  | decode (b : LateStep K) (accepted : ℕ → ℕ)

/-- **The two runs side by side.** -/
def lateMachine (K : Type) (layout : TailLayout) (m : LateLayerModel) (prompt : ℕ → ℕ) :
    Machine (LateState K) (LateAct K) where
  init s := (∀ q, s.done q = 0) ∧ (∀ i p, s.on i p = none) ∧ ∀ i p, s.off i p = none
  step s a s' :=
    match a with
    | .extend b => b.Extends prompt s ∧
        extendForward layout m true (b.batch prompt s) b.newK s.on = .ok s'.on ∧
        extendForward layout m false (b.batch prompt s) b.newKOff s.off = .ok s'.off ∧
        s'.done = storeAll s.done
          ((List.range b.bs).map fun r => (b.reqs r, b.chunkEnd s r)) ∧
        s'.finalLen = storeAll s.finalLen
          ((b.finishing prompt s).map fun r => (b.reqs r, b.lens r))
    | .decode b accepted => b.Decodes prompt s ∧ (∀ r, r < b.bs → accepted r ≤ b.lens r) ∧
        s'.on = decodeForward m (b.batch prompt s) b.newK s.on ∧
        s'.off = decodeForward m (b.batch prompt s) b.newKOff s.off ∧
        s'.done = storeAll s.done
          ((List.range b.bs).map fun r => (b.reqs r, s.done (b.reqs r) + accepted r)) ∧
        s'.finalLen = s.finalLen

/-! ## What is written -/

section

variable {K : Type} {layout : TailLayout} {m : LateLayerModel} {prompt : ℕ → ℕ} {b : LateStep K}
  {s : LateState K}

/-- The cache row that a batch row is written to belongs to its request, at the position after those
already done. -/
theorem cacheRow_eq {r j : ℕ} (hr : r < b.bs) (hj : j < b.lens r) :
    (b.batch prompt s).cacheRow (segStart b.lens r + j) =
      (b.reqs r, s.done (b.reqs r) + j) := by
  have hrow : (b.batch prompt s).row (segStart b.lens r + j) = r := getD_segRows hr hj 0
  simp only [ExtendBatch.cacheRow, ExtendBatch.position, hrow]
  refine Prod.ext rfl ?_
  simp only [LateStep.batch, LateStep.chunkEnd]
  omega

/-- The requests that a batch marks are those whose prompts it finishes, unless it is
refused for the logprobs it asks for. -/
theorem mem_keptReqs_batch (hcheck : checkLateLayerTailReaders (b.batch prompt s) = .ok ())
    {mask : List Bool} (hmask : (b.batch prompt s).lastChunkMask = some mask) {r : ℕ} :
    r ∈ keptReqs mask ↔ r < b.bs ∧ prompt (b.reqs r) ≤ b.chunkEnd s r := by
  obtain rfl := Option.some.inj hmask
  rw [mem_keptReqs]
  by_cases hr : r < b.bs
  · rw [List.getD_eq_getElem _ _ (by simpa using hr), List.getElem_map, List.getElem_range,
      lastChunkEntry, Bool.or_eq_true, decide_eq_true_eq]
    -- a request that asks for logprobs of its chunk is refused
    have hnone : ¬(b.returnLogprob && decide (b.logprobStartLens r < b.lens r)) = true := by
      intro hlog
      rw [Bool.and_eq_true] at hlog
      have hany : ((List.range b.bs).any fun r =>
          decide (b.logprobStartLens r < b.lens r)) = true :=
        List.any_eq_true.mpr ⟨r, List.mem_range.mpr hr, hlog.2⟩
      simp only [checkLateLayerTailReaders, LateStep.batch, hlog.1, hany] at hcheck
      split at hcheck <;> simp at hcheck
    exact ⟨fun h => ⟨hr, h.resolve_right hnone⟩, fun h => .inl h.2⟩
  · rw [List.getD_eq_default _ _ (by simpa using hr)]
    exact ⟨fun h => absurd h (by decide), fun h => absurd h.1 hr⟩

/-- **What an extend writes in a late layer**: of each request, or with the switch on of
each that finishes its prompt, the last 128 rows of the chunk. -/
theorem extend_isSome (hlayout : IsTailLayout layout) {skip : Bool} {newK : ℕ → ℕ → K}
    {cache cache' : WindowCache K}
    (hrun : extendForward layout m skip (b.batch prompt s) newK cache = .ok cache') {i : ℕ}
    (hlate : m.lateLayerStart ≤ i) (hi : i < m.numLayers) {q p : ℕ} :
    (cache' i (q, p)).isSome = true ↔
      (∃ r, r < b.bs ∧ b.reqs r = q ∧ (skip = true → prompt q ≤ b.chunkEnd s r) ∧
        s.done q ≤ p ∧ p < b.chunkEnd s r ∧ b.chunkEnd s r ≤ p + swaWindow) ∨
      (cache i (q, p)).isSome = true := by
  have hcheck : checkLateLayerTailReaders (b.batch prompt s) = .ok () := by
    rw [extendForward] at hrun
    cases hcheck : checkLateLayerTailReaders (b.batch prompt s) with
    | error e => simp [hcheck, bind, Except.bind] at hrun
    | ok _ => rfl
  have hmem : ∀ r, r ∈ keptOf (b.batch prompt s)
      (if skip then (b.batch prompt s).lastChunkMask else none) ↔
      r < b.bs ∧ (skip = true → prompt (b.reqs r) ≤ b.chunkEnd s r) := by
    intro r
    cases skip with
    | false => simp [keptOf, LateStep.batch]
    | true =>
      rw [if_pos rfl]
      exact (mem_keptReqs_batch hcheck rfl).trans (by simp)
  have hmask : ∀ mask ∈ (b.batch prompt s).lastChunkMask,
      mask.length = (b.batch prompt s).bs := by
    rintro mask ⟨⟩
    simp [LateStep.batch]
  rw [extendForward_late _ hlayout hmask hrun hlate hi, writeRows, isSome_storeAll]
  refine or_congr_left ⟨?_, ?_⟩
  · rintro ⟨x, hx, hkey⟩
    obtain ⟨r, hr, hx⟩ := List.mem_flatMap.mp hx
    obtain ⟨hr, hskip⟩ := (hmem r).mp hr
    obtain ⟨k, hk, rfl⟩ := List.mem_map.mp hx
    have hk := List.mem_range.mp hk
    change k < min swaWindow (b.lens r) at hk
    have hj : b.lens r - min swaWindow (b.lens r) + k < b.lens r := by omega
    have hrow : (b.batch prompt s).cacheRow
        (segStart b.lens r + (b.lens r - min swaWindow (b.lens r) + k)) = _ := cacheRow_eq hr hj
    rw [← Nat.add_assoc] at hrow
    obtain ⟨rfl, rfl⟩ := Prod.mk.inj (hrow.symm.trans hkey)
    refine ⟨r, hr, rfl, hskip, Nat.le_add_right _ _, ?_, ?_⟩ <;> rw [LateStep.chunkEnd] <;> omega
  · rintro ⟨r, hr, rfl, hskip, hle, hlt, htail⟩
    rw [LateStep.chunkEnd] at hlt htail
    obtain ⟨j, rfl⟩ : ∃ j, p = s.done (b.reqs r) + j := ⟨p - s.done (b.reqs r), by omega⟩
    have hj : j < b.lens r := by omega
    refine ⟨segStart b.lens r + j, List.mem_flatMap.mpr ⟨r, (hmem r).mpr ⟨hr, hskip⟩, ?_⟩,
      cacheRow_eq hr hj⟩
    exact (mem_tailOf (b.batch prompt s) hj).mpr (show b.lens r ≤ j + swaWindow by omega)

/-- A decode or verify forward writes every row of its batch and leaves the others as they were. -/
theorem decode_isSome {newK : ℕ → ℕ → K} {cache : WindowCache K} {i : ℕ} (hi : i < m.numLayers)
    {q p : ℕ} :
    (decodeForward m (b.batch prompt s) newK cache i (q, p)).isSome = true ↔
      (∃ r, r < b.bs ∧ b.reqs r = q ∧ s.done q ≤ p ∧ p < b.chunkEnd s r) ∨
      (cache i (q, p)).isSome = true := by
  rw [decodeForward, if_pos hi, writeRows, isSome_storeAll]
  refine or_congr_left ⟨?_, ?_⟩
  · rintro ⟨x, hx, hkey⟩
    obtain ⟨r, hr, j, hj, rfl⟩ := exists_seg (List.mem_range.mp hx)
    obtain ⟨rfl, rfl⟩ := Prod.mk.inj ((cacheRow_eq hr hj).symm.trans hkey)
    exact ⟨r, hr, rfl, Nat.le_add_right _ _, Nat.add_lt_add_left hj _⟩
  · rintro ⟨r, hr, rfl, hle, hlt⟩
    rw [LateStep.chunkEnd] at hlt
    obtain ⟨j, rfl⟩ : ∃ j, p = s.done (b.reqs r) + j := ⟨p - s.done (b.reqs r), by omega⟩
    have hj : j < b.lens r := by omega
    exact ⟨segStart b.lens r + j, List.mem_range.mpr (seg_lt hr hj), cacheRow_eq hr hj⟩

/-! ## The invariant -/

variable (m prompt) in
/-- **The invariant.** With the switch on nothing of a prompt is in the late layers until
its final chunk, and then what that chunk wrote and all that follows; with the switch off
the window is always there. -/
structure LateInv (s : LateState K) : Prop where
  /-- before the final chunk -/
  none : ∀ i, m.lateLayerStart ≤ i → i < m.numLayers → ∀ q p, s.done q < prompt q →
    ¬(s.on i (q, p)).isSome = true
  /-- after it -/
  some : ∀ i, m.lateLayerStart ≤ i → i < m.numLayers → ∀ q p, prompt q ≤ s.done q →
    p < s.done q →
    ((s.on i (q, p)).isSome = true ↔ prompt q ≤ p + min swaWindow (s.finalLen q))
  /-- with the switch off -/
  off : ∀ i, m.lateLayerStart ≤ i → i < m.numLayers → ∀ q p, p < s.done q →
    s.done q ≤ p + swaWindow → (s.off i (q, p)).isSome = true

/-- What is stored for the requests of a batch is found again for each of them, since they are
distinct. -/
theorem LateStep.Distinct.done_eq (hb : b.Distinct) (v : ℕ → ℕ) {r : ℕ} (hr : r < b.bs)
    (f : ℕ → ℕ) : storeAll f ((List.range b.bs).map fun r => (b.reqs r, v r)) (b.reqs r) = v r :=
  storeAll_map_eq b.reqs v (List.mem_range.mpr hr) fun r' hr' heq => by
    rw [hb.inj r' r (List.mem_range.mp hr') hr heq]

/-- The chunk that finishes a prompt is noted, and no other. -/
theorem finalLen_eq (hb : b.Distinct) {r : ℕ} (hr : r < b.bs) :
    storeAll s.finalLen ((b.finishing prompt s).map fun r => (b.reqs r, b.lens r)) (b.reqs r) =
      if s.done (b.reqs r) < prompt (b.reqs r) ∧ prompt (b.reqs r) ≤ b.chunkEnd s r then b.lens r
      else s.finalLen (b.reqs r) := by
  have hmem : ∀ r', r' ∈ b.finishing prompt s ↔ r' < b.bs ∧
      s.done (b.reqs r') < prompt (b.reqs r') ∧ prompt (b.reqs r') ≤ b.chunkEnd s r' := by
    intro r'
    simp [LateStep.finishing]
  split
  next hfin =>
    refine storeAll_map_eq b.reqs b.lens ((hmem r).mpr ⟨hr, hfin⟩)
      fun r' hr' heq => ?_
    rw [hb.inj r' r ((hmem r').mp hr').1 hr heq]
  next hfin =>
    refine storeAll_map_of_ne fun r' hr' heq => hfin ?_
    obtain ⟨hr', hfin'⟩ := (hmem r').mp hr'
    rwa [hb.inj r' r hr' hr heq] at hfin'

/-- A request of the batch moves on, and any other stays where it is. -/
theorem LateStep.Distinct.done_cases (hb : b.Distinct) (v f : ℕ → ℕ) (q : ℕ) :
    (∃ r, r < b.bs ∧ b.reqs r = q ∧
      storeAll f ((List.range b.bs).map fun r => (b.reqs r, v r)) q = v r) ∨
      ((∀ r, r < b.bs → b.reqs r ≠ q) ∧
        storeAll f ((List.range b.bs).map fun r => (b.reqs r, v r)) q = f q) := by
  by_cases hq : ∃ r, r < b.bs ∧ b.reqs r = q
  · obtain ⟨r, hr, rfl⟩ := hq
    exact .inl ⟨r, hr, rfl, hb.done_eq v hr f⟩
  · have hne : ∀ r, r < b.bs → b.reqs r ≠ q := fun r hr heq => hq ⟨r, hr, heq⟩
    exact .inr ⟨hne, storeAll_map_of_ne fun r hr => hne r (List.mem_range.mp hr)⟩

/-- Nothing is noted of a request that is not in the batch. -/
theorem finalLen_of_ne {q : ℕ} (hne : ∀ r, r < b.bs → b.reqs r ≠ q) :
    storeAll s.finalLen ((b.finishing prompt s).map fun r => (b.reqs r, b.lens r)) q =
      s.finalLen q := by
  refine storeAll_map_of_ne fun r hr => hne r ?_
  exact List.mem_range.mp (List.mem_filter.mp hr).1

/-- An extend writes the window of rows before the end of a request's chunk, and under the skip only
when the chunk is the last one. -/
theorem extend_isSome_req (hlayout : IsTailLayout layout) (hb : b.Distinct) {skip : Bool}
    {newK : ℕ → ℕ → K} {cache cache' : WindowCache K}
    (hrun : extendForward layout m skip (b.batch prompt s) newK cache = .ok cache') {i : ℕ}
    (hlate : m.lateLayerStart ≤ i) (hi : i < m.numLayers) {r : ℕ} (hr : r < b.bs) {p : ℕ} :
    (cache' i (b.reqs r, p)).isSome = true ↔
      ((skip = true → prompt (b.reqs r) ≤ b.chunkEnd s r) ∧ s.done (b.reqs r) ≤ p ∧
        p < b.chunkEnd s r ∧ b.chunkEnd s r ≤ p + swaWindow) ∨
      (cache i (b.reqs r, p)).isSome = true := by
  rw [extend_isSome hlayout hrun hlate hi]
  refine or_congr_left ⟨?_, fun h => ⟨r, hr, rfl, h⟩⟩
  rintro ⟨r', hr', heq, h⟩
  obtain rfl := hb.inj _ _ hr' hr heq
  exact h

/-- An extend writes nothing to the rows of a request that is not in its batch. -/
theorem extend_isSome_of_ne (hlayout : IsTailLayout layout) {skip : Bool} {newK : ℕ → ℕ → K}
    {cache cache' : WindowCache K}
    (hrun : extendForward layout m skip (b.batch prompt s) newK cache = .ok cache') {i : ℕ}
    (hlate : m.lateLayerStart ≤ i) (hi : i < m.numLayers) {q : ℕ}
    (hne : ∀ r, r < b.bs → b.reqs r ≠ q) {p : ℕ} :
    (cache' i (q, p)).isSome = true ↔ (cache i (q, p)).isSome = true := by
  rw [extend_isSome hlayout hrun hlate hi]
  exact or_iff_right fun ⟨r, hr, heq, _⟩ => hne r hr heq

/-- What is there of a request after an extend that leaves its prompt finished: the window of the
final chunk, or what was there and what decodes along. -/
theorem LateInv.extend_kept (hs : LateInv m prompt s) (hb : b.Extends prompt s) {i : ℕ}
    (hlate : m.lateLayerStart ≤ i) (hi : i < m.numLayers) {r : ℕ} (hr : r < b.bs) {p : ℕ}
    (hle : prompt (b.reqs r) ≤ b.chunkEnd s r) (hlt : p < b.chunkEnd s r) :
    (s.done (b.reqs r) ≤ p ∧ b.chunkEnd s r ≤ p + swaWindow) ∨
        (s.on i (b.reqs r, p)).isSome = true ↔
      prompt (b.reqs r) ≤ p + min swaWindow
        (if s.done (b.reqs r) < prompt (b.reqs r) ∧ prompt (b.reqs r) ≤ b.chunkEnd s r
          then b.lens r else s.finalLen (b.reqs r)) := by
  by_cases hfirst : s.done (b.reqs r) < prompt (b.reqs r)
  · -- the final chunk: it ends with the prompt
    have hend := hb.chunk r hr hfirst
    have hnone := hs.none i hlate hi _ p hfirst
    rw [if_pos ⟨hfirst, hle⟩]
    rw [LateStep.chunkEnd] at hend hle hlt ⊢
    refine ⟨?_, fun h => .inl (by omega)⟩
    rintro (⟨h₁, h₂⟩ | hsome)
    · omega
    · exact absurd hsome hnone
  · -- a request that decodes along
    have hone := hb.rider r hr (not_lt.mp hfirst)
    rw [if_neg fun h => hfirst h.1]
    rw [LateStep.chunkEnd] at hle hlt ⊢
    by_cases hp : p < s.done (b.reqs r)
    · rw [← hs.some i hlate hi _ p (not_lt.mp hfirst) hp]
      exact or_iff_right fun h => by omega
    · refine iff_of_true (.inl ?_) ?_
      · rw [swaWindow]
        omega
      · omega

/-- **An extend keeps the invariant** between the run that skips and the run that does not. -/
theorem lateInv_extend (hlayout : IsTailLayout layout) (hs : LateInv m prompt s)
    (hb : b.Extends prompt s) {s' : LateState K}
    (hon : extendForward layout m true (b.batch prompt s) b.newK s.on = .ok s'.on)
    (hoff : extendForward layout m false (b.batch prompt s) b.newKOff s.off = .ok s'.off)
    (hdone : s'.done = storeAll s.done
      ((List.range b.bs).map fun r => (b.reqs r, b.chunkEnd s r)))
    (hfinal : s'.finalLen = storeAll s.finalLen
      ((b.finishing prompt s).map fun r => (b.reqs r, b.lens r))) : LateInv m prompt s' := by
  -- a request of the batch moves on, the others stay
  have hreq : ∀ q, (∃ r, r < b.bs ∧ b.reqs r = q ∧ s'.done q = b.chunkEnd s r ∧
      s'.finalLen q = if s.done q < prompt q ∧ prompt q ≤ b.chunkEnd s r then b.lens r
        else s.finalLen q) ∨
      ((∀ r, r < b.bs → b.reqs r ≠ q) ∧ s'.done q = s.done q ∧ s'.finalLen q = s.finalLen q) := by
    intro q
    rw [hdone, hfinal]
    obtain ⟨r, hr, rfl, hd⟩ | ⟨hne, hd⟩ := hb.toDistinct.done_cases (b.chunkEnd s) s.done q
    · exact .inl ⟨r, hr, rfl, hd, finalLen_eq hb.toDistinct hr⟩
    · exact .inr ⟨hne, hd, finalLen_of_ne hne⟩
  constructor
  case none =>
    intro i hlate hi q p hlt hsome
    obtain ⟨r, hr, rfl, hd, -⟩ | ⟨hne, hd, -⟩ := hreq q
    · rw [hd] at hlt
      rcases (extend_isSome_req hlayout hb.toDistinct hon hlate hi hr).mp hsome with
        ⟨hkept, -⟩ | hold
      · exact absurd (hkept rfl) hlt.not_ge
      · refine hs.none i hlate hi _ p (lt_of_le_of_lt ?_ hlt) hold
        exact Nat.le_add_right ..
    · exact hs.none i hlate hi q p (hd ▸ hlt)
        ((extend_isSome_of_ne hlayout hon hlate hi hne).mp hsome)
  case some =>
    intro i hlate hi q p hle hlt
    obtain ⟨r, hr, rfl, hd, hf⟩ | ⟨hne, hd, hf⟩ := hreq q
    · rw [hd] at hle hlt
      rw [extend_isSome_req hlayout hb.toDistinct hon hlate hi hr, hf,
        ← hs.extend_kept hb hlate hi hr hle hlt]
      refine or_congr_left ⟨fun h => ⟨h.2.1, h.2.2.2⟩, fun h => ⟨fun _ => hle, h.1, hlt, h.2⟩⟩
    · rw [extend_isSome_of_ne hlayout hon hlate hi hne, hf]
      exact hs.some i hlate hi q p (hd ▸ hle) (hd ▸ hlt)
  case off =>
    intro i hlate hi q p hlt hle
    obtain ⟨r, hr, rfl, hd, -⟩ | ⟨hne, hd, -⟩ := hreq q
    · rw [hd] at hlt hle
      rw [extend_isSome_req hlayout hb.toDistinct hoff hlate hi hr]
      by_cases hp : s.done (b.reqs r) ≤ p
      · exact .inl ⟨fun h => absurd h (by decide), hp, hlt, hle⟩
      · refine .inr (hs.off i hlate hi _ p (not_le.mp hp) (le_trans ?_ hle))
        exact Nat.le_add_right ..
    · rw [extend_isSome_of_ne hlayout hoff hlate hi hne]
      exact hs.off i hlate hi q p (hd ▸ hlt) (hd ▸ hle)

/-- **A decode or verify forward keeps the invariant**: it writes past the prompt, and
everything that it keeps. -/
theorem lateInv_decode (hs : LateInv m prompt s) (hb : b.Decodes prompt s) {accepted : ℕ → ℕ}
    (hacc : ∀ r, r < b.bs → accepted r ≤ b.lens r) {s' : LateState K}
    (hon : s'.on = decodeForward m (b.batch prompt s) b.newK s.on)
    (hoff : s'.off = decodeForward m (b.batch prompt s) b.newKOff s.off)
    (hdone : s'.done = storeAll s.done
      ((List.range b.bs).map fun r => (b.reqs r, s.done (b.reqs r) + accepted r)))
    (hfinal : s'.finalLen = s.finalLen) : LateInv m prompt s' := by
  have hreq : ∀ q, (∃ r, r < b.bs ∧ b.reqs r = q ∧ s'.done q = s.done q + accepted r) ∨
      ((∀ r, r < b.bs → b.reqs r ≠ q) ∧ s'.done q = s.done q) := by
    intro q
    rw [hdone]
    obtain ⟨r, hr, rfl, hd⟩ | ⟨hne, hd⟩ :=
      hb.toDistinct.done_cases (fun r => s.done (b.reqs r) + accepted r) s.done q
    · exact .inl ⟨r, hr, rfl, hd⟩
    · exact .inr ⟨hne, hd⟩
  constructor
  case none =>
    intro i hlate hi q p hlt hsome
    rw [hon, decode_isSome hi] at hsome
    have hnot : ∀ r, r < b.bs → b.reqs r ≠ q := by
      rintro r hr rfl
      have := hb.done r hr
      obtain ⟨r', hr', heq, hd⟩ | ⟨hne, -⟩ := hreq (b.reqs r)
      · omega
      · exact hne r hr rfl
    obtain ⟨r, hr, heq, -⟩ | ⟨-, hd⟩ := hreq q
    · exact hnot r hr heq
    · rcases hsome with ⟨r, hr, heq, -⟩ | hsome
      · exact hnot r hr heq
      · exact hs.none i hlate hi q p (hd ▸ hlt) hsome
  case some =>
    intro i hlate hi q p hle hlt
    rw [hon, decode_isSome hi, hfinal]
    obtain ⟨r, hr, rfl, hd⟩ | ⟨hne, hd⟩ := hreq q
    · have hprompt := hb.done r hr
      by_cases hp : p < s.done (b.reqs r)
      · rw [← hs.some i hlate hi _ p hprompt hp]
        exact ⟨fun h => h.resolve_left fun ⟨_, _, _, h', _⟩ => by omega, .inr⟩
      · have := hacc r hr
        refine iff_of_true (.inl ⟨r, hr, rfl, not_lt.mp hp, ?_⟩) (by omega)
        rw [LateStep.chunkEnd]
        omega
    · rw [← hs.some i hlate hi q p (hd ▸ hle) (hd ▸ hlt)]
      exact ⟨fun h => h.resolve_left fun ⟨r', hr', heq, _⟩ => hne r' hr' heq, .inr⟩
  case off =>
    intro i hlate hi q p hlt hle
    rw [hoff, decode_isSome hi]
    obtain ⟨r, hr, rfl, hd⟩ | ⟨-, hd⟩ := hreq q
    · by_cases hp : p < s.done (b.reqs r)
      · exact .inr (hs.off i hlate hi _ p hp (by omega))
      · have := hacc r hr
        refine .inl ⟨r, hr, rfl, not_lt.mp hp, ?_⟩
        rw [LateStep.chunkEnd]
        omega
    · exact .inr (hs.off i hlate hi q p (hd ▸ hlt) (hd ▸ hle))

/-- The invariant holds in every state that the two runs reach. -/
theorem lateInv_reach (hlayout : IsTailLayout layout)
    (hs : (lateMachine K layout m prompt).Reach s) : LateInv m prompt s := by
  induction hs with
  | init hi =>
    obtain ⟨hdone, hon, -⟩ := hi
    constructor
    case none => exact fun i _ _ q p _ hsome => by simp [hon] at hsome
    case some => exact fun i _ _ q p _ hlt => by simp [hdone] at hlt
    case off => exact fun i _ _ q p hlt => by simp [hdone] at hlt
  | @step s s' a _ hst ih =>
    cases a with
    | extend b =>
      obtain ⟨hb, hon, hoff, hdone, hfinal⟩ := hst
      exact lateInv_extend hlayout ih hb hon hoff hdone hfinal
    | decode b accepted =>
      obtain ⟨hb, hacc, hon, hoff, hdone, hfinal⟩ := hst
      exact lateInv_decode ih hb hacc hon hoff hdone hfinal

/-! ## The window of a prompt -/

variable (m prompt) in
/-- **The late layers have the prompt's window**: at a late layer the last 128 positions of
the prompt are written, and every row of every decode or verify forward that follows finds
as much as with the switch off. -/
def HasWindow (s : LateState K) (i q : ℕ) : Prop :=
  (∀ p, prompt q - min swaWindow (prompt q) ≤ p → p < prompt q →
    (s.on i (q, p)).isSome = true) ∧
  ∀ (d : LateStep K) (r j : ℕ), d.Decodes prompt s → r < d.bs → d.reqs r = q → j < d.lens r →
    windowReads (decodeForward m (d.batch prompt s) d.newK s.on) i q (s.done q + j) =
      windowReads (decodeForward m (d.batch prompt s) d.newKOff s.off) i q (s.done q + j)

/-- **When the switch keeps the window.** In every state that a run reaches, a late layer has
the window of a request whose prompt is done if and only if the chunk that finished the
prompt has at least as many rows as the window of the prompt has positions. -/
theorem late_window_iff (hlayout : IsTailLayout layout)
    (hs : (lateMachine K layout m prompt).Reach s) {i q : ℕ} (hlate : m.lateLayerStart ≤ i)
    (hi : i < m.numLayers) (hq : prompt q ≤ s.done q) :
    HasWindow m prompt s i q ↔ min swaWindow (prompt q) ≤ s.finalLen q := by
  have hinv := lateInv_reach hlayout hs
  have hsome := fun p hp => hinv.some i hlate hi q p hq hp
  constructor
  · rintro ⟨hwindow, -⟩
    by_cases hzero : prompt q = 0
    · rw [hzero]
      exact Nat.zero_le _
    · have hpos : 0 < min swaWindow (prompt q) := lt_min (by decide) (Nat.pos_of_ne_zero hzero)
      have hfirst := hwindow (prompt q - min swaWindow (prompt q)) le_rfl (by omega)
      have := (hsome _ (by omega)).mp hfirst
      omega
  · intro hlen
    refine ⟨fun p hle hlt => (hsome p (by omega)).mpr (by omega), fun d r j hd hr hreq hj => ?_⟩
    -- the row finds every position of its window, with the switch on as with it off
    refine List.filter_congr fun t ht => ?_
    have ht := List.mem_range.mp ht
    by_cases hle : t ≤ s.done q + j
    · suffices hboth : ∀ p, p ≤ s.done q + j → s.done q + j < p + swaWindow →
          (decodeForward m (d.batch prompt s) d.newK s.on i (q, p)).isSome = true ∧
          (decodeForward m (d.batch prompt s) d.newKOff s.off i (q, p)).isSome = true by
        obtain ⟨h₁, h₂⟩ := hboth (s.done q + j - t) (by omega) (by omega)
        rw [h₁, h₂]
      intro p hp hpw
      rw [decode_isSome hi, decode_isSome hi]
      by_cases hnew : s.done q ≤ p
      · have hrow : ∃ r, r < d.bs ∧ d.reqs r = q ∧ s.done q ≤ p ∧ p < d.chunkEnd s r := by
          refine ⟨r, hr, hreq, hnew, ?_⟩
          rw [LateStep.chunkEnd, hreq]
          omega
        exact ⟨.inl hrow, .inl hrow⟩
      · exact ⟨.inr ((hsome p (not_le.mp hnew)).mpr (by omega)),
          .inr (hinv.off i hlate hi q p (not_le.mp hnew) (by omega))⟩
    · rw [decide_eq_false hle, Bool.false_and, Bool.false_and]

end

/-! ## A short final chunk -/

/-- The last rows of each request, request after request. -/
def lastRows : TailLayout := fun n lens _ tailLen =>
  ((List.range n).flatMap fun r => (List.range (min tailLen (lens r))).map fun k =>
    segStart lens r + (lens r - min tailLen (lens r)) + k, fun r => min tailLen (lens r))

theorem lastRows_isTailLayout : IsTailLayout lastRows :=
    ⟨fun _ _ _ _ => rfl, fun _ _ _ _ _ _ => rfl⟩

/-- Four layers, of which the last is late. -/
def smallModel : LateLayerModel := ⟨4, 3⟩

/-- The state before the first forward, when no row has been written. -/
def lateFresh : LateState Unit := ⟨fun _ => 0, fun _ => 0, fun _ _ => none, fun _ _ => none⟩

/-- A chunk of one request. -/
def oneChunk (len : ℕ) : LateStep Unit where
  bs := 1
  reqs _ := 0
  lens _ := len
  returnLogprob := false
  logprobStartLens _ := 0
  captureFull := false
  newK _ _ := ()
  newKOff _ _ := ()

/-- A state after a chunk of the only request. -/
def lateAfter (prompt : ℕ → ℕ) (s : LateState Unit) (len : ℕ) : LateState Unit :=
  let b := oneChunk len
  let run := fun skip cache =>
    (extendForward lastRows smallModel skip (b.batch prompt s) b.newK cache).toOption.getD cache
  { done := storeAll s.done ((List.range b.bs).map fun r => (b.reqs r, b.chunkEnd s r))
    finalLen := storeAll s.finalLen ((b.finishing prompt s).map fun r => (b.reqs r, b.lens r))
    on := run true s.on
    off := run false s.off }

/-- From a state that a run reaches, a chunk of the prompt that is still to come leads to a reached
state. -/
theorem lateAfter_reach {prompt : ℕ → ℕ} {s : LateState Unit}
    (hs : (lateMachine Unit lastRows smallModel prompt).Reach s) {len : ℕ} (hlen : 0 < len)
    (hfirst : s.done 0 < prompt 0) (hend : s.done 0 + len ≤ prompt 0) :
    (lateMachine Unit lastRows smallModel prompt).Reach (lateAfter prompt s len) := by
  refine .step (a := .extend (oneChunk len)) hs ⟨⟨⟨fun r r' hr hr' _ => ?_, fun _ _ => hlen⟩,
    fun _ _ _ => hend, fun _ _ hle => absurd hle (not_le.mpr hfirst)⟩, rfl, rfl, rfl, rfl⟩
  exact (Nat.lt_one_iff.mp hr).trans (Nat.lt_one_iff.mp hr').symm

/-- A prompt of 129 tokens whose final chunk has 128 keeps its window. -/
theorem late_window_iff_129 :
    HasWindow smallModel (fun _ => 129)
      (lateAfter (fun _ => 129) (lateAfter (fun _ => 129) lateFresh 1) 128) 3 0 :=
  (late_window_iff lastRows_isTailLayout
    (lateAfter_reach (lateAfter_reach (.init ⟨fun _ => rfl, fun _ _ => rfl, fun _ _ => rfl⟩)
      (by decide) (by decide) (by decide)) (by decide) (by decide) (by decide))
    (by decide) (by decide) (by decide)).mpr (by decide)

/-- **A prompt of 129 tokens whose final chunk has one** loses it: the late layer has nothing
at position 100. -/
theorem late_window_lost :
    ∃ s, (lateMachine Unit lastRows smallModel fun _ => 129).Reach s ∧ s.done 0 = 129 ∧
      ¬HasWindow smallModel (fun _ => 129) s 3 0 := by
  refine ⟨lateAfter (fun _ => 129) (lateAfter (fun _ => 129) lateFresh 128) 1,
    lateAfter_reach (lateAfter_reach (.init ⟨fun _ => rfl, fun _ _ => rfl, fun _ _ => rfl⟩)
      (by decide) (by decide) (by decide)) (by decide) (by decide) (by decide), by decide, ?_⟩
  rintro ⟨hwindow, -⟩
  have hread := hwindow 100 (by decide) (by decide)
  exact absurd hread (by decide +kernel)

end LuzServing

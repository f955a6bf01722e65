import LuzServing.Machine
import LuzServing.EngramHash
import LuzServing.Segments

/-!
# Engram hash ids over whole runs

A slot's history row recalls the newest committed tokens of the slot's request
(`Recalls`): at look-backs that exist, up to the image token standing for
multimodal pad ids. Whatever step is taken for whatever mix of requests, a token
that is not padding finds its predecessors (`torchTokens_eq`), so its hash ids are
those of the whole sequence, and what is committed is recalled again. A reused slot
needs no cleaning: the look-backs that its old row would serve are off the sequence
start. A request that starts behind a cached prefix is the exception, since its slot
never saw that prefix. Until its first chunk is committed the slot is stale, and only
the predecessors that the scheduler supplies are right.
-/

namespace LuzServing

/-! ## The rows of a batch -/

namespace EngramBatch

variable (b : EngramBatch)

/-- The number of tokens of request `r`. -/
def len (r : ℕ) : ℕ :=
  match b.mode with
  | .decode => 1
  | .verify block => block
  | .extend => b.extendSeqLens r

/-- The first token of request `r`. -/
def start (r : ℕ) : ℕ :=
  match b.mode with
  | .decode => r
  | .verify block => r * block
  | .extend => b.extendStartLoc r

/-- The tokens of request `r`. -/
def tokens (r : ℕ) : List ℕ := (List.range (b.len r)).map fun j => b.inputIds (b.start r + j)

/-- Request `r` is none of the graph's padding: it has tokens, and a place for the K of
its last one. -/
def Live (r : ℕ) : Prop :=
  r < b.bs ∧ 0 < b.len r ∧ ∀ outLoc ∈ b.outCacheLoc, outLoc (b.start r + b.len r - 1) ≠ 0

theorem length_tokens (r : ℕ) : (b.tokens r).length = b.len r := by
  simp [tokens]

/-- A token of a request is the batch's token at the same offset from where the request's run
begins. -/
theorem getD_tokens {r j : ℕ} (hj : j < b.len r) :
    (b.tokens r).getD j 0 = b.inputIds (b.start r + j) := by
  rw [tokens, List.getD_eq_getElem?_getD, List.getElem?_map, List.getElem?_range hj]
  rfl

end EngramBatch

/-- What a run has made of the requests: the history, and for each slot the committed
tokens of its request, the cached prefix included. -/
structure EngramState : Type where
  /-- the history table -/
  history : History
  /-- the committed tokens -/
  seqs : ℕ → List ℕ
  /-- the request has a cached prefix, and the row is still somebody else's -/
  stale : ℕ → Bool

namespace EngramHasher

variable (H : EngramHasher)

/-- The history row recalls the newest tokens of the sequence, oldest first, at the
look-backs that exist. -/
def Recalls (row : ℕ → ℕ) (seq : List ℕ) : Prop :=
  ∀ k, k < H.maxNgramSize - 1 → k < seq.length →
    let token := seq.getD (seq.length - 1 - k) 0
    row (H.maxNgramSize - 2 - k) = token ∨ row (H.maxNgramSize - 2 - k) = H.normalize token

/-- A row of predecessors that reads like the newest tokens of the sequence, multimodal
pad ids standing for the image token. -/
def ReadsAs (row : ℕ → ℕ) (seq : List ℕ) : Prop :=
  ∀ k, k < H.maxNgramSize - 1 → k < seq.length →
    H.normalize (row (H.maxNgramSize - 2 - k)) = H.normalize (seq.getD (seq.length - 1 - k) 0)

/-- **A batch for the state**: the run of each live request goes on where its slot's
request stopped. -/
structure Fits (p : Path) (b : EngramBatch) (st : EngramState) : Prop where
  /-- what the kernels assert -/
  asserts : p = .cuda → H.PowersOfTwo ∧ (b.mode = .decode → b.outCacheLoc.isSome)
  /-- one run after another, padding last -/
  layout : match b.mode with
    | .decode => b.numTokens = b.bs
    | .verify block => b.numTokens = b.bs * block
    | .extend => (∀ r, r < b.bs → b.extendStartLoc r = ((List.range r).map b.extendSeqLens).sum) ∧
        b.extendRows.length ≤ b.numTokens
  /-- live requests have slots of their own -/
  slot_lt : ∀ r, b.Live r → b.reqSlots r < H.padRow
  /-- and distinct ones -/
  slot_inj : ∀ r r', b.Live r → b.Live r' → b.reqSlots r = b.reqSlots r' → r = r'
  /-- positions go on where the committed tokens end -/
  positions : ∀ r, b.Live r → ∀ j, j < b.len r →
    b.positions (b.start r + j) = (st.seqs (b.reqSlots r)).length + j
  /-- the scheduler supplies the preceding tokens -/
  supplied : ∀ sup ∈ b.ngramHistory, ∀ r, b.Live r → H.ReadsAs (sup r) (st.seqs (b.reqSlots r))
  /-- and does so for the first chunk behind a cached prefix -/
  prefixed : ∀ r, b.Live r → st.stale (b.reqSlots r) = true →
    b.mode = .extend ∧ b.ngramHistory.isSome

/-! ## Finding the predecessors -/

/-- `repeat_interleave` gives each request the rows of its own run, at the offset where the run
begins. -/
theorem getD_extendRows (b : EngramBatch) {r j : ℕ} (hr : r < b.bs) (hj : j < b.extendSeqLens r) :
    ((List.range r).map b.extendSeqLens).sum + j < b.extendRows.length ∧
      b.extendRows.getD (((List.range r).map b.extendSeqLens).sum + j) 0 = r := by
  rw [sum_map_range]
  refine ⟨?_, getD_segRows hr hj 0⟩
  apply (seg_lt hr hj).trans_le
  exact (length_segRows b.bs).ge

/-- The token at an offset of a request's run belongs to this request and has this offset. -/
theorem row_start {p : Path} {b : EngramBatch} {st : EngramState} (hfit : H.Fits p b st) {r j : ℕ}
    (hr : r < b.bs) (hj : j < b.len r) :
    b.start r + j < b.numReal ∧ b.row (b.start r + j) = r ∧ b.offset (b.start r + j) = j := by
  have hlayout := hfit.layout
  unfold EngramBatch.len at hj
  unfold EngramBatch.start EngramBatch.numReal EngramBatch.offset
  cases hmode : b.mode with
  | decode =>
    simp only [hmode] at hj hlayout ⊢
    obtain rfl : j = 0 := by omega
    refine ⟨by omega, ?_, rfl⟩
    unfold EngramBatch.row
    rw [hmode]
    rfl
  | verify block =>
    simp only [hmode] at hj hlayout ⊢
    have hdiv : (r * block + j) / block = r := by
      rw [Nat.mul_comm, Nat.mul_add_div (by omega), Nat.div_eq_of_lt hj, Nat.add_zero]
    refine ⟨?_, ?_, ?_⟩
    · have h := Nat.mul_le_mul_right block (Nat.succ_le_of_lt hr)
      rw [Nat.succ_mul] at h
      omega
    · unfold EngramBatch.row
      simp only [hmode, hdiv]
    · rw [hdiv, Nat.add_sub_cancel_left]
  | extend =>
    simp only [hmode] at hj hlayout ⊢
    obtain ⟨hlt, hget⟩ := getD_extendRows b hr hj
    have hrow : b.row (b.extendStartLoc r + j) = r := by
      unfold EngramBatch.row
      simp only [hmode, hlayout.1 r hr]
      exact hget
    refine ⟨by rwa [hlayout.1 r hr], hrow, ?_⟩
    rw [hrow, Nat.add_sub_cancel_left]

/-- A token that has been normalized is not changed when it is normalized once more. -/
theorem normalize_normalize (token : ℕ) : H.normalize (H.normalize token) = H.normalize token := by
  unfold normalize
  cases H.imageTokenId with
  | none => rfl
  | some image => grind

/-- A history row that recalls a sequence is read as the look-backs of the sequence itself. -/
theorem Recalls.readsAs {H : EngramHasher} {row : ℕ → ℕ} {seq : List ℕ} (h : H.Recalls row seq) :
    H.ReadsAs row seq := by
  intro k hk hlt
  rcases h k hk hlt with heq | heq
  · rw [heq]
  · rw [heq, normalize_normalize]

/-- The history row that a live request reads, its slot's or the supplied one, reads
like its sequence. -/
def Reads (b : EngramBatch) (st : EngramState) (r : ℕ) : Prop :=
  H.ReadsAs (b.histRow st.history r) (st.seqs (b.reqSlots r))

/-- A live request reads its history off its slot where that recalls the sequence, and
off what the scheduler supplies where the slot is stale. -/
theorem reads_of_recalls {p : Path} {b : EngramBatch} {st : EngramState} (hfit : H.Fits p b st)
    {r : ℕ} (hlive : b.Live r) (hslot : st.stale (b.reqSlots r) = false →
      H.Recalls (st.history (b.reqSlots r)) (st.seqs (b.reqSlots r))) :
    H.Reads b st r := by
  unfold Reads EngramBatch.histRow
  split
  next sup _ hsup => exact hfit.supplied sup hsup r hlive
  next hslots =>
    -- a stale slot would have an extend with a supplied history
    refine (hslot (Bool.eq_false_iff.mpr fun hstale => ?_)).readsAs
    obtain ⟨hmode, hsome⟩ := hfit.prefixed r hlive hstale
    obtain ⟨sup, hsup⟩ := Option.isSome_iff_exists.mp hsome
    exact hslots sup hmode hsup

/-- **A token finds its predecessors**: those of its sequence, the run's own and the
recalled ones. -/
theorem torchTokens_eq {p : Path} {b : EngramBatch} {st : EngramState} (hfit : H.Fits p b st)
    {r j s : ℕ} (hlive : b.Live r) (hj : j < b.len r)
    (hreads : H.Reads b st r) (hs : s < H.maxNgramSize)
    (hpos : s ≤ (st.seqs (b.reqSlots r)).length + j) :
    H.torchTokens b st.history (b.start r + j) s =
      H.refToken (st.seqs (b.reqSlots r) ++ b.tokens r)
        ((st.seqs (b.reqSlots r)).length + j) s := by
  obtain ⟨hreal, hrow, hoff⟩ := H.row_start hfit hlive.1 hj
  have hrecall : H.ReadsAs (b.histRow st.history r) (st.seqs (b.reqSlots r)) := hreads
  set seq := st.seqs (b.reqSlots r) with hseq
  unfold torchTokens torchPredecessor refToken
  simp only [if_pos hreal, hrow, hoff]
  by_cases hsj : s ≤ j
  · -- an earlier token of the run
    have hget : (seq ++ b.tokens r).getD (seq.length + j - s) 0 =
        b.inputIds (b.start r + j - s) := by
      rw [List.getD_append_right _ _ _ _ (by omega), show seq.length + j - s - seq.length = j - s
        by omega, b.getD_tokens (by omega)]
      congr 1
      omega
    rw [hget]
    cases hmode : b.mode with
    | decode =>
      have hj0 : j = 0 := by
        unfold EngramBatch.len at hj
        rw [hmode] at hj
        exact Nat.lt_one_iff.mp hj
      simp only
      rw [if_pos (by omega)]
      congr 2
      omega
    | verify block => simp only [if_pos hsj]
    | extend => simp only [if_pos hsj]
  · -- a recalled one
    have hk : s - j - 1 < H.maxNgramSize - 1 := by omega
    have hget : (seq ++ b.tokens r).getD (seq.length + j - s) 0 =
        seq.getD (seq.length - 1 - (s - j - 1)) 0 := by
      rw [List.getD_append _ _ _ _ (by omega)]
      congr 1
      omega
    rw [hget, ← hrecall _ hk (by omega)]
    cases hmode : b.mode with
    | decode =>
      have hj0 : j = 0 := by
        unfold EngramBatch.len at hj
        rw [hmode] at hj
        exact Nat.lt_one_iff.mp hj
      simp only
      rw [if_neg (by omega)]
      congr 2
      omega
    | verify block => simp only [if_neg hsj, Nat.min_eq_left (Nat.sub_le ..)]
    | extend => simp only [if_neg hsj, Nat.min_eq_left (Nat.sub_le ..)]

/-- The torch path blocks a look-back of a token exactly where the look-back of its sequence is
blocked. -/
theorem torchBlocked_eq {p : Path} {b : EngramBatch} {st : EngramState} (hfit : H.Fits p b st)
    {r j s : ℕ} (hlive : b.Live r) (hj : j < b.len r)
    (hreads : H.Reads b st r) (hs : s < H.maxNgramSize) :
    H.torchBlocked b st.history (b.start r + j) s =
      H.refBlocked (st.seqs (b.reqSlots r) ++ b.tokens r)
        ((st.seqs (b.reqSlots r)).length + j) s := by
  obtain ⟨hreal, -, -⟩ := H.row_start hfit hlive.1 hj
  have hpad : decide (b.numReal ≤ b.start r + j) = false := by
    rw [decide_eq_false_iff_not]
    omega
  unfold torchBlocked refBlocked
  rw [hfit.positions r hlive j hj]
  simp only [hpad, Bool.or_false]
  cases himg : H.imageTokenId with
  | some image =>
    refine any_congr_mem fun s' hs' => ?_
    have hs'' := List.mem_range.mp hs'
    by_cases hpos : s' ≤ (st.seqs (b.reqSlots r)).length + j
    · rw [H.torchTokens_eq hfit hlive hj hreads (by omega) hpos]
    · rw [decide_eq_true (Nat.lt_of_not_le hpos), Bool.true_or, Bool.true_or]
  | none =>
    have hno : ∀ x, H.isImage x = false := by
      intro x
      unfold isImage
      rw [himg]
    simp only [hno]
    rw [any_off, Bool.or_false]

/-- **The hash ids of a live token** are those of the whole sequence. -/
theorem hashTable_eq {p : Path} {b : EngramBatch} {st : EngramState} (hfit : H.Fits p b st)
    {r j : ℕ} (hlive : b.Live r) (hj : j < b.len r)
    (hreads : H.Reads b st r) (l : ℕ) {i : ℕ} (hi : i < H.maxNgramSize) (h : ℕ) :
    (H.hashTable p b st.history).2 (b.start r + j) l i h =
      H.refHash (st.seqs (b.reqSlots r) ++ b.tokens r)
        ((st.seqs (b.reqSlots r)).length + j) l i h := by
  have htorch : (H.hashTable .torch b st.history).2 (b.start r + j) l i h =
      H.refHash (st.seqs (b.reqSlots r) ++ b.tokens r)
        ((st.seqs (b.reqSlots r)).length + j) l i h := by
    refine H.computeEngramHashIds_congr
      (fun s hs => H.torchBlocked_eq hfit hlive hj hreads (by omega)) (fun s hs hb => ?_) l h
    refine H.torchTokens_eq hfit hlive hj hreads (by omega) ?_
    by_contra hpos
    rw [H.torchBlocked_eq hfit hlive hj hreads (by omega), refBlocked, List.any_eq_false] at hb
    exact hb s (List.mem_range.mpr (Nat.lt_succ_self s))
      (by rw [decide_eq_true (Nat.lt_of_not_le hpos), Bool.true_or])
  cases p with
  | torch => exact htorch
  | cuda => rw [(H.hashTable_cuda b st.history).2 _ l i h hi, htorch]

/-! ## Committing the newest tokens -/

/-- The row that a live request commits recalls its sequence, run included. -/
theorem committed_recalls {p : Path} {b : EngramBatch} {st : EngramState} (hfit : H.Fits p b st)
    {r : ℕ} (hlive : b.Live r) (hreads : H.Reads b st r) :
    H.Recalls (fun c => H.torchTokens b st.history (b.start r + b.len r - 1)
      (H.maxNgramSize - 2 - c)) (st.seqs (b.reqSlots r) ++ b.tokens r) := by
  intro k hk hlt token
  have hlen := hlive.2.1
  rw [List.length_append, b.length_tokens] at hlt
  right
  have hshift : H.maxNgramSize - 2 - (H.maxNgramSize - 2 - k) = k := by omega
  simp only [hshift]
  rw [show b.start r + b.len r - 1 = b.start r + (b.len r - 1) by omega,
    H.torchTokens_eq hfit hlive (by omega) hreads (by omega) (by omega), refToken]
  congr 2
  rw [List.length_append, b.length_tokens]
  omega

/-- The last token of a live request is one of the batch's. -/
theorem last_lt {p : Path} {b : EngramBatch} {st : EngramState} (hfit : H.Fits p b st) {r : ℕ}
    (hlive : b.Live r) : b.start r + b.len r - 1 < b.numTokens := by
  obtain ⟨hr, hlen, -⟩ := hlive
  have hlt := (H.row_start hfit hr (j := b.len r - 1) (by omega)).1
  have hlayout := hfit.layout
  have hle : b.numReal ≤ b.numTokens := by
    unfold EngramBatch.numReal
    cases hmode : b.mode with
    | extend =>
      rw [hmode] at hlayout
      exact hlayout.2
    | _ => exact le_rfl
  omega

/-- **What a commit leaves**: each live request's newest tokens, and every other
request's row as it was. -/
structure Committed (b : EngramBatch) (st : EngramState) (history : History)
    (newest : ℕ → List ℕ) : Prop where
  /-- a live request's row recalls what it committed -/
  live : ∀ r, b.Live r →
    H.Recalls (history (b.reqSlots r)) (st.seqs (b.reqSlots r) ++ newest r)
  /-- the other rows stay -/
  rest : ∀ slot, slot < H.padRow → (∀ r, b.Live r → b.reqSlots r ≠ slot) →
    history slot = st.history slot

/-- A commit that stores a row for each live request, and the others' on the spare
row. -/
theorem committed_of_stores {p : Path} {b : EngramBatch} {st : EngramState}
    (hfit : H.Fits p b st) {newest : ℕ → List ℕ} {stores : List (ℕ × (ℕ → ℕ))}
    (row : ℕ → ℕ → ℕ)
    (hrow : ∀ r, b.Live r → H.Recalls (row r) (st.seqs (b.reqSlots r) ++ newest r))
    (hstores : ∀ s ∈ stores, s.1 = H.padRow ∨ ∃ r, b.Live r ∧ s = (b.reqSlots r, row r))
    (hlive : ∀ r, b.Live r → (b.reqSlots r, row r) ∈ stores) :
    H.Committed b st (storeAll st.history stores) newest := by
  constructor
  · intro r hr
    have heq : storeAll st.history stores (b.reqSlots r) = row r := by
      refine storeAll_eq (fun s hs hslot => ?_) ⟨_, hlive r hr, rfl⟩
      rcases hstores s hs with hpad | ⟨r', hr', rfl⟩
      · exact absurd (hslot.symm.trans hpad) (hfit.slot_lt r hr).ne
      · rw [hfit.slot_inj r' r hr' hr hslot]
    rw [heq]
    exact hrow r hr
  · intro slot hslot hother
    refine storeAll_of_ne fun s hs hs₁ => ?_
    rcases hstores s hs with hpad | ⟨r, hr, rfl⟩
    · exact absurd (hs₁.symm.trans hpad) hslot.ne
    · exact hother r hr hs₁

/-- Where a request commits to: a live one to its slot, the others to the spare row. -/
theorem torchCommitRow_eq {b : EngramBatch} {commitRows commitLast : ℕ → ℕ} {r : ℕ}
    (hr : r < b.bs) (hrow : commitRows r = if 0 < b.len r then b.reqSlots r else H.padRow)
    (hlast : 0 < b.len r → commitLast r = b.start r + b.len r - 1) :
    (b.Live r → H.torchCommitRow b commitRows commitLast r = b.reqSlots r) ∧
      (¬b.Live r → H.torchCommitRow b commitRows commitLast r = H.padRow) := by
  unfold torchCommitRow
  constructor
  · rintro ⟨-, hlen, hloc⟩
    rw [hrow, if_pos hlen, hlast hlen]
    split
    next outLoc hout => exact if_neg (hloc outLoc hout)
    next => rfl
  · intro hdead
    by_cases hlen : 0 < b.len r
    · split
      next outLoc hout =>
        refine if_pos ?_
        by_contra hne
        refine hdead ⟨hr, hlen, fun out ho => ?_⟩
        rw [hout, Option.mem_def, Option.some.injEq] at ho
        rwa [← ho, ← hlast hlen]
      next hnone => exact absurd ⟨hr, hlen, by simp [hnone]⟩ hdead
    · rw [hrow, if_neg hlen]
      split
      · exact ite_self _
      · rfl

/-- The commit of the torch path leaves every live slot with the last tokens of its sequence. -/
theorem torchCommit_committed {p : Path} {b : EngramBatch} {st : EngramState}
    (hfit : H.Fits p b st)
    (hreads : ∀ r, b.Live r → H.Reads b st r)
    (commitRows commitLast : ℕ → ℕ)
    (hrow : ∀ r, r < b.bs → commitRows r = if 0 < b.len r then b.reqSlots r else H.padRow)
    (hlast : ∀ r, r < b.bs → 0 < b.len r → commitLast r = b.start r + b.len r - 1) :
    H.Committed b st (H.torchCommit b st.history (H.torchTokens b st.history) commitRows
      commitLast) b.tokens := by
  refine H.committed_of_stores hfit
    (fun r c => H.torchTokens b st.history (b.start r + b.len r - 1) (H.maxNgramSize - 2 - c))
    (fun r hr => H.committed_recalls hfit hr (hreads r hr)) ?_ ?_
  · intro s hs
    obtain ⟨r, hr, rfl⟩ := List.mem_map.mp hs
    have hr := List.mem_range.mp hr
    obtain ⟨hlive, hdead⟩ := H.torchCommitRow_eq hr (hrow r hr) (hlast r hr)
    by_cases hl : b.Live r
    · exact .inr ⟨r, hl, by rw [hlive hl, hlast r hr hl.2.1]⟩
    · exact .inl (hdead hl)
  · intro r hr
    refine List.mem_map.mpr ⟨r, List.mem_range.mpr hr.1, ?_⟩
    rw [(H.torchCommitRow_eq hr.1 (hrow r hr.1) (hlast r hr.1)).1 hr, hlast r hr.1 hr.2.1]

/-- The commit inside the decode kernel leaves every live slot with the last tokens of its
sequence. -/
theorem kernelCommit_committed {p : Path} {b : EngramBatch} {st : EngramState}
    (hfit : H.Fits p b st) (hmode : b.mode = .decode)
    (hreads : ∀ r, b.Live r → H.Reads b st r)
    {outLoc : ℕ → ℕ} (hout : b.outCacheLoc = some outLoc) :
    H.Committed b st (H.kernelCommit b st.history outLoc) b.tokens := by
  have htokens : H.kernelTokens b st.history = H.torchTokens b st.history := by
    funext t s
    exact H.kernelTokens_eq b st.history t s
  have hone : ∀ r, b.start r + b.len r - 1 = r ∧ b.len r = 1 := by
    intro r
    unfold EngramBatch.start EngramBatch.len
    rw [hmode]
    exact ⟨rfl, rfl⟩
  have hbs : b.numTokens = b.bs := by
    have h := hfit.layout
    rw [hmode] at h
    exact h
  refine H.committed_of_stores hfit
    (fun r c => H.torchTokens b st.history (b.start r + b.len r - 1) (H.maxNgramSize - 2 - c))
    (fun r hr => H.committed_recalls hfit hr (hreads r hr)) ?_ ?_
  · intro s hs
    obtain ⟨r, hr, rfl⟩ := List.mem_map.mp hs
    obtain ⟨hr, hne⟩ := List.mem_filter.mp hr
    refine .inr ⟨r, ⟨hbs ▸ List.mem_range.mp hr, by rw [(hone r).2]; exact Nat.one_pos, ?_⟩, ?_⟩
    · rintro out ho
      rw [hout, Option.mem_def, Option.some.injEq] at ho
      rw [← ho, (hone r).1]
      exact of_decide_eq_true hne
    · simp only [htokens, (hone r).1]
  · intro r hr
    refine List.mem_map.mpr ⟨r, List.mem_filter.mpr ⟨?_, ?_⟩, ?_⟩
    · rw [hbs]
      exact List.mem_range.mpr hr.1
    · have hne := hr.2.2 outLoc hout
      rw [(hone r).1] at hne
      exact decide_eq_true hne
    · simp only [htokens, (hone r).1]

/-! ## The forward pass -/

/-- **The forward's spec.** It returns, every live token has the hash ids of its
sequence, verify leaves the history alone, and decode and extend commit their runs. -/
theorem forward_spec {p : Path} {b : EngramBatch} {st : EngramState} (hfit : H.Fits p b st)
    (hreads : ∀ r, b.Live r → H.Reads b st r) :
    ∃ hashIds history, H.forward p b st.history = some (hashIds, history) ∧
      (∀ r, b.Live r → ∀ j, j < b.len r → ∀ l i h, i < H.maxNgramSize →
        hashIds (b.start r + j) l i h = H.refHash (st.seqs (b.reqSlots r) ++ b.tokens r)
          ((st.seqs (b.reqSlots r)).length + j) l i h) ∧
      ((∃ block, b.mode = .verify block) ∧ history = st.history ∨
        (∀ block, b.mode ≠ .verify block) ∧ H.Committed b st history b.tokens) := by
  by_cases hempty : b.numTokens = 0
  · -- no token, so no live request
    have hnone : ∀ r, ¬b.Live r := fun r hr => by
      have := H.last_lt hfit hr
      omega
    refine ⟨_, st.history, by rw [forward, if_pos hempty], fun r hr => absurd hr (hnone r), ?_⟩
    by_cases hverify : ∃ block, b.mode = .verify block
    · exact .inl ⟨hverify, rfl⟩
    · exact .inr ⟨fun block h => hverify ⟨block, h⟩, fun r hr => absurd hr (hnone r),
        fun _ _ _ => rfl⟩
  · have hassert : ¬(p = .cuda ∧ ¬H.PowersOfTwo) := fun h => h.2 (hfit.asserts h.1).1
    have hhash : ∀ r, b.Live r → ∀ j, j < b.len r → ∀ l i h, i < H.maxNgramSize →
        (H.hashTable p b st.history).2 (b.start r + j) l i h =
          H.refHash (st.seqs (b.reqSlots r) ++ b.tokens r)
            ((st.seqs (b.reqSlots r)).length + j) l i h :=
      fun r hr j hj l i h hi => H.hashTable_eq hfit hr hj (hreads r hr) l hi h
    have htokens : (H.hashTable p b st.history).1 = H.torchTokens b st.history := by
      cases p with
      | torch => rfl
      | cuda => exact (H.hashTable_cuda b st.history).1
    rw [forward, if_neg hempty, if_neg hassert]
    simp only
    cases hmode : b.mode with
    | verify block =>
      have hlayout := hfit.layout
      rw [hmode] at hlayout
      exact ⟨_, _, if_pos hlayout, hhash, .inl ⟨⟨block, rfl⟩, rfl⟩⟩
    | decode =>
      have hlen : ∀ r, b.len r = 1 ∧ b.start r = r := by
        intro r
        unfold EngramBatch.len EngramBatch.start
        rw [hmode]
        exact ⟨rfl, rfl⟩
      have htorch := H.torchCommit_committed hfit hreads b.reqSlots id
        (fun r _ => by rw [if_pos (by rw [(hlen r).1]; exact Nat.one_pos)])
        fun r _ _ => by rw [(hlen r).1, (hlen r).2]; rfl
      cases p with
      | torch =>
        refine ⟨_, _, rfl, hhash, .inr ⟨by simp, ?_⟩⟩
        rw [htokens]
        exact htorch
      | cuda =>
        obtain ⟨outLoc, hout⟩ := Option.isSome_iff_exists.mp ((hfit.asserts rfl).2 hmode)
        simp only [hout]
        exact ⟨_, _, rfl, hhash, .inr ⟨by simp, H.kernelCommit_committed hfit hmode hreads hout⟩⟩
    | extend =>
      have hlen : ∀ r, b.len r = b.extendSeqLens r ∧ b.start r = b.extendStartLoc r := by
        intro r
        unfold EngramBatch.len EngramBatch.start
        rw [hmode]
        exact ⟨rfl, rfl⟩
      have hlayout := hfit.layout
      rw [hmode] at hlayout
      refine ⟨_, _, rfl, hhash, .inr ⟨by simp, ?_⟩⟩
      rw [htokens]
      refine H.torchCommit_committed hfit hreads _ _ (fun r _ => by rw [(hlen r).1])
        fun r hr hpos => ?_
      have hlt := (H.row_start hfit hr (j := b.len r - 1) (by omega)).1
      have hreal : b.numReal = b.extendRows.length := by
        unfold EngramBatch.numReal
        rw [hmode]
      rw [(hlen r).1, (hlen r).2] at *
      exact Nat.min_eq_left (by omega)

/-! ## The commit after verify -/

/-- The row after a commit recalls the sequence and the committed part of the block. -/
theorem window_recalls {old ids : ℕ → ℕ} {seq : List ℕ} (hold : H.Recalls old seq) (commit : ℕ) :
    H.Recalls (H.torchWindow old ids commit) (seq ++ (List.range commit).map ids) := by
  intro k hk hlt token
  rw [List.length_append, List.length_map, List.length_range] at hlt
  have hlength : (seq ++ (List.range commit).map ids).length = seq.length + commit := by
    rw [List.length_append, List.length_map, List.length_range]
  have htoken : token = (seq ++ (List.range commit).map ids).getD
      (seq.length + commit - 1 - k) 0 := by
    rw [← hlength]
  rw [htoken]
  simp only [torchWindow]
  by_cases hnew : k < commit
  · -- out of the block
    left
    rw [if_neg (by omega), List.getD_append_right _ _ _ _ (by omega),
      List.getD_eq_getElem?_getD, List.getElem?_map, List.getElem?_range (by omega)]
    simp only [Option.map_some, Option.getD_some]
    congr 1
    omega
  · -- out of the row before
    rw [if_pos (by omega), List.getD_append _ _ _ _ (by omega),
      show commit + (H.maxNgramSize - 2 - k) = H.maxNgramSize - 2 - (k - commit) by omega,
      show seq.length + commit - 1 - k = seq.length - 1 - (k - commit) by omega]
    exact hold (k - commit) (by omega) (by omega)

/-- The commit of the live requests `rows` after a verify block. -/
def commitBlock (p : Path) (b : EngramBatch) (rows : List ℕ) (commitLens : ℕ → ℕ)
    (history : History) : History :=
  H.commitAfterVerify p rows.length (fun i c => b.inputIds (b.start (rows.getD i 0) + c))
    (fun i => b.reqSlots (rows.getD i 0)) (fun i => commitLens (rows.getD i 0)) history

/-- A verify block's commit commits the accepted part of each live request. -/
theorem commitBlock_committed {p q : Path} {b : EngramBatch} {st : EngramState}
    (hfit : H.Fits p b st)
    (hslot : ∀ r, b.Live r → H.Recalls (st.history (b.reqSlots r)) (st.seqs (b.reqSlots r)))
    {rows : List ℕ} (hrows : ∀ r, r ∈ rows ↔ b.Live r) {commitLens : ℕ → ℕ}
    (hlen : ∀ r, b.Live r → commitLens r ≤ b.len r) :
    H.Committed b st (H.commitBlock q b rows commitLens st.history)
      fun r => (b.tokens r).take (commitLens r) := by
  have htake : ∀ r, b.Live r → (b.tokens r).take (commitLens r) =
      (List.range (commitLens r)).map fun c => b.inputIds (b.start r + c) := by
    intro r hr
    rw [EngramBatch.tokens, ← List.map_take, List.take_range, Nat.min_eq_left (hlen r hr)]
  refine H.committed_of_stores hfit
    (fun r => H.torchWindow (st.history (b.reqSlots r)) (fun c => b.inputIds (b.start r + c))
      (commitLens r))
    (fun r hr => ?_) ?_ ?_
  · rw [htake r hr]
    exact H.window_recalls (hslot r hr) (commitLens r)
  · intro s hs
    obtain ⟨i, hi, rfl⟩ := List.mem_map.mp hs
    have hi := List.mem_range.mp hi
    have hmem : rows.getD i 0 ∈ rows := by
      rw [List.getD_eq_getElem _ _ hi]
      exact List.getElem_mem hi
    refine .inr ⟨rows.getD i 0, (hrows _).mp hmem, ?_⟩
    cases q <;> rfl
  · intro r hr
    obtain ⟨i, hi, hget⟩ := List.getElem_of_mem ((hrows r).mpr hr)
    have hr' : rows.getD i 0 = r := by rw [List.getD_eq_getElem _ _ hi, hget]
    refine List.mem_map.mpr ⟨i, List.mem_range.mpr hi, ?_⟩
    simp only [hr']
    cases q <;> rfl

/-! ## Runs -/

/-- What happens to the requests: a slot is assigned, or a batch runs. -/
inductive EngramLabel : Type where
  /-- a slot changes owner; the new request's first tokens may be cached already -/
  | assign (slot : ℕ) (cached : List ℕ)
  /-- a decode step or a step of extend chunks -/
  | forward (p : Path) (b : EngramBatch)
  /-- a verify step and the commit after it -/
  | verify (p q : Path) (b : EngramBatch) (rows : List ℕ) (commitLens : ℕ → ℕ)

/-- The batch of a step. -/
def EngramLabel.batch : EngramLabel → Option EngramBatch
  | .assign _ _ => none
  | .forward _ b => some b
  | .verify _ _ b _ _ => some b

/-- The requests after a step: the tokens of each live one grow and its slot has its own
row from now on, the others stay as they were. -/
structure Grows (b : EngramBatch) (st st' : EngramState) (newest : ℕ → List ℕ) : Prop where
  /-- a live request's tokens grow -/
  live : ∀ r, b.Live r → st'.seqs (b.reqSlots r) = st.seqs (b.reqSlots r) ++ newest r
  /-- the other slots' stay -/
  rest : ∀ slot, (∀ r, b.Live r → b.reqSlots r ≠ slot) → st'.seqs slot = st.seqs slot
  /-- a live request's slot is not stale any more -/
  fresh : ∀ r, b.Live r → st'.stale (b.reqSlots r) = false
  /-- the other slots are as stale as before -/
  stale : ∀ slot, (∀ r, b.Live r → b.reqSlots r ≠ slot) → st'.stale slot = st.stale slot

/-- One step of the serving loop, as far as the hasher is concerned. Nobody touches the
history when a slot changes owner. -/
def stepRel (st : EngramState) : EngramLabel → EngramState → Prop
  | .assign slot cached, st' =>
    st' = { st with
      seqs := Function.update st.seqs slot cached
      stale := Function.update st.stale slot !cached.isEmpty }
  | .forward p b, st' =>
    (∀ block, b.mode ≠ .verify block) ∧ H.Fits p b st ∧
      (∃ hashIds, H.forward p b st.history = some (hashIds, st'.history)) ∧
      Grows b st st' b.tokens
  | .verify p q b rows commitLens, st' =>
    (∃ block, b.mode = .verify block) ∧ H.Fits p b st ∧ (∀ r, r ∈ rows ↔ b.Live r) ∧
      (∀ r, b.Live r → 1 ≤ commitLens r ∧ commitLens r ≤ b.len r) ∧
      (∃ hashIds history, H.forward p b st.history = some (hashIds, history) ∧
        st'.history = H.commitBlock q b rows commitLens history) ∧
      Grows b st st' fun r => (b.tokens r).take (commitLens r)

/-- The serving loop as a machine, from a zeroed history. -/
def machine : Machine EngramState EngramLabel where
  init st := st = ⟨fun _ _ => 0, fun _ => [], fun _ => false⟩
  step := H.stepRel

/-- Every slot's row recalls the newest tokens of its request, unless that is still
behind its cached prefix. -/
def AllRecall (st : EngramState) : Prop :=
  ∀ slot, slot < H.padRow → st.stale slot = false → H.Recalls (st.history slot) (st.seqs slot)

/-- Where every slot recalls, every live request of a batch reads its history. -/
theorem AllRecall.reads {H : EngramHasher} {p : Path} {b : EngramBatch} {st : EngramState}
    (hall : H.AllRecall st) (hfit : H.Fits p b st) : ∀ r, b.Live r → H.Reads b st r :=
  fun r hr => H.reads_of_recalls hfit hr (hall _ (hfit.slot_lt r hr))

/-- A commit and the tokens it commits keep every slot recalled. -/
theorem Committed.allRecall {H : EngramHasher} {b : EngramBatch} {st st' : EngramState}
    {newest : ℕ → List ℕ} (hall : H.AllRecall st) (hc : H.Committed b st st'.history newest)
    (hg : Grows b st st' newest) : H.AllRecall st' := by
  intro slot hslot hfresh
  by_cases hlive : ∃ r, b.Live r ∧ b.reqSlots r = slot
  · obtain ⟨r, hr, rfl⟩ := hlive
    rw [hg.live r hr]
    exact hc.live r hr
  · have hother : ∀ r, b.Live r → b.reqSlots r ≠ slot := fun r hr h => hlive ⟨r, hr, h⟩
    rw [hg.stale slot hother] at hfresh
    rw [hg.rest slot hother, hc.rest slot hslot hother]
    exact hall slot hslot hfresh

/-- **The step lemma**: whatever step is taken, every slot goes on recalling the sequence that it
holds. -/
theorem AllRecall.step {H : EngramHasher} {st st' : EngramState} {a : EngramLabel}
    (hall : H.AllRecall st) (hst : H.stepRel st a st') : H.AllRecall st' := by
  cases a with
  | assign slot cached =>
    obtain rfl := hst
    intro slot' hslot' hfresh
    by_cases heq : slot' = slot
    · -- without a cached prefix there is nothing to recall yet
      subst heq
      simp only [Function.update_self, Bool.not_eq_false', List.isEmpty_iff] at hfresh
      intro k hk hlt
      simp only [Function.update_self, hfresh, List.length_nil] at hlt
      omega
    · simp only [Function.update_of_ne heq] at hfresh ⊢
      exact hall slot' hslot' hfresh
  | forward p b =>
    obtain ⟨hmode, hfit, ⟨hashIds, hfwd⟩, hgrows⟩ := hst
    obtain ⟨_, _, heq, -, hcase⟩ := H.forward_spec hfit (hall.reads hfit)
    rw [hfwd] at heq
    cases heq
    rcases hcase with ⟨⟨block, hverify⟩, -⟩ | ⟨-, hc⟩
    · exact absurd hverify (hmode block)
    · exact hc.allRecall hall hgrows
  | verify p q b rows commitLens =>
    obtain ⟨⟨block, hverify⟩, hfit, hrows, hlens, ⟨hashIds, history, hfwd, hhist⟩, hgrows⟩ := hst
    obtain ⟨_, _, heq, -, hcase⟩ := H.forward_spec hfit (hall.reads hfit)
    rw [hfwd] at heq
    cases heq
    rcases hcase with ⟨-, rfl⟩ | ⟨hno, -⟩
    · -- a verify block is never the first chunk behind a cached prefix
      have hslot : ∀ r, b.Live r →
          H.Recalls (st.history (b.reqSlots r)) (st.seqs (b.reqSlots r)) := by
        intro r hr
        refine hall _ (hfit.slot_lt r hr) (Bool.eq_false_iff.mpr fun hstale => ?_)
        have hextend := (hfit.prefixed r hr hstale).1
        rw [hverify] at hextend
        cases hextend
      have hc := H.commitBlock_committed (q := q) hfit hslot hrows fun r hr => (hlens r hr).2
      rw [← hhist] at hc
      exact hc.allRecall hall hgrows
    · exact absurd hverify (hno block)

/-- After a step, the slot of a live request has its own row. -/
theorem stepRel_fresh {st st' : EngramState} {a : EngramLabel} (hst : H.stepRel st a st')
    {b : EngramBatch} (hb : b ∈ a.batch) {r : ℕ} (hr : b.Live r) :
    b.reqSlots r < H.padRow ∧ st'.stale (b.reqSlots r) = false := by
  cases a with
  | assign slot cached => cases hb
  | forward p b' =>
    obtain rfl := Option.some.inj hb
    obtain ⟨-, hfit, -, hgrows⟩ := hst
    exact ⟨hfit.slot_lt r hr, hgrows.fresh r hr⟩
  | verify p q b' rows commitLens =>
    obtain rfl := Option.some.inj hb
    obtain ⟨-, hfit, -, -, -, hgrows⟩ := hst
    exact ⟨hfit.slot_lt r hr, hgrows.fresh r hr⟩

/-- **The run lemma**: in every state that a run reaches, every slot is recalled. -/
theorem allRecall_reach {st : EngramState} (h : H.machine.Reach st) : H.AllRecall st := by
  refine Machine.Invariant.reach (I := H.AllRecall) ⟨?_, fun _ _ _ hi hst => hi.step hst⟩ h
  rintro _ rfl slot _ _ k _ hlt
  cases hlt

/-- **Engram hash ids are those of the sequence.** In every state that any schedule
reaches, every slot's history row recalls the newest committed tokens of its request,
oldest first, from the first step that the request took part in. Whatever batch comes
next, the forward returns for every live token the hash ids that the single-shot
reference gives its position in its request's sequence, cached prefix included, and
every slot of a live request recalls that sequence afterwards. Those hash ids depend on
the last `n` tokens only. -/
theorem engram_exact {st : EngramState} (h : H.machine.Reach st) :
    (∀ slot, slot < H.padRow → st.stale slot = false →
        H.Recalls (st.history slot) (st.seqs slot)) ∧
      (∀ p b, H.Fits p b st → ∃ hashIds history,
        H.forward p b st.history = some (hashIds, history) ∧
        ∀ r, b.Live r → ∀ j, j < b.len r → ∀ l i h, i < H.maxNgramSize →
          hashIds (b.start r + j) l i h = H.refHash (st.seqs (b.reqSlots r) ++ b.tokens r)
            ((st.seqs (b.reqSlots r)).length + j) l i h) ∧
      (∀ a st', H.stepRel st a st' → ∀ b ∈ a.batch, ∀ r, b.Live r →
        H.Recalls (st'.history (b.reqSlots r)) (st'.seqs (b.reqSlots r))) ∧
      ∀ (seq seq' : List ℕ) (p : ℕ),
        (∀ q, q ≤ p → p < q + H.maxNgramSize → seq.getD q 0 = seq'.getD q 0) →
        ∀ l i hd, i < H.maxNgramSize → H.refHash seq p l i hd = H.refHash seq' p l i hd := by
  have hall := H.allRecall_reach h
  refine ⟨hall, fun p b hfit => ?_, fun a st' hst b hb r hr => ?_,
    fun seq seq' p hloc l i hd hi => H.refHash_local hloc l hi hd⟩
  · obtain ⟨hashIds, history, hfwd, hhash, -⟩ := H.forward_spec hfit (hall.reads hfit)
    exact ⟨hashIds, history, hfwd, hhash⟩
  · obtain ⟨hslot, hfresh⟩ := H.stepRel_fresh hst hb hr
    exact hall.step hst _ hslot hfresh

/-! A small run: three tokens of a request, then its slot goes to a request that finds
its first two tokens cached, next to a request without tokens. -/

/-- A hasher of bigrams over eight ids. -/
def bigramHasher : EngramHasher where
  maxNgramSize := 2
  two_le := le_rfl
  numLayers := 1
  numHeads := 1
  vocabSize := 8
  tokenMap t := t % 8
  tokenMap_lt t := Nat.mod_lt t (by norm_num)
  padId := 0
  padId_lt := by norm_num
  multipliers _ s := 2 * (s % 2) + 1
  multipliers_le _ s := by omega
  primes _ _ _ := 11
  offsets _ _ := 0
  imageTokenId := none
  padRow := 4

/-- The first three tokens of the request in slot 1. -/
def threeTokens : EngramBatch where
  mode := .extend
  bs := 1
  numTokens := 3
  inputIds t := [5, 7, 7].getD t 0
  positions t := t
  reqSlots _ := 1
  outCacheLoc := none
  extendSeqLens _ := 3
  extendStartLoc _ := 0
  ngramHistory := none

/-- The third token of the next request in slot 1. The scheduler knows the second. -/
def cachedChunk : EngramBatch where
  mode := .extend
  bs := 2
  numTokens := 1
  inputIds _ := 6
  positions _ := 2
  reqSlots r := [1, 2].getD r 0
  outCacheLoc := none
  extendSeqLens r := [1, 0].getD r 0
  extendStartLoc r := [0, 1].getD r 0
  ngramHistory := some fun _ _ => 3

/-- The slot still recalls the 7 of the request before, and the new request's token is
hashed with the 3 of its cached prefix. -/
theorem engram_exact_cachedChunk : ∃ (st : EngramState) (hashIds : HashIds) (history : History),
    st.history 1 0 = 7 ∧ bigramHasher.forward .cuda cachedChunk st.history =
        some (hashIds, history) ∧
      hashIds 0 0 1 0 = bigramHasher.refHash [4, 3, 6] 2 0 1 0 := by
  have hlive : ∀ r, threeTokens.Live r ↔ r = 0 := by
    intro r
    simp [EngramBatch.Live, EngramBatch.len, threeTokens]
  have hfit : bigramHasher.Fits .torch threeTokens
      ⟨fun _ _ => 0, fun _ => [], fun _ => false⟩ := by
    constructor
    · simp
    · exact ⟨fun r hr => by obtain rfl : r = 0 := Nat.lt_one_iff.mp hr; rfl, by decide⟩
    · intro r hr
      rw [(hlive r).mp hr]
      decide
    · intro r r' hr hr' _
      rw [(hlive r).mp hr, (hlive r').mp hr']
    · intro r hr j _
      simp [threeTokens, EngramBatch.start]
    · simp [threeTokens]
    · simp
  obtain ⟨hashIds, history, hfwd, -, hcase⟩ := bigramHasher.forward_spec hfit
    fun r hr => bigramHasher.reads_of_recalls hfit hr
      fun _ k _ hlt => absurd hlt (Nat.not_lt_zero k)
  have hrow : history 1 0 = 7 := by
    rcases hcase with ⟨⟨_, hverify⟩, -⟩ | ⟨-, hc⟩
    · cases hverify
    · have h := hc.live 0 ((hlive 0).mpr rfl) 0 Nat.one_pos (by decide)
      exact h.elim id id
  set st : EngramState := ⟨history, Function.update (fun _ => []) 1 [4, 3],
    Function.update (fun _ => false) 1 true⟩ with hst
  have hreach : bigramHasher.machine.Reach st := by
    refine .step (a := .assign 1 [4, 3]) (s := ⟨history, Function.update (fun _ => []) 1 [5, 7, 7],
      fun _ => false⟩) (.step (a := .forward .torch threeTokens) (.init rfl)
      ⟨by simp [threeTokens], hfit, ⟨hashIds, hfwd⟩, fun r hr => ?_, fun slot hslot => ?_,
        fun _ _ => rfl, fun _ _ => rfl⟩) ?_
    · rw [(hlive r).mp hr]
      rfl
    · have hne : slot ≠ 1 := (hslot 0 ((hlive 0).mpr rfl)).symm
      simp only [Function.update_of_ne hne]
    · simp [machine, stepRel, hst]
  have hlive' : ∀ r, cachedChunk.Live r ↔ r = 0 := by
    intro r
    constructor
    · rintro ⟨hr, hlen, -⟩
      by_contra hne
      obtain rfl : r = 1 := by
        have : r < 2 := hr
        omega
      exact absurd hlen (by decide)
    · rintro rfl
      exact ⟨by decide, by decide, by rintro _ ⟨⟩⟩
  have hfit' : bigramHasher.Fits .cuda cachedChunk st := by
    constructor
    · exact fun _ => ⟨by decide, nofun⟩
    · refine ⟨fun r hr => ?_, by decide⟩
      have hr : r < 2 := hr
      interval_cases r <;> rfl
    · intro r hr
      rw [(hlive' r).mp hr]
      decide
    · intro r r' hr hr' _
      rw [(hlive' r).mp hr, (hlive' r').mp hr']
    · intro r hr j hj
      obtain rfl := (hlive' r).mp hr
      obtain rfl : j = 0 := Nat.lt_one_iff.mp hj
      rfl
    · rintro sup ⟨⟩ r hr k hk hlt
      obtain rfl := (hlive' r).mp hr
      obtain rfl : k = 0 := Nat.lt_one_iff.mp hk
      rfl
    · exact fun _ _ _ => ⟨rfl, rfl⟩
  obtain ⟨hashIds', history', hfwd', hhash⟩ :=
    (engram_exact bigramHasher hreach).2.1 .cuda cachedChunk hfit'
  exact ⟨st, hashIds', history', hrow, hfwd',
    hhash 0 ((hlive' 0).mpr rfl) 0 Nat.one_pos 0 1 0 (by decide)⟩

end EngramHasher
end LuzServing

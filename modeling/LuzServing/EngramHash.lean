import LuzServing.Engram

/-!
# The hash ids of a token

The Triton kernel and the torch path compute the same predecessors, block the same
look-backs and hash alike (`hashTable_cuda`): a cumulative sum is a running maximum,
XOR may be taken over masked lanes, and the products of the hasher stay below
`2 ^ 63`, so that C's remainder is the mathematical one.

What a token's hash should be is `refHash`: that of the single-shot reference over
the whole sequence. It depends on the last `n` tokens only (`refHash_local`).
-/

namespace LuzServing
namespace EngramHasher

variable (H : EngramHasher)

/-! ## The kernel computes what torch does -/

/-- The row and offset of a token that is not padding. -/
theorem kernelRow_eq (b : EngramBatch) {t : ℕ} (ht : t < b.numReal) :
    b.kernelRow t = b.row t ∧ b.kernelOffset t = b.offset t := by
  have hrow : b.kernelRow t = b.row t := by
    unfold EngramBatch.kernelRow EngramBatch.row
    cases b.mode with
    | extend => exact if_pos ht
    | _ => rfl
  refine ⟨hrow, ?_⟩
  unfold EngramBatch.kernelOffset EngramBatch.offset
  cases hmode : b.mode with
  | decode => rfl
  | verify block => rfl
  | extend => simp only [if_pos ht, hrow]

/-- For a token that is not padding the kernel reads the history row of the token's own request. -/
theorem kernelHistRow_eq (b : EngramBatch) (history : History) {t : ℕ} (ht : t < b.numReal) :
    b.kernelHistRow history t = b.histRow history (b.row t) := by
  unfold EngramBatch.kernelHistRow EngramBatch.histRow
  rw [(kernelRow_eq b ht).1, if_pos ht]

/-- The kernel finds the same predecessors of a token as the torch path, at every look-back. -/
theorem kernelTokens_eq (b : EngramBatch) (history : History) (t s : ℕ) :
    H.kernelTokens b history t s = H.torchTokens b history t s := by
  unfold kernelTokens torchTokens torchPredecessor
  by_cases ht : t < b.numReal
  · simp only [if_pos ht, kernelHistRow_eq b history ht, (kernelRow_eq b ht).2, Nat.max_zero]
    congr 1
    cases hmode : b.mode with
    | verify block => rfl
    | extend => rfl
    | decode =>
      -- the offset is 0, so only the token itself is from the batch
      have hoff : b.offset t = 0 := by
        unfold EngramBatch.offset
        rw [hmode]
      rw [hoff]
      by_cases hs : s = 0
      · rw [if_pos (by omega), if_pos hs, hs, Nat.sub_zero]
      · rw [if_neg (by omega), if_neg hs]
        congr 1
        have := H.two_le
        omega
  · simp only [if_neg ht]

/-- A cumulative sum of flags is positive where a flag was met. -/
theorem sum_flags_pos (f : ℕ → Bool) (l : List ℕ) :
    decide (0 < (l.map fun s => if f s then 1 else 0).sum) = l.any f := by
  induction l with
  | nil => rfl
  | cons s l ih =>
    rw [List.map_cons, List.sum_cons, List.any_cons, ← ih]
    cases f s <;> simp

/-- Whether some element of a list passes a test depends only on the test at the list's elements. -/
theorem any_congr_mem {f g : ℕ → Bool} {l : List ℕ} (h : ∀ s ∈ l, f s = g s) :
    l.any f = l.any g := by
  induction l with
  | nil => rfl
  | cons s l ih =>
    rw [List.any_cons, List.any_cons, h s (List.mem_cons_self ..),
      ih fun s' hs' => h s' (List.mem_cons_of_mem _ hs')]

/-- Off the sequence start, every older look-back is off it as well. -/
theorem any_off (positions s : ℕ) (pad : Bool) :
    ((List.range (s + 1)).any fun s' => decide (positions < s') || pad) =
      (decide (positions < s) || pad) := by
  cases pad with
  | true =>
    simp only [Bool.or_true, List.any_eq_true, and_true]
    exact ⟨0, List.mem_range.mpr (Nat.succ_pos s)⟩
  | false =>
    rw [Bool.eq_iff_iff]
    simp only [Bool.or_false, List.any_eq_true, List.mem_range, decide_eq_true_eq]
    exact ⟨fun ⟨s', hs', hlt⟩ => by omega, fun h => ⟨s, by omega, h⟩⟩

/-- The kernel, which blocks look-backs cumulatively, blocks the same ones as the torch path. -/
theorem kernelBlocked_eq (b : EngramBatch) (history : History) (t s : ℕ) :
    H.kernelBlocked b history t s = H.torchBlocked b history t s := by
  have hpad : (!decide (t < b.numReal)) = decide (b.numReal ≤ t) := by
    rw [← decide_not]
    exact decide_eq_decide.mpr not_lt
  unfold kernelBlocked torchBlocked
  simp only [sum_flags_pos, hpad, kernelTokens_eq]
  cases himg : H.imageTokenId with
  | some image => rfl
  | none =>
    have hno : ∀ x, H.isImage x = false := by
      intro x
      unfold isImage
      rw [himg]
    simp only [hno, Bool.or_false]
    exact any_off ..

/-- An id below the vocabulary size, times a multiplier of its layer, fits into a signed 64-bit
integer. -/
theorem mul_multiplier_le {id : ℕ} (hid : id < H.vocabSize) (l s : ℕ) :
    id * H.multipliers l s ≤ 2 ^ 63 - 1 :=
  calc id * H.multipliers l s ≤ H.vocabSize * ((2 ^ 63 - 1) / H.vocabSize) :=
        Nat.mul_le_mul hid.le (H.multipliers_le l s)
    _ ≤ 2 ^ 63 - 1 := Nat.mul_div_le ..

/-- The product of a token's id and its multiplier does not wrap, so it is the product of the
numbers. -/
theorem product_toNat (tokens : ℕ → ℕ) (blocked : ℕ → Bool) (l s : ℕ) :
    (H.product tokens blocked l s).toNat =
      (if blocked s then H.padId else H.tokenMap (tokens s)) * H.multipliers l s := by
  obtain ⟨id, hid⟩ : ∃ id, (if blocked s then H.padId else H.tokenMap (tokens s)) = id := ⟨_, rfl⟩
  have hlt : id < H.vocabSize := by
    rw [← hid]
    split
    · exact H.padId_lt
    · exact H.tokenMap_lt _
  have hle := H.mul_multiplier_le hlt l s
  rw [product, hid, ← BitVec.ofNat_mul, BitVec.toNat_ofNat, Nat.mod_eq_of_lt (by omega)]

/-- The sign bit of each product is clear, since the product fits into 63 bits. -/
theorem product_msb (tokens : ℕ → ℕ) (blocked : ℕ → Bool) (l s : ℕ) :
    (H.product tokens blocked l s).msb = false := by
  have hle : (H.product tokens blocked l s).toNat ≤ 2 ^ 63 - 1 := by
    rw [product_toNat]
    refine H.mul_multiplier_le ?_ l s
    split
    · exact H.padId_lt
    · exact H.tokenMap_lt _
  rw [BitVec.msb_eq_decide, decide_eq_false_iff_not, not_le]
  omega

/-- The running XOR of such products has its sign bit clear, so it is never negative. -/
theorem rolling_msb (tokens : ℕ → ℕ) (blocked : ℕ → Bool) (l i : ℕ) :
    (H.rolling tokens blocked l i).msb = false := by
  have hfold : ∀ (shifts : List ℕ) (r : BitVec 64), r.msb = false →
      (shifts.foldl (fun r s => r ^^^ H.product tokens blocked l s) r).msb = false := by
    intro shifts
    induction shifts with
    | nil => exact fun r hr => hr
    | cons s shifts ih =>
      intro r hr
      rw [List.foldl_cons]
      refine ih _ ?_
      rw [BitVec.msb_xor, hr, product_msb]
      rfl
  exact hfold _ _ (H.product_msb tokens blocked l 0)

/-- Lanes that are masked off contribute zero, so XOR over them leaves the running value as it
is. -/
theorem foldl_masked {f : ℕ → BitVec 64} (i : ℕ) {shifts : List ℕ} (h : ∀ s ∈ shifts, i < s)
    (r : BitVec 64) :
    shifts.foldl (fun r s => r ^^^ if s ≤ i then f s else 0) r = r := by
  induction shifts generalizing r with
  | nil => rfl
  | cons s shifts ih =>
    rw [List.foldl_cons, ih (fun s' hs' => h s' (List.mem_cons_of_mem _ hs')),
      if_neg (Nat.not_le.mpr (h s (List.mem_cons_self ..)))]
    exact BitVec.xor_zero

/-- The kernel's XOR over all its lanes, masked ones included, is the running value of the torch
path. -/
theorem xorSum_eq (tokens : ℕ → ℕ) (blocked : ℕ → Bool) (l : ℕ) {i : ℕ}
    (hi : i < H.maxNgramSize) :
    (List.range H.maxNgramSize).foldl
      (fun r s => r ^^^ if s ≤ i then H.product tokens blocked l s else 0) 0 =
        H.rolling tokens blocked l i := by
  have hsplit : List.range H.maxNgramSize =
      0 :: (List.range' 1 i ++ List.range' (1 + i) (H.maxNgramSize - (i + 1))) := by
    rw [List.range'_append_1, List.range_eq_range',
      show H.maxNgramSize = i + (H.maxNgramSize - (i + 1)) + 1 by omega, List.range'_succ]
    congr 2
    omega
  rw [hsplit, List.foldl_cons, List.foldl_append, foldl_masked, rolling]
  · rw [if_pos (Nat.zero_le i), show (0 : BitVec 64) ^^^ H.product tokens blocked l 0 =
      H.product tokens blocked l 0 from BitVec.zero_xor]
    refine List.foldl_ext _ _ _ fun r s hs => ?_
    rw [List.mem_range'_1] at hs
    rw [if_pos (by omega)]
  · intro s hs
    rw [List.mem_range'_1] at hs
    omega

/-- The hash ids of the kernel are those of the torch path, for every layer, order and head. -/
theorem kernelHashIds_eq (tokens : ℕ → ℕ) (blocked : ℕ → Bool) (l : ℕ) {i : ℕ}
    (hi : i < H.maxNgramSize) (h : ℕ) :
    H.kernelHashIds tokens blocked l i h = H.computeEngramHashIds tokens blocked l i h := by
  unfold kernelHashIds computeEngramHashIds
  rw [H.xorSum_eq tokens blocked l hi,
    Int.fmod_eq_tmod_of_nonneg (BitVec.toInt_nonneg_of_msb_false (H.rolling_msb ..))
      (Int.natCast_nonneg _)]

/-- **The paths agree**: the CUDA kernels compute the predecessors and the hash ids of
the torch path, for every token of every batch. -/
theorem hashTable_cuda (b : EngramBatch) (history : History) :
    (H.hashTable .cuda b history).1 = (H.hashTable .torch b history).1 ∧
      ∀ t l i h, i < H.maxNgramSize →
        (H.hashTable .cuda b history).2 t l i h = (H.hashTable .torch b history).2 t l i h := by
  have htokens : H.kernelTokens b history = H.torchTokens b history := by
    funext t s
    exact H.kernelTokens_eq b history t s
  have hblocked : H.kernelBlocked b history = H.torchBlocked b history := by
    funext t s
    exact H.kernelBlocked_eq b history t s
  refine ⟨htokens, fun t l i h hi => ?_⟩
  simp only [hashTable, htokens, hblocked]
  exact H.kernelHashIds_eq _ _ l hi h

/-! ## The commit in the kernel -/

/-- A slot that no live row of a decode step names keeps its row. -/
theorem kernelCommit_of_not_named (b : EngramBatch) (history : History) {outLoc : ℕ → ℕ} {slot : ℕ}
    (hslot : ∀ t, t < b.numTokens → outLoc t ≠ 0 → b.reqSlots t ≠ slot) :
    H.kernelCommit b history outLoc slot = history slot := by
  refine storeAll_map_of_ne fun t ht => ?_
  obtain ⟨ht, hlive⟩ := List.mem_filter.mp ht
  exact hslot t (List.mem_range.mp ht) (of_decide_eq_true hlive)

/-- The commit in the kernel writes what torch does, the spare row apart: torch sends the
padded rows there, the kernel masks them. -/
theorem kernelCommit_eq (b : EngramBatch) (history : History) (hbs : b.numTokens = b.bs)
    {outLoc : ℕ → ℕ} (hout : b.outCacheLoc = some outLoc) {slot : ℕ} (hslot : slot ≠ H.padRow) :
    H.kernelCommit b history outLoc slot =
      H.torchCommit b history (H.torchTokens b history) b.reqSlots id slot := by
  have htokens : H.kernelTokens b history = H.torchTokens b history := by
    funext t s
    exact H.kernelTokens_eq b history t s
  rw [kernelCommit, torchCommit, htokens, hbs]
  refine storeAll_filter rfl (fun r _ hlive => ?_) fun r _ hpad => ?_
  · rw [torchCommitRow, hout]
    dsimp only [id_eq]
    rw [if_neg (of_decide_eq_true hlive)]
  · rw [torchCommitRow, hout]
    dsimp only [id_eq]
    rw [if_pos (by simpa using hpad)]
    exact hslot.symm

/-- **The kernel is the torch path**: the same predecessors, the same hash ids and, in decode,
the same history rows in the slots that live rows name; every other slot stays as it is. -/
theorem kernel_exact (b : EngramBatch) (history : History) :
    (∀ t s, H.kernelTokens b history t s = H.torchTokens b history t s) ∧
    (∀ t l i h, i < H.maxNgramSize →
      H.kernelHashIds (H.kernelTokens b history t) (H.kernelBlocked b history t) l i h =
        H.computeEngramHashIds (H.torchTokens b history t) (H.torchBlocked b history t) l i h) ∧
    (b.mode = .decode → b.numTokens = b.bs → ∀ outLoc, b.outCacheLoc = some outLoc →
      (∀ slot, slot ≠ H.padRow → H.kernelCommit b history outLoc slot =
        H.torchCommit b history (H.torchTokens b history) b.reqSlots id slot) ∧
      ∀ slot, (∀ t, t < b.numTokens → outLoc t ≠ 0 → b.reqSlots t ≠ slot) →
        H.kernelCommit b history outLoc slot = history slot) := by
  obtain ⟨-, hhash⟩ := H.hashTable_cuda b history
  refine ⟨H.kernelTokens_eq b history, hhash, fun _ hbs outLoc hout => ⟨fun slot hslot => ?_,
    fun slot hslot => ?_⟩⟩
  · exact H.kernelCommit_eq b history hbs hout hslot
  · exact H.kernelCommit_of_not_named b history hslot

/-! ## The reference -/

/-- The token `s` before position `p` of a sequence, as the hash reads it. -/
def refToken (seq : List ℕ) (p s : ℕ) : ℕ := H.normalize (seq.getD (p - s) 0)

/-- Look-back `s` from position `p` is PAD: it runs off the start, or meets an image on
its way. -/
def refBlocked (seq : List ℕ) (p s : ℕ) : Bool :=
  (List.range (s + 1)).any fun s' => p < s' || H.isImage (H.refToken seq p s')

/-- The hash ids of position `p` of a sequence. -/
def refHash (seq : List ℕ) (p l i h : ℕ) : ℤ :=
  H.computeEngramHashIds (H.refToken seq p) (H.refBlocked seq p) l i h

/-- Hash ids agree when the look-backs up to theirs are blocked alike, and those not
blocked are alike. -/
theorem computeEngramHashIds_congr {tokens tokens' : ℕ → ℕ} {blocked blocked' : ℕ → Bool}
    {i : ℕ} (hblocked : ∀ s, s ≤ i → blocked s = blocked' s)
    (htokens : ∀ s, s ≤ i → blocked s = false → tokens s = tokens' s) (l h : ℕ) :
    H.computeEngramHashIds tokens blocked l i h =
      H.computeEngramHashIds tokens' blocked' l i h := by
  have hproduct : ∀ s, s ≤ i → H.product tokens blocked l s = H.product tokens' blocked' l s := by
    intro s hs
    unfold product
    rw [← hblocked s hs]
    cases hb : blocked s with
    | true => rfl
    | false => rw [htokens s hs hb]
  unfold computeEngramHashIds rolling
  rw [hproduct 0 (Nat.zero_le i)]
  congr 3
  refine List.foldl_ext _ _ _ fun r s hs => ?_
  rw [List.mem_range'_1] at hs
  rw [hproduct s (by omega)]

/-- The reference is local: the hash ids of a position depend on the last `n` tokens
only. -/
theorem refHash_local {seq seq' : List ℕ} {p : ℕ}
    (h : ∀ q, q ≤ p → p < q + H.maxNgramSize → seq.getD q 0 = seq'.getD q 0) (l : ℕ) {i : ℕ}
    (hi : i < H.maxNgramSize) (hd : ℕ) : H.refHash seq p l i hd = H.refHash seq' p l i hd := by
  have htoken : ∀ s, s ≤ i → s ≤ p → H.refToken seq p s = H.refToken seq' p s := by
    intro s hs hsp
    unfold refToken
    rw [h (p - s) (Nat.sub_le p s) (by omega)]
  have hblocked : ∀ s, s ≤ i → H.refBlocked seq p s = H.refBlocked seq' p s := by
    intro s hs
    unfold refBlocked
    refine any_congr_mem fun s' hs' => ?_
    have hs'' := List.mem_range.mp hs'
    by_cases hsp : s' ≤ p
    · rw [htoken s' (by omega) hsp]
    · rw [decide_eq_true (Nat.lt_of_not_le hsp), Bool.true_or, Bool.true_or]
  refine H.computeEngramHashIds_congr hblocked (fun s hs hb => ?_) l hd
  by_cases hsp : s ≤ p
  · exact htoken s hs hsp
  · exfalso
    unfold refBlocked at hb
    rw [List.any_eq_false] at hb
    exact hb s (List.mem_range.mpr (Nat.lt_succ_self s))
      (by rw [decide_eq_true (Nat.lt_of_not_le hsp), Bool.true_or])

end EngramHasher
end LuzServing

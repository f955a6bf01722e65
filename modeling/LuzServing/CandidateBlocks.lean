import LuzServing.FoldRange
import LuzServing.Stores
import LuzServing.TopK

/-!
# The two-level top-k

The sparse indexer first keeps the best blocks of a row's scores
(`select_candidate_blocks`), then takes the top-k of what is left. Where all blocks that a
query reaches fit the block budget, two other paths leave the first level out: the prefill
graph, which asserts that its width fits, and the decode graphs that are captured for short
requests. They select the same positions (`candidate_blocks`).

Scores are of any bounded linear order, its least element for `-inf`; the top-k routine is a
parameter, so that ties go either way.
-/

namespace LuzServing

section

variable {S : Type*} [LinearOrder S] [BoundedOrder S] (topk : TopkOp S)

/-! ## Level one -/

/-- The width after `F.pad(logits, (0, -width % block_size))`. -/
def paddedWidth (width blockSize : ℕ) : ℕ := width + (-(width : ℤ) % blockSize).toNat

/-- `num_blocks` -/
def numBlocks (width blockSize : ℕ) : ℕ := paddedWidth width blockSize / blockSize

/-- A row of logits that is padded past its width, with the least value. -/
def padRow (logits : ℕ → S) (width : ℕ) (p : ℕ) : S := if p < width then logits p else ⊥

/-- The best score of a block. -/
def blockMax (logits : ℕ → S) (width blockSize b : ℕ) : S :=
  foldRange max (padRow logits width) (b * blockSize) blockSize

/-- The block scores, with `+inf` for the newest block. -/
def blockScore (logits : ℕ → S) (width compressLen blockSize b : ℕ) : S :=
  if (b : ℤ) = ((compressLen : ℤ) - 1) / blockSize then ⊤ else blockMax logits width blockSize b

/-- `select_candidate_blocks` on a row: which positions it keeps. -/
def selectCandidateBlocks (logits : ℕ → S) (width compressLen topkBlocks blockSize : ℕ) :
    ℕ → Bool :=
  let scores := blockScore logits width compressLen blockSize
  let num := numBlocks width blockSize
  let top := topk.run scores num (min topkBlocks num)
  let keep := storeAll (fun _ => false) (top.map fun b => (b, decide (⊥ < scores b)))
  fun p => keep (p / blockSize)

/-! ## Level two -/

/-- `_mask_topk_scores`: places that score `-inf` are dropped. -/
def maskTopkScores (scores : ℕ → S) (indices : List ℕ) : List ℕ :=
  indices.filter fun i => ⊥ < scores i

/-- `scores.masked_fill(~mask, -inf)` -/
def maskRow (mask : ℕ → Bool) (scores : ℕ → S) (p : ℕ) : S := if mask p then scores p else ⊥

/-- `_low_ratio_index_topk_torch` on a row: the positions it selects, out of those that a
consumed mask leaves. -/
def torchSelect (scores : ℕ → S) (lens lc k : ℕ) (consume : Option (ℕ → Bool)) : Finset ℕ :=
  match consume with
  | none => ((topk.run scores lc (min k lc)).filter (· < lens)).toFinset
  | some mask =>
    let s := maskRow mask scores
    ((maskTopkScores s (topk.run s lc (min k lc))).filter (· < lens)).toFinset

/-- `_low_ratio_index_topk_prefill_graph` on a row, whose columns past the row's length hold
garbage. -/
def prefillGraphSelect (logits : ℕ → S) (width lens k : ℕ) : Finset ℕ :=
  let s := maskRow (fun p => p < lens) logits
  ((topk.run s width (min k width)).filter (· < lens)).toFinset

/-- The indexer's graphs for decode. -/
inductive DsaVariant : Type where
  /-- captured for requests of at most `index_topk` positions -/
  | candidateAll
  /-- captured for requests of at most `index_topk` positions of ratio 2 -/
  | candidateC2All
  /-- captured for requests within the candidate span -/
  | candidateUnfiltered
  /-- the full filtering -/
  | candidateFiltered
  deriving DecidableEq

/-- `two_level_decode_logits` on a row: the logits that are selected from, and the mask that
is published. -/
def twoLevelDecodeLogits (variant : DsaVariant) (isCandidateSource usesCandidates : Bool)
    (logits : ℕ → S) (width seqLen topkBlocks blockSize : ℕ) (published : ℕ → Bool) :
    (ℕ → S) × Option (ℕ → Bool) :=
  if !(isCandidateSource || usesCandidates) then (logits, none)
  else if variant ≠ .candidateFiltered then (logits, none)
  else
    let reached := maskRow (fun p => p < seqLen) logits
    if isCandidateSource then
      (reached, some (selectCandidateBlocks topk reached width seqLen topkBlocks blockSize))
    else (maskRow published reached, none)

/-- `_low_ratio_index_topk_decode` on a row: the paged top-k takes the best of the row's
`seqLen` positions, a consumer drops those it masked. -/
def decodeSelect (variant : DsaVariant) (isCandidateSource usesCandidates : Bool)
    (logits : ℕ → S) (width seqLen topkBlocks blockSize k : ℕ) (published : ℕ → Bool) :
    Finset ℕ :=
  let s := (twoLevelDecodeLogits topk variant isCandidateSource usesCandidates logits width seqLen
    topkBlocks blockSize published).1
  let selected := topk.run s seqLen (min k seqLen)
  (if usesCandidates && !isCandidateSource then maskTopkScores s selected else selected).toFinset

end

/-! ## Which decode graph runs -/

/-- The loop that pairs variants with their limits, until one reaches the span. -/
def graphLimits (span : ℕ) : List (DsaVariant × ℕ) → List (DsaVariant × ℕ)
  | [] => []
  | (variant, limit) :: variants =>
    (variant, min limit span) :: if span ≤ limit then [] else graphLimits span variants

/-- `candidate_graph_limits`: the variants of a model's configuration. -/
def candidateGraphLimits (indexTopk : ℕ) (ratios : List ℕ) (span : ℕ) : List (DsaVariant × ℕ) :=
  let short :=
    if 0 < indexTopk ∧ ratios ≠ [] then
      (.candidateAll, indexTopk * ratios.foldl min 2) ::
        if 1 ∈ ratios ∧ 2 ∈ ratios then [(.candidateC2All, indexTopk * 2)] else []
    else []
  graphLimits span (short ++ [(.candidateUnfiltered, span)])

/-- `_resolve_dsa_variant`: the graph of a batch, by its longest request; without lengths on
the host the full one. -/
def resolveDsaVariant (limits : List (DsaVariant × ℕ)) (maxSeqLen : Option ℕ) : DsaVariant :=
  match maxSeqLen with
  | none => .candidateFiltered
  | some m => ((limits.find? fun v => m ≤ v.2).map Prod.fst).getD .candidateFiltered

/-- A listed limit is a variant's own, or the span where that is less. -/
theorem graphLimits_mem {span : ℕ} {variants : List (DsaVariant × ℕ)} {v : DsaVariant × ℕ}
    (h : v ∈ graphLimits span variants) :
    ∃ limit, (v.1, limit) ∈ variants ∧ v.2 = min limit span := by
  induction variants with
  | nil => cases h
  | cons w variants ih =>
    obtain ⟨variant, limit⟩ := w
    rcases List.mem_cons.mp h with rfl | h
    · exact ⟨limit, List.mem_cons_self, rfl⟩
    · split at h
      · cases h
      · obtain ⟨limit', hmem, heq⟩ := ih h
        exact ⟨limit', List.mem_cons_of_mem _ hmem, heq⟩

/-- A graph other than the full one is run within the limit that is listed for it. -/
theorem resolveDsaVariant_mem {limits : List (DsaVariant × ℕ)} {maxSeqLen : Option ℕ}
    (h : resolveDsaVariant limits maxSeqLen ≠ .candidateFiltered) :
    ∃ m limit, maxSeqLen = some m ∧ (resolveDsaVariant limits maxSeqLen, limit) ∈ limits ∧
      m ≤ limit := by
  cases maxSeqLen with
  | none => exact absurd rfl h
  | some m =>
    rw [resolveDsaVariant] at h ⊢
    cases hfind : limits.find? fun v => m ≤ v.2 with
    | none => rw [hfind] at h; exact absurd rfl h
    | some v =>
      have hle : m ≤ v.2 := by simpa using List.find?_some hfind
      exact ⟨m, v.2, rfl, List.mem_of_find?_eq_some hfind, hle⟩

/-- **A graph that does not filter** is chosen only for batches whose lengths are known to be within
the span. -/
theorem resolveDsaVariant_span {indexTopk : ℕ} {ratios : List ℕ} {span : ℕ} {maxSeqLen : Option ℕ}
    (h : resolveDsaVariant (candidateGraphLimits indexTopk ratios span) maxSeqLen ≠
      .candidateFiltered) : ∃ m, maxSeqLen = some m ∧ m ≤ span := by
  obtain ⟨m, limit, hm, hmem, hle⟩ := resolveDsaVariant_mem h
  obtain ⟨own, -, hlimit⟩ := graphLimits_mem hmem
  exact ⟨m, hm, hle.trans (hlimit.le.trans (min_le_right _ _))⟩

/-! ## What level one keeps -/

/-- A row's scores are finite at the first `len` positions, and `-inf` beyond. -/
structure Reaches {S : Type*} [LinearOrder S] [BoundedOrder S] (scores : ℕ → S) (width len : ℕ) :
    Prop where
  /-- a position is reached -/
  pos : 0 < len
  /-- the reached positions are positions -/
  le : len ≤ width
  /-- their scores are finite -/
  finite : ∀ p, p < len → ⊥ < scores p ∧ scores p < ⊤
  /-- the others' are not -/
  beyond : ∀ p, len ≤ p → p < width → scores p = ⊥

/-- How many blocks a query of `len` positions reaches. -/
def reachableBlocks (len blockSize : ℕ) : ℕ := (len + blockSize - 1) / blockSize

section

variable {width len blockSize : ℕ}

/-- The blocks of a row cover it: together they are at least as wide as it is. -/
theorem width_le_numBlocks (hblock : 0 < blockSize) :
    width ≤ numBlocks width blockSize * blockSize := by
  have hz : (blockSize : ℤ) ≠ 0 := by exact_mod_cast hblock.ne'
  have hnonneg := Int.emod_nonneg (-(width : ℤ)) hz
  have hdvd : (blockSize : ℤ) ∣ (paddedWidth width blockSize : ℕ) := by
    rw [paddedWidth, Nat.cast_add, Int.toNat_of_nonneg hnonneg, Int.dvd_iff_emod_eq_zero,
      Int.add_emod, Int.emod_emod_of_dvd _ dvd_rfl, ← Int.add_emod, Int.add_right_neg,
      Int.zero_emod]
  have hdvd : blockSize ∣ paddedWidth width blockSize := by exact_mod_cast hdvd
  rw [numBlocks, Nat.div_mul_cancel hdvd, paddedWidth]
  exact Nat.le_add_right _ _

/-- A block is one of the reachable ones exactly when its first position is reached. -/
theorem lt_reachableBlocks (hblock : 0 < blockSize) {b : ℕ} :
    b < reachableBlocks len blockSize ↔ b * blockSize < len := by
  rw [reachableBlocks, Nat.lt_div_iff_mul_lt hblock]
  omega

/-- A block whose first position is reached is one of the blocks of the row. -/
theorem lt_numBlocks (hblock : 0 < blockSize) (hlen : len ≤ width) {b : ℕ}
    (hb : b * blockSize < len) : b < numBlocks width blockSize := by
  have hw : width ≤ numBlocks width blockSize * blockSize := width_le_numBlocks hblock
  exact Nat.lt_of_mul_lt_mul_right (hb.trans_le (hlen.trans hw))

/-- A query within the block budget reaches as many blocks at most. -/
theorem reachableBlocks_le (hblock : 0 < blockSize) {topkBlocks : ℕ}
    (h : len ≤ topkBlocks * blockSize) : reachableBlocks len blockSize ≤ topkBlocks := by
  by_contra hlt
  have hreach : topkBlocks * blockSize < len :=
    (lt_reachableBlocks hblock).mp (not_le.mp hlt)
  omega

/-- The newest block is the same whether it is computed with integers or with natural numbers. -/
theorem last_eq (hlen : 0 < len) (b : ℕ) :
    (b : ℤ) = ((len : ℤ) - 1) / blockSize ↔ b = (len - 1) / blockSize := by
  obtain ⟨n, rfl⟩ := Nat.exists_eq_succ_of_ne_zero hlen.ne'
  rw [Nat.cast_succ, add_sub_cancel_right, Nat.succ_sub_one, ← Int.natCast_ediv]
  exact Nat.cast_inj

variable {S : Type*} [LinearOrder S] [BoundedOrder S] {logits : ℕ → S}

/-- The maximum of a block is above `-inf` exactly when its first position is reached. -/
theorem blockMax_pos (hreach : Reaches logits width len) (hblock : 0 < blockSize) {b : ℕ} :
    ⊥ < blockMax logits width blockSize b ↔ b * blockSize < len := by
  constructor
  · intro hpos
    by_contra hlt
    rw [not_lt] at hlt
    have hbot : blockMax logits width blockSize b = ⊥ := by
      refine foldRange_of (P := fun x => x = ⊥) (fun x y hx hy => ?_) hblock fun p hlo _ => ?_
      · rw [hx, hy, max_self]
      · rw [padRow]
        split
        next hp => exact hreach.beyond p (hlt.trans hlo) hp
        next => rfl
    exact absurd hbot hpos.ne'
  · intro hlt
    refine foldRange_of_exists (P := fun x => ⊥ < x) (fun x y hx => lt_max_of_lt_left hx)
      (fun x y hy => lt_max_of_lt_right hy) le_rfl (Nat.lt_add_of_pos_right hblock) ?_
    rw [padRow, if_pos (hlt.trans_le hreach.le)]
    exact (hreach.finite _ hlt).1

/-- No block has a maximum of `+inf` by the scores of its own positions. -/
theorem blockMax_lt_top (hreach : Reaches logits width len) (hblock : 0 < blockSize) (b : ℕ) :
    blockMax logits width blockSize b < ⊤ := by
  have hfin := hreach.finite 0 hreach.pos
  have hbot : (⊥ : S) < ⊤ := hfin.1.trans hfin.2
  refine foldRange_of (P := fun x => x < ⊤) (fun x y hx hy => max_lt hx hy) hblock fun p _ _ => ?_
  rw [padRow]
  split
  next hp =>
    by_cases hlen : p < len
    · exact (hreach.finite p hlen).2
    · rwa [hreach.beyond p (not_lt.mp hlen) hp]
  next => exact hbot

/-- The score of a block that is not the newest is the maximum of its positions' scores. -/
theorem blockScore_of_ne (hlen : 0 < len) {b : ℕ} (hb : b ≠ (len - 1) / blockSize) :
    blockScore logits width len blockSize b = blockMax logits width blockSize b := by
  rw [blockScore, if_neg fun h => hb ((last_eq hlen b).mp h)]

/-- The score of the newest block is `+inf`, so that it is always among the selected. -/
theorem blockScore_last (hlen : 0 < len) :
    blockScore logits width len blockSize ((len - 1) / blockSize) = ⊤ := by
  rw [blockScore, if_pos ((last_eq hlen _).mpr rfl)]

/-- The newest block is reached, if any position is: it starts before the length. -/
theorem last_reached (hlen : 0 < len) : (len - 1) / blockSize * blockSize < len :=
  (Nat.div_mul_le_self _ _).trans_lt (Nat.sub_lt hlen Nat.one_pos)

/-- Its score, too, is above `-inf` exactly when a block is reached. -/
theorem blockScore_pos (hreach : Reaches logits width len) (hblock : 0 < blockSize) {b : ℕ} :
    ⊥ < blockScore logits width len blockSize b ↔ b * blockSize < len := by
  by_cases hb : b = (len - 1) / blockSize
  · have hfin := hreach.finite 0 hreach.pos
    rw [hb, blockScore_last hreach.pos]
    exact iff_of_true (hfin.1.trans hfin.2) (last_reached hreach.pos)
  · rw [blockScore_of_ne hreach.pos hb, blockMax_pos hreach hblock]

variable (topk : TopkOp S) {topkBlocks : ℕ}

/-- The blocks that are kept: those taken that are reached. -/
def keptBlocks (logits : ℕ → S) (width compressLen topkBlocks blockSize : ℕ) : Finset ℕ :=
  let scores := blockScore logits width compressLen blockSize
  let num := numBlocks width blockSize
  (topk.run scores num (min topkBlocks num)).toFinset.filter fun b => ⊥ < scores b

/-- The mask keeps a position exactly when the position's block is one of the kept ones. -/
theorem selectCandidateBlocks_iff (p : ℕ) :
    selectCandidateBlocks topk logits width len topkBlocks blockSize p = true ↔
      p / blockSize ∈ keptBlocks topk logits width len topkBlocks blockSize := by
  rw [selectCandidateBlocks, keptBlocks, Finset.mem_filter, List.mem_toFinset]
  dsimp only
  generalize topk.run _ _ _ = top
  by_cases hmem : p / blockSize ∈ top
  · rw [storeAll_map_eq (fun b => b) (fun b => decide (⊥ < blockScore logits width len blockSize b))
      hmem fun y _ hy => by rw [hy], decide_eq_true_eq]
    exact (and_iff_right hmem).symm
  · rw [storeAll_map_of_ne fun b hb (hne : b = p / blockSize) => hmem (hne ▸ hb)]
    exact iff_of_false Bool.false_ne_true fun h => hmem h.1

/-- The row decides what is kept, not what lies beyond its width. -/
theorem selectCandidateBlocks_congr {logits' : ℕ → S}
    (h : ∀ p, p < width → logits p = logits' p) :
    selectCandidateBlocks topk logits width len topkBlocks blockSize =
      selectCandidateBlocks topk logits' width len topkBlocks blockSize := by
  have hrow : padRow logits width = padRow logits' width := by
    funext p
    rw [padRow, padRow]
    split
    next hp => exact h p hp
    next => rfl
  have hscore : blockScore logits width len blockSize = blockScore logits' width len blockSize := by
    funext b
    rw [blockScore, blockScore, blockMax, blockMax, hrow]
  rw [selectCandidateBlocks, selectCandidateBlocks, hscore]

/-- What the blocks that the first level keeps are to satisfy. -/
structure KeptBlocks (logits : ℕ → S) (width len topkBlocks blockSize : ℕ) (kept : Finset ℕ) :
    Prop where
  /-- at most as many as asked for -/
  card : kept.card ≤ topkBlocks
  /-- the block of the newest position -/
  last : (len - 1) / blockSize ∈ kept
  /-- no block without a reachable position -/
  reached : ∀ b ∈ kept, b * blockSize < len
  /-- none, but for the newest, that is below a reachable one left out -/
  best : ∀ b ∈ kept, b ≠ (len - 1) / blockSize → ∀ b', b' ∉ kept → b' * blockSize < len →
    blockMax logits width blockSize b' ≤ blockMax logits width blockSize b

/-- **Level one** keeps the newest block and the best of the others. -/
theorem keptBlocks_spec (hreach : Reaches logits width len) (hblock : 0 < blockSize)
    (htopk : 0 < topkBlocks) : KeptBlocks logits width len topkBlocks blockSize
      (keptBlocks topk logits width len topkBlocks blockSize) := by
  have hspec := topk.spec (blockScore logits width len blockSize) (numBlocks width blockSize)
    (min topkBlocks (numBlocks width blockSize))
  rw [keptBlocks]
  generalize topk.run _ _ _ = top at hspec
  have hnum : (len - 1) / blockSize < numBlocks width blockSize :=
    lt_numBlocks hblock hreach.le (last_reached hreach.pos)
  have hlast : (len - 1) / blockSize ∈ top := by
    refine hspec.mem_of_card_le (P := fun b => b = (len - 1) / blockSize) ?_ ?_ hnum rfl
    · rintro _ j _ _ rfl hj
      rw [blockScore_last hreach.pos, blockScore_of_ne hreach.pos hj]
      exact blockMax_lt_top hreach hblock j
    · have hone : 1 ≤ min topkBlocks (numBlocks width blockSize) :=
        le_min htopk (Nat.one_le_of_lt hnum)
      refine (Finset.card_le_one.mpr fun x hx y hy => ?_).trans hone
      rw [(Finset.mem_filter.mp hx).2, (Finset.mem_filter.mp hy).2]
  have hmem : ∀ b, b ∈ top.toFinset.filter
      (fun b => ⊥ < blockScore logits width len blockSize b) ↔ b ∈ top ∧ b * blockSize < len := by
    intro b
    rw [Finset.mem_filter, List.mem_toFinset, blockScore_pos hreach hblock]
  refine ⟨?_, (hmem _).mpr ⟨hlast, last_reached hreach.pos⟩, fun b hb => ((hmem b).mp hb).2,
    fun b hb hne b' hb' hreached => ?_⟩
  · refine (Finset.card_filter_le _ _).trans ((List.toFinset_card_le _).trans ?_)
    rw [hspec.length]
    omega
  · have htop : b' ∉ top := fun h => hb' ((hmem b').mpr ⟨h, hreached⟩)
    have hle := hspec.best b ((hmem b).mp hb).1 b' (lt_numBlocks hblock hreach.le hreached) htop
    have hne' : b' ≠ (len - 1) / blockSize := fun h => htop (h ▸ hlast)
    rwa [blockScore_of_ne hreach.pos hne, blockScore_of_ne hreach.pos hne'] at hle

/-- **The budget**: when a query reaches no more blocks than may be kept, every reachable
position is kept. -/
theorem selectCandidateBlocks_all (hreach : Reaches logits width len) (hblock : 0 < blockSize)
    (hbudget : reachableBlocks len blockSize ≤ topkBlocks) {p : ℕ} (hp : p < len) :
    selectCandidateBlocks topk logits width len topkBlocks blockSize p = true := by
  have hpb : p / blockSize * blockSize < len := (Nat.div_mul_le_self p blockSize).trans_lt hp
  rw [selectCandidateBlocks_iff, keptBlocks, Finset.mem_filter, List.mem_toFinset,
    blockScore_pos hreach hblock]
  refine ⟨(topk.spec _ _ _).mem_of_card_le (P := fun b => b * blockSize < len) ?_ ?_
    (lt_numBlocks hblock hreach.le hpb) hpb, hpb⟩
  · intro i j _ _ hi hj
    have hbot : blockScore logits width len blockSize j = ⊥ := by
      by_contra hne
      exact hj ((blockScore_pos hreach hblock).mp (bot_lt_iff_ne_bot.mpr hne))
    rw [hbot]
    exact (blockScore_pos hreach hblock).mpr hi
  · refine le_min ?_ ((Finset.card_filter_le _ _).trans (Finset.card_range _).le)
    have hsub : (Finset.range (numBlocks width blockSize)).filter (fun b => b * blockSize < len) ⊆
        Finset.range (reachableBlocks len blockSize) := by
      intro b hb
      exact Finset.mem_range.mpr ((lt_reachableBlocks hblock).mpr (Finset.mem_filter.mp hb).2)
    exact (Finset.card_le_card hsub).trans ((Finset.card_range _).le.trans hbudget)

/-! ## Leaving level one out -/

variable {scores garbage : ℕ → S} {mask : ℕ → Bool}

/-- A mask that keeps every position that is reached leaves the scores of the row as they are. -/
theorem maskRow_eq (hreach : Reaches scores width len) (hmask : ∀ p, p < len → mask p = true)
    {p : ℕ} (hp : p < width) : maskRow mask scores p = scores p := by
  rw [maskRow]
  split
  next => rfl
  next hfalse =>
    have hlen : len ≤ p := not_lt.mp fun h => hfalse (hmask p h)
    exact (hreach.beyond p hlen hp).symm

/-- So the torch path selects the same positions with it as without. -/
theorem torchSelect_masked (hreach : Reaches scores width len)
    (hmask : ∀ p, p < len → mask p = true) (k : ℕ) :
    torchSelect topk scores len width k (some mask) = torchSelect topk scores len width k none := by
  have hrun := topk.congr (maskRow mask scores) scores width (min k width)
    fun p hp => maskRow_eq hreach hmask hp
  rw [torchSelect, torchSelect]
  rw [hrun, maskTopkScores, List.filter_filter]
  refine congrArg List.toFinset (List.filter_congr fun i hi => ?_)
  have hwidth := (topk.spec scores width (min k width)).lt i hi
  rw [maskRow_eq hreach hmask hwidth]
  by_cases hlt : i < len
  · simp [hlt, (hreach.finite i hlt).1]
  · simp [hlt]

/-- Scores that are finite at the reached positions reach them, once the others are masked. -/
theorem reaches_maskRow (hpos : 0 < len) (hle : len ≤ width)
    (hfinite : ∀ p, p < len → ⊥ < garbage p ∧ garbage p < ⊤) :
    Reaches (maskRow (fun p => p < len) garbage) width len := by
  refine ⟨hpos, hle, fun p hp => ?_, fun p hp _ => ?_⟩
  · rw [maskRow, if_pos (decide_eq_true hp)]
    exact hfinite p hp
  · rw [maskRow, if_neg fun h => absurd (of_decide_eq_true h) (not_lt.mpr hp)]

/-- Whatever graph runs: the logits of the reached positions are the row's own, when the mask
that a consumer reads keeps them all. -/
theorem twoLevelDecodeLogits_eq (variant : DsaVariant) (isCandidateSource usesCandidates : Bool)
    (hmask : variant = .candidateFiltered → ∀ p, p < len → mask p = true) {p : ℕ} (hp : p < len) :
    (twoLevelDecodeLogits topk variant isCandidateSource usesCandidates garbage width len topkBlocks
      blockSize mask).1 p = garbage p := by
  have hreached : maskRow (fun p => p < len) garbage p = garbage p :=
    if_pos (decide_eq_true hp)
  rw [twoLevelDecodeLogits]
  split
  next => rfl
  next =>
    split
    next => rfl
    next hvariant =>
      split
      next => exact hreached
      next => exact (if_pos (hmask (not_not.mp hvariant) p hp)).trans hreached

/-- So every variant selects the best of the positions that are reached, whatever is left over
behind them. -/
theorem decodeSelect_eq (variant : DsaVariant) (isCandidateSource usesCandidates : Bool)
    (hfinite : ∀ p, p < len → ⊥ < garbage p ∧ garbage p < ⊤)
    (hmask : variant = .candidateFiltered → ∀ p, p < len → mask p = true) (k : ℕ) :
    decodeSelect topk variant isCandidateSource usesCandidates garbage width len topkBlocks
      blockSize k mask = (topk.run garbage len (min k len)).toFinset := by
  have hlogits : ∀ p, p < len → (twoLevelDecodeLogits topk variant isCandidateSource usesCandidates
      garbage width len topkBlocks blockSize mask).1 p = garbage p :=
    fun p hp => twoLevelDecodeLogits_eq topk variant isCandidateSource usesCandidates hmask hp
  rw [decodeSelect]
  rw [topk.congr _ garbage len (min k len) hlogits]
  split
  next =>
    rw [maskTopkScores, List.filter_eq_self.mpr]
    intro i hi
    have hlt := (topk.spec garbage len (min k len)).lt i hi
    rw [hlogits i hlt]
    exact decide_eq_true (hfinite i hlt).1
  next => rfl

/-- **The two-level top-k**. `select_candidate_blocks` keeps whole blocks: the newest, and the
best of the others that are reached. Where all reached blocks fit the budget, all reached
positions are kept, and top-k after the mask is plain top-k. So the prefill graph, which
asserts that its width fits, and the decode graphs without filtering, which are run for
batches within the span, select what the mask and top-k would. -/
theorem candidate_blocks (hreach : Reaches logits width len) (hblock : 0 < blockSize)
    (htopk : 0 < topkBlocks) :
    (∃ kept : Finset ℕ,
      (∀ p, selectCandidateBlocks topk logits width len topkBlocks blockSize p = true ↔
        p / blockSize ∈ kept) ∧ KeptBlocks logits width len topkBlocks blockSize kept) ∧
    (reachableBlocks len blockSize ≤ topkBlocks →
      (∀ p, p < len → selectCandidateBlocks topk logits width len topkBlocks blockSize p = true) ∧
      ∀ scores k, Reaches scores width len → torchSelect topk scores len width k
          (some (selectCandidateBlocks topk logits width len topkBlocks blockSize)) =
        torchSelect topk scores len width k none) ∧
    (width ≤ topkBlocks * blockSize →
      ∀ garbage k, (∀ p, p < len → ⊥ < garbage p ∧ garbage p < ⊤) →
        prefillGraphSelect topk garbage width len k =
          torchSelect topk (maskRow (fun p => p < len) garbage) len width k
            (some (selectCandidateBlocks topk logits width len topkBlocks blockSize))) ∧
    ∀ indexTopk ratios maxSeqLen variant seqLen ratio,
      resolveDsaVariant (candidateGraphLimits indexTopk ratios (topkBlocks * blockSize))
        maxSeqLen = variant → variant ≠ .candidateFiltered →
      (∀ m, maxSeqLen = some m → seqLen ≤ m) → len = seqLen / ratio →
      ∀ isCandidateSource usesCandidates garbage published k,
        (∀ p, p < len → ⊥ < garbage p ∧ garbage p < ⊤) →
        decodeSelect topk variant isCandidateSource usesCandidates garbage width len topkBlocks
            blockSize k published =
          decodeSelect topk .candidateFiltered isCandidateSource usesCandidates garbage width len
            topkBlocks blockSize k
            (selectCandidateBlocks topk logits width len topkBlocks blockSize) := by
  have hall : len ≤ topkBlocks * blockSize → ∀ p, p < len →
      selectCandidateBlocks topk logits width len topkBlocks blockSize p = true :=
    fun h p hp => selectCandidateBlocks_all topk hreach hblock (reachableBlocks_le hblock h) hp
  refine ⟨⟨_, selectCandidateBlocks_iff topk, keptBlocks_spec topk hreach hblock htopk⟩,
    fun hbudget => ?_, fun hwidth garbage k hfinite => ?_, ?_⟩
  · have hmask := fun p (hp : p < len) => selectCandidateBlocks_all topk hreach hblock hbudget hp
    exact ⟨hmask, fun scores k hscores => torchSelect_masked topk hscores hmask k⟩
  · have hgarbage := reaches_maskRow hreach.pos hreach.le hfinite
    exact (torchSelect_masked topk hgarbage (hall (hreach.le.trans hwidth)) k).symm
  · intro indexTopk ratios maxSeqLen variant seqLen ratio hvariant hne hmax hlen isCandidateSource
      usesCandidates garbage published k hfinite
    obtain ⟨m, rfl, hspan⟩ := resolveDsaVariant_span (hvariant ▸ hne)
    have hle : len ≤ topkBlocks * blockSize := by
      rw [hlen]
      exact (Nat.div_le_self _ _).trans ((hmax m rfl).trans hspan)
    rw [decodeSelect_eq topk variant _ _ hfinite fun h => absurd h hne,
      decodeSelect_eq topk .candidateFiltered _ _ hfinite fun _ => hall hle]

end

/-- Five scores in a row of six. -/
def fiveScores (p : ℕ) : WithBot (WithTop ℤ) := if p < 5 then
    (([3, 1, 4, 1, 5].getD p 0 : ℤ) : WithTop ℤ) else ⊥

/-- Of a row of five positions in three blocks of two, two blocks are kept. -/
theorem candidate_blocks_five : ∃ kept : Finset ℕ,
    (∀ p, selectCandidateBlocks (sortTopk _) fiveScores 6 5 2 2 p = true ↔ p / 2 ∈ kept) ∧
      KeptBlocks fiveScores 6 5 2 2 kept :=
  (candidate_blocks (sortTopk _) ⟨by decide, by decide, by decide, by decide⟩ (by decide)
    (by decide)).1

end LuzServing

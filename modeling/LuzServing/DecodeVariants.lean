import LuzServing.CandidateBlocks

/-!
# The decode graphs

A decode batch replays one of several captured graphs, chosen by its longest request
(`resolveDsaVariant`). In a graph for short requests the indexer of some ratio is skipped, and
the buffer that the layers of this ratio share holds all positions from the start; in others
the indexer runs without the candidate masks. All layers of a forward go through the same
state: the mask that the last candidate source left, and a buffer for each ratio.

Whichever graph is chosen, each layer finds in its buffer what the full filtering would have
left there, up to ties (`decodeRun_agree`). Limits are in tokens and a layer of ratio 2 sees
half as many positions, so a mask of ratio 1 covers it, while one of ratio 2 is too narrow for
a layer of ratio 1 and is refused.

Scores are of any linear order; `-inf` and `+inf` are added to it, and are only the masks'.
-/

namespace LuzServing

/-! ## A batch and its page table -/

/-- `DSV41_INDEX_PAGE_SIZE` -/
def indexPageSize : ℕ := 64

/-- The pool slot of a compressed position: a page of the full pool holds `page_size // ratio`
of them. -/
def poolSlot (pageTable : ℕ → ℕ) (pageSize ratio p : ℕ) : ℕ :=
  let slotsPerPage := pageSize / ratio
  pageTable (p / slotsPerPage) * slotsPerPage + p % slotsPerPage

/-- `_expand_index_page_table` on a row, for pages whose slots are `int32`s, so that the numbers of
their index pages are stored as they are. -/
def expandIndexPageTable (pageTable : ℕ → ℕ) (fullPageSize ratio : ℕ) : ℕ → ℕ :=
  let blocksPerPage := fullPageSize / ratio / indexPageSize
  if blocksPerPage = 1 then pageTable
  else fun b => pageTable (b / blocksPerPage) * blocksPerPage + b % blocksPerPage

/-- The slot that the indexer finds for a position, in the expanded page table. -/
def indexSlot (pageTable : ℕ → ℕ) (pageSize ratio p : ℕ) : ℕ :=
  expandIndexPageTable pageTable pageSize ratio (p / indexPageSize) * indexPageSize +
    p % indexPageSize

/-- `c1_topk_lengths_clamp1` and `c2_topk_lengths_clamp1` -/
def topkLengthClamp1 (seqLen ratio : ℕ) : ℕ := max 1 (seqLen / ratio)

/-- `c1_sparse_topk_lengths` and `c2_sparse_topk_lengths` -/
def sparseTopkLength (seqLen ratio topk : ℕ) : ℕ := min (topkLengthClamp1 seqLen ratio) topk

/-- A decode batch and the page table that its graph reads. -/
structure DecodeGraphBatch : Type where
  /-- the lengths of its requests -/
  seqLens : List ℕ
  /-- each has a position of either ratio -/
  two_le : ∀ s ∈ seqLens, 2 ≤ s
  /-- `page_size` of the full pool -/
  pageSize : ℕ
  /-- `assert page_size % 128 == 0` -/
  whole : 128 ∣ pageSize
  /-- the columns of the page table -/
  numPages : ℕ
  /-- they hold the requests -/
  fits : ∀ s ∈ seqLens, s ≤ numPages * pageSize
  /-- the pages of a row -/
  pageTable : ℕ → ℕ → ℕ

/-- The length of a row's request. -/
def DecodeGraphBatch.seqLen (batch : DecodeGraphBatch) (row : ℕ) : ℕ := batch.seqLens.getD row 0

/-- `c4_seq_lens` of a ratio's indexer: how many positions a row has. -/
def DecodeGraphBatch.len (batch : DecodeGraphBatch) (ratio row : ℕ) : ℕ :=
  topkLengthClamp1 (batch.seqLen row) ratio

/-- `max_c4_seq_len`: the columns of the logits, as many as the expanded page table has
slots. -/
def DecodeGraphBatch.width (batch : DecodeGraphBatch) (ratio : ℕ) : ℕ :=
  batch.numPages * (batch.pageSize / ratio)

/-- What the configuration says of the indexers. -/
structure CandidateConfig : Type where
  /-- `index_topk` -/
  indexTopk : ℕ
  /-- some position is selected -/
  indexTopk_pos : 0 < indexTopk
  /-- `set(compress_ratios) & {1, 2}` -/
  ratios : List ℕ
  /-- there are layers of low ratio -/
  ratios_ne : ratios ≠ []
  /-- the ratios are low -/
  low : ∀ ratio ∈ ratios, ratio = 1 ∨ ratio = 2
  /-- `candidate_topk_blocks` -/
  topkBlocks : ℕ
  /-- some block is kept -/
  topkBlocks_pos : 0 < topkBlocks
  /-- `candidate_block_size` -/
  blockSize : ℕ
  /-- blocks are not empty -/
  blockSize_pos : 0 < blockSize

/-- `candidate_filter_span` -/
def CandidateConfig.span (cfg : CandidateConfig) : ℕ := cfg.topkBlocks * cfg.blockSize

/-- The graph that is run for a batch. -/
def CandidateConfig.variant (cfg : CandidateConfig) (batch : DecodeGraphBatch) : DsaVariant :=
  resolveDsaVariant (candidateGraphLimits cfg.indexTopk cfg.ratios cfg.span) batch.seqLens.max?

/-- What the code relies on elsewhere. -/
structure IndexerGraphs : Type where
  /-- `skip_low_ratio_indexer`, by the variant that is captured -/
  skipLowRatioIndexer : DsaVariant → ℕ → Bool
  /-- the indexers of all ratios are skipped, or those of ratio 2, or none -/
  skip_iff : ∀ variant ratio, skipLowRatioIndexer variant ratio = true ↔
    variant = .candidateAll ∨ variant = .candidateC2All ∧ ratio = 2
  /-- `fill_all_compressed_indices` on a row: its page table, its length, the ratio, the page
  size -/
  fillAllCompressedIndices : (ℕ → ℕ) → ℕ → ℕ → ℕ → Finset ℕ
  /-- it writes the pool slots of the first positions -/
  fill_eq : ∀ pageTable length ratio pageSize,
    fillAllCompressedIndices pageTable length ratio pageSize =
      (Finset.range length).image (poolSlot pageTable pageSize ratio)

/-- The graph that filters its candidates captures every indexer, so none of its layers is
skipped. -/
theorem IndexerGraphs.not_skip_filtered (graphs : IndexerGraphs) (ratio : ℕ) :
    ¬ graphs.skipLowRatioIndexer .candidateFiltered ratio = true := by
  rw [graphs.skip_iff]
  rintro (h | ⟨h, -⟩) <;> cases h

/-! ## The layers -/

/-- Scores, `-inf` and `+inf`. -/
abbrev Logit (F : Type*) : Type _ := WithBot (WithTop F)

/-- A layer of low ratio with an indexer, and its scores in this forward. -/
structure LowRatioLayer (F : Type*) : Type _ where
  /-- `compress_ratio` -/
  ratio : ℕ
  /-- it publishes a mask -/
  isCandidateSource : Bool
  /-- it selects from the candidates -/
  usesCandidates : Bool
  /-- the score of a row at a position -/
  scores : ℕ → ℕ → F
  /-- the columns past a row's length hold garbage -/
  garbage : ℕ → ℕ → Logit F

/-- No layer uses candidates before one has published them. -/
def SourceFirst {F : Type*} : List (LowRatioLayer F) → Prop
  | [] => True
  | layer :: layers => layer.isCandidateSource = true ∨
      layer.usesCandidates = false ∧ SourceFirst layers

/-- The layers of low ratio of a model. -/
structure LowRatioLayers (cfg : CandidateConfig) (F : Type*) : Type _ where
  /-- the layers with an indexer, in order -/
  layers : List (LowRatioLayer F)
  /-- their ratios are the configuration's -/
  ratio_mem : ∀ layer ∈ layers, layer.ratio ∈ cfg.ratios
  /-- the source publishes for the layers after it -/
  sourceFirst : SourceFirst layers

/-- A mask that a source published. -/
structure PublishedMask : Type where
  /-- its rows -/
  rows : ℕ
  /-- its columns -/
  width : ℕ
  /-- what it keeps of a row -/
  keep : ℕ → ℕ → Bool

/-- What the layers of a forward share. -/
structure IndexerState : Type where
  /-- `candidate_masks`, which the forward before it may have left -/
  candidateMasks : Option PublishedMask
  /-- the slots in `sparse_page_indices(ratio)`, by row -/
  sparsePageIndices : ℕ → ℕ → Finset ℕ

/-- A layer's slots go to the buffer of its ratio, and its mask, if any, replaces the last. -/
def IndexerState.write (st : IndexerState) (ratio : ℕ) (published : Option PublishedMask)
    (slots : ℕ → Finset ℕ) : IndexerState where
  candidateMasks := published.or st.candidateMasks
  sparsePageIndices := Function.update st.sparsePageIndices ratio slots

/-- After a layer has written, the mask in force is the one that it published, or else the one
before. -/
@[simp] theorem IndexerState.write_masks (st : IndexerState) (ratio : ℕ)
    (published : Option PublishedMask) (slots : ℕ → Finset ℕ) :
    (st.write ratio published slots).candidateMasks = published.or st.candidateMasks :=
  rfl

/-- The index buffer of the layer's own ratio holds the slots that the layer wrote. -/
@[simp] theorem IndexerState.write_self (st : IndexerState) (ratio : ℕ)
    (published : Option PublishedMask) (slots : ℕ → Finset ℕ) :
    (st.write ratio published slots).sparsePageIndices ratio = slots :=
  Function.update_self ..

/-- The index buffers of the other ratios are left as they were by the write. -/
theorem IndexerState.write_of_ne {st : IndexerState} {ratio other : ℕ} (h : other ≠ ratio)
    (published : Option PublishedMask) (slots : ℕ → Finset ℕ) :
    (st.write ratio published slots).sparsePageIndices other = st.sparsePageIndices other :=
  Function.update_of_ne h ..

section

variable {F : Type*} [LinearOrder F]

/-- `_fp4_paged_mqa_logits` -/
def LowRatioLayer.logits (layer : LowRatioLayer F) (batch : DecodeGraphBatch) (row p : ℕ) :
    Logit F :=
  if p < batch.len layer.ratio row then ((layer.scores row p : WithTop F) : Logit F)
  else layer.garbage row p

variable (graphs : IndexerGraphs) (cfg : CandidateConfig) (blocks paged : TopkOp (Logit F))
  (variant : DsaVariant) (batch : DecodeGraphBatch)

/-- The mask that a layer reads: a consumer asserts that it is there and that it has the rows
and the columns of the logits, for the others nothing is masked. -/
def readMask (layer : LowRatioLayer F) (st : IndexerState) : Option (ℕ → ℕ → Bool) :=
  if variant = .candidateFiltered ∧ layer.usesCandidates ∧ !layer.isCandidateSource then
    st.candidateMasks.bind fun mask =>
      if mask.rows = batch.seqLens.length ∧ batch.width layer.ratio ≤ mask.width then
        some mask.keep
      else none
  else some fun _ _ => true

/-- The mask that a layer publishes, if any. -/
def publishMask (layer : LowRatioLayer F) (keep : ℕ → ℕ → Bool) : Option PublishedMask :=
  if variant = .candidateFiltered ∧ layer.isCandidateSource then
    some {
      rows := batch.seqLens.length
      width := batch.width layer.ratio
      keep := fun row => ((twoLevelDecodeLogits blocks variant layer.isCandidateSource
        layer.usesCandidates (layer.logits batch row) (batch.width layer.ratio)
        (batch.len layer.ratio row) cfg.topkBlocks cfg.blockSize (keep row)).2).getD fun _ => false
    }
  else none

/-- What a layer selects in a row. -/
def selectRow (layer : LowRatioLayer F) (keep : ℕ → ℕ → Bool) (row : ℕ) : Finset ℕ :=
  decodeSelect paged variant layer.isCandidateSource layer.usesCandidates (layer.logits batch row)
    (batch.width layer.ratio) (batch.len layer.ratio row) cfg.topkBlocks cfg.blockSize
    cfg.indexTopk (keep row)

/-- The slots that it selects, through the expanded page table. -/
def selectSlots (layer : LowRatioLayer F) (keep : ℕ → ℕ → Bool) (row : ℕ) : Finset ℕ :=
  (selectRow cfg paged variant batch layer keep row).image
    (indexSlot (batch.pageTable row) batch.pageSize layer.ratio)

/-- `_low_ratio_index_topk_decode` -/
def lowRatioIndexTopkDecode (layer : LowRatioLayer F) (st : IndexerState) : Option IndexerState :=
  if graphs.skipLowRatioIndexer variant layer.ratio then some st
  else (readMask variant batch layer st).map fun keep =>
    st.write layer.ratio (publishMask cfg blocks variant batch layer keep)
      (selectSlots cfg paged variant batch layer keep)

/-- `init_forward_metadata_in_graph`: the buffers of the ratios whose indexer is skipped are
filled, the others are empty. -/
def initForward (leftover : Option PublishedMask) : IndexerState where
  candidateMasks := leftover
  sparsePageIndices ratio row :=
    if graphs.skipLowRatioIndexer variant ratio then
      graphs.fillAllCompressedIndices (batch.pageTable row)
        (sparseTopkLength (batch.seqLen row) ratio cfg.indexTopk) ratio batch.pageSize
    else ∅

/-- The layers one after the other, and what each finds in its buffer. -/
def decodeLayers : List (LowRatioLayer F) → IndexerState → Option (List (ℕ → Finset ℕ))
  | [], _ => some []
  | layer :: layers, st =>
    (lowRatioIndexTopkDecode graphs cfg blocks paged variant batch layer st).bind fun st' =>
      (decodeLayers layers st').map (st'.sparsePageIndices layer.ratio :: ·)

/-- A forward of a graph. -/
def decodeRun (leftover : Option PublishedMask) (layers : List (LowRatioLayer F)) :
    Option (List (ℕ → Finset ℕ)) :=
  decodeLayers graphs cfg blocks paged variant batch layers
    (initForward graphs cfg variant batch leftover)

end

/-! ## Slots and lengths -/

/-- The expanded page table leads to the pool slot of the same position. -/
theorem indexSlot_eq {pageTable : ℕ → ℕ} {pageSize ratio : ℕ}
    (hdvd : indexPageSize ∣ pageSize / ratio) :
    indexSlot pageTable pageSize ratio = poolSlot pageTable pageSize ratio := by
  funext p
  obtain ⟨blocksPerPage, hslots⟩ := hdvd
  have hblocks : indexPageSize * blocksPerPage / indexPageSize = blocksPerPage :=
    Nat.mul_div_cancel_left _ (by decide)
  have hexpand : expandIndexPageTable pageTable pageSize ratio = fun b =>
      pageTable (b / blocksPerPage) * blocksPerPage + b % blocksPerPage := by
    rw [expandIndexPageTable, hslots, hblocks]
    split
    next hone => simp [hone, Nat.mod_one]
    next => rfl
  rw [indexSlot, poolSlot, hexpand, hslots]
  dsimp only
  rw [Nat.div_div_eq_div_mul, Nat.mod_mul]
  ring

variable {batch : DecodeGraphBatch} {ratio row : ℕ}

/-- A page of the full pool is a whole number of index pages. -/
theorem DecodeGraphBatch.index_dvd (hlow : ratio = 1 ∨ ratio = 2) :
    indexPageSize ∣ batch.pageSize / ratio := by
  obtain ⟨k, hk⟩ := batch.whole
  rw [hk, indexPageSize]
  rcases hlow with rfl | rfl <;> omega

/-- The sequence length of a row that the batch has is one of the batch's lengths. -/
theorem DecodeGraphBatch.seqLen_mem (hrow : row < batch.seqLens.length) :
    batch.seqLen row ∈ batch.seqLens := by
  rw [DecodeGraphBatch.seqLen, List.getD_eq_getElem?_getD, List.getElem?_eq_getElem hrow]
  exact List.getElem_mem hrow

/-- The clamp to one position changes nothing at ratios 1 and 2, as a decoded row sees at least one
position. -/
theorem DecodeGraphBatch.len_eq (hlow : ratio = 1 ∨ ratio = 2)
    (hrow : row < batch.seqLens.length) :
    batch.len ratio row = batch.seqLen row / ratio ∧ 0 < batch.len ratio row := by
  have htwo := batch.two_le _ (DecodeGraphBatch.seqLen_mem hrow)
  rw [DecodeGraphBatch.len, topkLengthClamp1]
  rcases hlow with rfl | rfl <;> omega

/-- The logits have a column for each position of a row. -/
theorem DecodeGraphBatch.len_le_width (hlow : ratio = 1 ∨ ratio = 2)
    (hrow : row < batch.seqLens.length) : batch.len ratio row ≤ batch.width ratio := by
  obtain ⟨k, hk⟩ := batch.whole
  have hdvd : ratio ∣ batch.pageSize := by
    rw [hk]
    rcases hlow with rfl | rfl
    · exact one_dvd _
    · exact Dvd.intro (64 * k) (by ring)
  rw [(DecodeGraphBatch.len_eq hlow hrow).1, DecodeGraphBatch.width, ← Nat.mul_div_assoc _ hdvd]
  exact Nat.div_le_div_right (batch.fits _ (DecodeGraphBatch.seqLen_mem hrow))

/-- A row with as many columns has as many positions: the columns of ratio 1 are twice those
of ratio 2, and there are some. -/
theorem DecodeGraphBatch.len_le_of_width_le {source : ℕ} (hlow : ratio = 1 ∨ ratio = 2)
    (hsource : source = 1 ∨ source = 2) (hrow : row < batch.seqLens.length)
    (hwidth : batch.width ratio ≤ batch.width source) :
    batch.len ratio row ≤ batch.len source row := by
  have hmem := DecodeGraphBatch.seqLen_mem hrow
  have htwo := batch.two_le _ hmem
  have hfits := batch.fits _ hmem
  rw [(DecodeGraphBatch.len_eq hlow hrow).1, (DecodeGraphBatch.len_eq hsource hrow).1]
  rcases hsource with rfl | rfl
  · rw [Nat.div_one]
    exact Nat.div_le_self _ _
  · rcases hlow with rfl | rfl
    · obtain ⟨k, hk⟩ := batch.whole
      rw [DecodeGraphBatch.width, DecodeGraphBatch.width, hk, Nat.div_one,
        show 128 * k / 2 = 64 * k by omega] at hwidth
      rw [hk] at hfits
      have hzero : batch.numPages * (128 * k) = 2 * (batch.numPages * (64 * k)) := by ring
      omega
    · exact le_rfl

/-! ## What the limits promise -/

variable {cfg : CandidateConfig}

/-- The `min(ratios)` of the source, as a running minimum, is at most each ratio and at most its
start. -/
theorem foldl_min_le (ratios : List ℕ) (start : ℕ) :
    ratios.foldl min start ≤ start ∧ ∀ ratio ∈ ratios, ratios.foldl min start ≤ ratio := by
  induction ratios generalizing start with
  | nil => exact ⟨le_rfl, fun ratio h => nomatch h⟩
  | cons first ratios ih =>
    obtain ⟨hstart, hall⟩ := ih (min start first)
    rw [List.foldl_cons]
    refine ⟨hstart.trans (min_le_left _ _), fun ratio h => ?_⟩
    rcases List.mem_cons.mp h with rfl | h
    · exact hstart.trans (min_le_right _ _)
    · exact hall ratio h

/-- The longest request is at least as long as each row's. -/
theorem DecodeGraphBatch.seqLen_le_max {m : ℕ} (hmax : batch.seqLens.max? = some m)
    (hrow : row < batch.seqLens.length) : batch.seqLen row ≤ m :=
  (List.max?_eq_some_iff.mp hmax).2 _ (DecodeGraphBatch.seqLen_mem hrow)

/-- A batch whose variant does not filter its candidates has no row beyond the candidate span. -/
theorem CandidateConfig.seqLen_le_span (hvariant : cfg.variant batch ≠ .candidateFiltered)
    (hrow : row < batch.seqLens.length) : batch.seqLen row ≤ cfg.span := by
  obtain ⟨m, hmax, hle⟩ := resolveDsaVariant_span hvariant
  exact (DecodeGraphBatch.seqLen_le_max hmax hrow).trans hle

/-- A graph that skips the indexers of a ratio has a limit at which every position of that ratio
fits into the top-k. -/
theorem CandidateConfig.skip_limit {limit : ℕ} {variant : DsaVariant}
    (hmem : (variant, limit) ∈ candidateGraphLimits cfg.indexTopk cfg.ratios cfg.span)
    (hskip : variant = .candidateAll ∨ variant = .candidateC2All ∧ ratio = 2)
    (hratio : ratio ∈ cfg.ratios) : limit ≤ cfg.indexTopk * ratio := by
  obtain ⟨own, hown, hlimit⟩ := graphLimits_mem hmem
  refine (hlimit.le.trans (min_le_left _ _)).trans ?_
  rw [if_pos ⟨cfg.indexTopk_pos, cfg.ratios_ne⟩, List.cons_append, List.mem_cons,
    List.mem_append, List.mem_singleton] at hown
  rcases hskip with rfl | ⟨rfl, rfl⟩
  · rcases hown with h | h | h
    · rw [(Prod.mk.inj h).2]
      exact Nat.mul_le_mul_left _ ((foldl_min_le _ _).2 ratio hratio)
    · split at h <;> simp at h
    · simp at h
  · rcases hown with h | h | h
    · simp at h
    · split at h
      · rw [(Prod.mk.inj (List.mem_singleton.mp h)).2]
      · cases h
    · simp at h

/-- **Where an indexer is skipped, every position is selected**: no row has more than
`index_topk` positions of the ratio. -/
theorem CandidateConfig.len_le_indexTopk (graphs : IndexerGraphs)
    (hskip : graphs.skipLowRatioIndexer (cfg.variant batch) ratio = true)
    (hratio : ratio ∈ cfg.ratios) (hrow : row < batch.seqLens.length) :
    batch.len ratio row ≤ cfg.indexTopk := by
  have hne : cfg.variant batch ≠ .candidateFiltered :=
    fun hfull => graphs.not_skip_filtered _ (hfull ▸ hskip)
  obtain ⟨m, limit, hmax, hmem, hle⟩ := resolveDsaVariant_mem hne
  have hlimit := CandidateConfig.skip_limit hmem ((graphs.skip_iff _ _).mp hskip) hratio
  rw [(DecodeGraphBatch.len_eq (cfg.low ratio hratio) hrow).1]
  exact Nat.div_le_of_le_mul <| (DecodeGraphBatch.seqLen_le_max hmax hrow).trans <|
    (hle.trans hlimit).trans (Nat.mul_comm _ _).le

/-! ## A row -/

section

variable {F : Type*} {layer : LowRatioLayer F} {p : ℕ}

/-- The logit of a position that the row sees is its score, with no mask or bound in between. -/
theorem LowRatioLayer.logits_of_lt (hp : p < batch.len layer.ratio row) :
    layer.logits batch row p = ((layer.scores row p : WithTop F) : Logit F) :=
  if_pos hp

/-- Two positions of a row with the same logit have the same score, since the logits are the scores
there. -/
theorem LowRatioLayer.scores_eq {q : ℕ} (hp : p < batch.len layer.ratio row)
    (hq : q < batch.len layer.ratio row)
    (h : layer.logits batch row p = layer.logits batch row q) :
    layer.scores row p = layer.scores row q := by
  rw [LowRatioLayer.logits_of_lt hp, LowRatioLayer.logits_of_lt hq] at h
  exact WithTop.coe_injective (WithBot.coe_injective h)

variable [LinearOrder F] {blocks paged paged' : TopkOp (Logit F)} {variant : DsaVariant}
  {keep : ℕ → ℕ → Bool}

/-- The logits of a row's positions are scores, so they lie strictly between the two infinities. -/
theorem LowRatioLayer.logits_finite (hp : p < batch.len layer.ratio row) :
    ⊥ < layer.logits batch row p ∧ layer.logits batch row p < ⊤ := by
  rw [LowRatioLayer.logits_of_lt hp]
  exact ⟨WithBot.bot_lt_coe _, WithBot.coe_lt_coe.mpr (WithTop.coe_lt_top _)⟩

/-- Where the mask keeps every position, the best of all are selected. -/
theorem selectRow_eq (hkeep : variant = .candidateFiltered →
      ∀ p, p < batch.len layer.ratio row → keep row p = true) :
    selectRow cfg paged variant batch layer keep row = (paged.run (layer.logits batch row)
      (batch.len layer.ratio row) (min cfg.indexTopk (batch.len layer.ratio row))).toFinset :=
  decodeSelect_eq paged variant _ _ (fun _ hp => LowRatioLayer.logits_finite hp) hkeep _

/-- A consumer that reads masks. -/
def LowRatioLayer.Consumes (layer : LowRatioLayer F) : Prop :=
  (layer.usesCandidates && !layer.isCandidateSource) = true

instance (layer : LowRatioLayer F) : Decidable layer.Consumes :=
  inferInstanceAs (Decidable (_ = true))

/-- A row's selection is the top-k of its logits, of which a consumer masks some and drops
these. -/
theorem selectRow_spec (cfg : CandidateConfig) (variant : DsaVariant) (batch : DecodeGraphBatch)
    (layer : LowRatioLayer F) (keep : ℕ → ℕ → Bool) (row : ℕ) : ∃ logits : ℕ → Logit F,
    (∀ paged, selectRow cfg paged variant batch layer keep row =
      (paged.run logits (batch.len layer.ratio row) (min cfg.indexTopk
        (batch.len layer.ratio row))).toFinset.filter fun i => layer.Consumes → ⊥ < logits i) ∧
    ∀ p, p < batch.len layer.ratio row →
      logits p = layer.logits batch row p ∨ layer.Consumes ∧ logits p = ⊥ := by
  refine ⟨(twoLevelDecodeLogits (sortTopk _) variant layer.isCandidateSource layer.usesCandidates
    (layer.logits batch row) (batch.width layer.ratio) (batch.len layer.ratio row) cfg.topkBlocks
    cfg.blockSize (keep row)).1, fun paged => ?_, fun p hp => ?_⟩
  · -- the routine decides which blocks are published, not which logits are selected from
    have hsame : (twoLevelDecodeLogits paged variant layer.isCandidateSource layer.usesCandidates
        (layer.logits batch row) (batch.width layer.ratio) (batch.len layer.ratio row)
        cfg.topkBlocks cfg.blockSize (keep row)).1 = (twoLevelDecodeLogits (sortTopk _) variant
        layer.isCandidateSource layer.usesCandidates (layer.logits batch row)
        (batch.width layer.ratio) (batch.len layer.ratio row) cfg.topkBlocks cfg.blockSize
        (keep row)).1 := by
      rw [twoLevelDecodeLogits, twoLevelDecodeLogits]
      split_ifs <;> rfl
    rw [selectRow, decodeSelect]
    rw [hsame]
    split
    next hconsumes =>
      rw [maskTopkScores, List.toFinset_filter]
      refine Finset.filter_congr fun i _ => ?_
      rw [decide_eq_true_eq]
      exact ⟨fun h _ => h, fun h => h hconsumes⟩
    next hconsumes => exact (Finset.filter_true_of_mem fun i _ h => absurd h hconsumes).symm
  · have hreached : maskRow (fun p => p < batch.len layer.ratio row) (layer.logits batch row) p =
        layer.logits batch row p := if_pos (decide_eq_true hp)
    rw [twoLevelDecodeLogits]
    split
    next => exact .inl rfl
    next hkind =>
      split
      next => exact .inl rfl
      next =>
        split
        next => exact .inl hreached
        next hsource =>
          by_cases hmask : keep row p = true
          · exact .inl ((if_pos hmask).trans hreached)
          · refine .inr ⟨?_, if_neg hmask⟩
            rw [LowRatioLayer.Consumes]
            rw [Bool.not_eq_true] at hsource
            rw [hsource, Bool.false_or, Bool.not_eq_true, Bool.not_eq_false'] at hkind
            rw [hkind, hsource, Bool.not_false, Bool.and_self]

/-- A layer selects only positions that the row sees, whichever variant of the graph is replayed. -/
theorem selectRow_lt (hp : p ∈ selectRow cfg paged variant batch layer keep row) :
    p < batch.len layer.ratio row := by
  obtain ⟨logits, hselect, -⟩ := selectRow_spec cfg variant batch layer keep row
  rw [hselect, Finset.mem_filter, List.mem_toFinset] at hp
  exact (paged.spec _ _ _).lt p hp.1

/-- The same holds of two selections taken together: each position of either is one that the row
sees. -/
theorem selectRow_union_lt {variant' : DsaVariant} {keep' : ℕ → ℕ → Bool}
    (hp : p ∈ selectRow cfg paged variant batch layer keep row ∪
      selectRow cfg paged' variant' batch layer keep' row) :
    p < batch.len layer.ratio row := by
  rcases Finset.mem_union.mp hp with hp | hp
  · exact selectRow_lt hp
  · exact selectRow_lt hp

/-- **One graph**: whatever routine takes its top-k, it selects the same up to ties. -/
theorem selectRow_eqUpToTies :
    EqUpToTies (layer.scores row) (selectRow cfg paged variant batch layer keep row)
      (selectRow cfg paged' variant batch layer keep row) := by
  have hlt : ∀ p ∈ selectRow cfg paged variant batch layer keep row ∪
      selectRow cfg paged' variant batch layer keep row, p < batch.len layer.ratio row :=
    fun p hp => selectRow_union_lt hp
  obtain ⟨logits, hselect, hlogits⟩ := selectRow_spec cfg variant batch layer keep row
  have hfilter : ∀ (op : TopkOp (Logit F)),
      ∀ p ∈ selectRow cfg op variant batch layer keep row, layer.Consumes → ⊥ < logits p := by
    intro op p hp
    rw [hselect op] at hp
    exact (Finset.mem_filter.mp hp).2
  -- what is selected is not masked, so its logits are the scores
  have hscore : ∀ p ∈ selectRow cfg paged variant batch layer keep row ∪
      selectRow cfg paged' variant batch layer keep row,
      logits p = layer.logits batch row p := by
    intro p hp
    rcases hlogits p (hlt p hp) with h | ⟨hconsumes, hbot⟩
    · exact h
    · have hpos : ⊥ < logits p := by
        rcases Finset.mem_union.mp hp with hp | hp <;> exact hfilter _ p hp hconsumes
      exact absurd hbot hpos.ne'
  have htopk := ((paged.spec logits _ _).eqUpToTies (paged'.spec logits (batch.len layer.ratio row)
    (min cfg.indexTopk (batch.len layer.ratio row)))).filter fun x => layer.Consumes → ⊥ < x
  rw [← hselect, ← hselect] at htopk
  refine htopk.congr fun i hi j hj h => LowRatioLayer.scores_eq (hlt i hi) (hlt j hj) ?_
  rw [← hscore i hi, ← hscore j hj, h]

/-- **All positions**: where there are not more than `index_topk`, none is left out. -/
theorem selectRow_all (hkeep : variant = .candidateFiltered →
      ∀ p, p < batch.len layer.ratio row → keep row p = true)
    (hlen : batch.len layer.ratio row ≤ cfg.indexTopk) :
    selectRow cfg paged variant batch layer keep row =
      Finset.range (batch.len layer.ratio row) := by
  rw [selectRow_eq hkeep, min_eq_right hlen]
  exact (paged.spec _ _ _).toFinset_eq le_rfl

/-- **Two graphs**: where the masks keep every position, they select the same up to ties. -/
theorem selectRow_eqUpToTies_of_keep {variant' : DsaVariant} {keep' : ℕ → ℕ → Bool}
    (hkeep : variant = .candidateFiltered →
      ∀ p, p < batch.len layer.ratio row → keep row p = true)
    (hkeep' : variant' = .candidateFiltered →
      ∀ p, p < batch.len layer.ratio row → keep' row p = true) :
    EqUpToTies (layer.scores row) (selectRow cfg paged variant batch layer keep row)
      (selectRow cfg paged' variant' batch layer keep' row) := by
  have hlt : ∀ p ∈ selectRow cfg paged variant batch layer keep row ∪
      selectRow cfg paged' variant' batch layer keep' row, p < batch.len layer.ratio row :=
    fun p hp => selectRow_union_lt hp
  rw [selectRow_eq hkeep, selectRow_eq hkeep'] at hlt ⊢
  exact ((paged.spec _ _ _).eqUpToTies (paged'.spec _ _ _)).congr
    fun i hi j hj => LowRatioLayer.scores_eq (hlt i hi) (hlt j hj)

/-! ## The masks -/

/-- A mask keeps the positions of all rows, for each ratio that it is wide enough for. -/
def PublishedMask.KeepsReached (batch : DecodeGraphBatch) (mask : PublishedMask) : Prop :=
  ∀ ratio row, (ratio = 1 ∨ ratio = 2) → batch.width ratio ≤ mask.width →
    row < batch.seqLens.length → ∀ p, p < batch.len ratio row → mask.keep row p = true

/-- **Within the span a mask keeps every position**: the published blocks cover each position that a
later layer reads. -/
theorem publishMask_keeps {mask : PublishedMask} (hlow : layer.ratio = 1 ∨ layer.ratio = 2)
    (hspan : ∀ row, row < batch.seqLens.length → batch.seqLen row ≤ cfg.span)
    (hpublish : publishMask cfg blocks variant batch layer keep = some mask) :
    mask.KeepsReached batch := by
  rw [publishMask] at hpublish
  split at hpublish
  next hsource =>
    obtain rfl := Option.some.inj hpublish
    intro ratio row hratio hwidth hrow p hp
    have hp : p < batch.len layer.ratio row :=
      hp.trans_le (DecodeGraphBatch.len_le_of_width_le hratio hlow hrow hwidth)
    obtain ⟨hlen, hpos⟩ := DecodeGraphBatch.len_eq hlow hrow
    have hreach : Reaches (maskRow (fun p => p < batch.len layer.ratio row)
        (layer.logits batch row)) (batch.width layer.ratio) (batch.len layer.ratio row) :=
      reaches_maskRow hpos (DecodeGraphBatch.len_le_width hlow hrow)
        fun p hp => LowRatioLayer.logits_finite hp
    have hbudget : batch.len layer.ratio row ≤ cfg.topkBlocks * cfg.blockSize := by
      rw [hlen]
      exact (Nat.div_le_self _ _).trans (hspan row hrow)
    have hall := selectCandidateBlocks_all blocks hreach cfg.blockSize_pos
      (reachableBlocks_le cfg.blockSize_pos hbudget) hp
    simpa [twoLevelDecodeLogits, hsource] using hall
  next => cases hpublish

/-- Before the first source nothing is read, and after it the masks keep every position. -/
def MasksKeep (batch : DecodeGraphBatch) (layers : List (LowRatioLayer F)) (st : IndexerState) :
    Prop :=
  SourceFirst layers ∨ ∃ mask, st.candidateMasks = some mask ∧ mask.KeepsReached batch

omit [LinearOrder F] in
/-- The mask that the next layer reads therefore keeps every position that a row of the batch
sees. -/
theorem MasksKeep.read {layers : List (LowRatioLayer F)} {st : IndexerState}
    (h : MasksKeep batch (layer :: layers) st) (hlow : layer.ratio = 1 ∨ layer.ratio = 2)
    (hread : readMask .candidateFiltered batch layer st = some keep)
    (hrow : row < batch.seqLens.length) (hp : p < batch.len layer.ratio row) :
    keep row p = true := by
  rw [readMask] at hread
  split at hread
  next hconsumes =>
    obtain ⟨-, huses, hsource⟩ := hconsumes
    rw [Bool.not_eq_true'] at hsource
    rcases h with (h | ⟨h, -⟩) | ⟨mask, hmask, hkeeps⟩
    · rw [hsource] at h; cases h
    · rw [huses] at h; cases h
    · rw [hmask, Option.bind_some] at hread
      split at hread
      next hshape =>
        obtain rfl := Option.some.inj hread
        exact hkeeps _ row hlow hshape.2 hrow p hp
      next => cases hread
  next =>
    obtain rfl := Option.some.inj hread
    rfl

/-- When the layer has published its mask, the masks for the layers after it keep every position,
too. -/
theorem MasksKeep.publish {layers : List (LowRatioLayer F)} {st : IndexerState}
    (h : MasksKeep batch (layer :: layers) st) (hlow : layer.ratio = 1 ∨ layer.ratio = 2)
    (hspan : ∀ row, row < batch.seqLens.length → batch.seqLen row ≤ cfg.span)
    (slots : ℕ → Finset ℕ) :
    MasksKeep batch layers (st.write layer.ratio
      (publishMask cfg blocks .candidateFiltered batch layer keep) slots) := by
  rw [MasksKeep, IndexerState.write_masks]
  cases hpublish : publishMask cfg blocks .candidateFiltered batch layer keep with
  | some mask => exact .inr ⟨mask, rfl, publishMask_keeps hlow hspan hpublish⟩
  | none =>
    have hsource : ¬ layer.isCandidateSource = true := by
      intro hsource
      rw [publishMask, if_pos ⟨rfl, hsource⟩] at hpublish
      cases hpublish
    rcases h with (h | ⟨-, h⟩) | h
    · exact absurd h hsource
    · exact .inl h
    · exact .inr h

/-! ## A forward -/

variable {graphs : IndexerGraphs}

/-- The slots that two runs select for a row are the same, but for positions of equal score. -/
def SameSlots (batch : DecodeGraphBatch) (layer : LowRatioLayer F) (row : ℕ)
    (slots slots' : Finset ℕ) : Prop :=
  ∃ s s' : Finset ℕ, (∀ p ∈ s ∪ s', p < batch.len layer.ratio row) ∧
    EqUpToTies (layer.scores row) s s' ∧
    slots = s.image (poolSlot (batch.pageTable row) batch.pageSize layer.ratio) ∧
    slots' = s'.image (poolSlot (batch.pageTable row) batch.pageSize layer.ratio)

/-- What two runs select is, for each layer and each row of the batch. -/
def SelectionsAgree (batch : DecodeGraphBatch) :
    List (LowRatioLayer F) → List (ℕ → Finset ℕ) → List (ℕ → Finset ℕ) → Prop
  | [], [], [] => True
  | layer :: layers, slots :: rest, slots' :: rest' =>
    (∀ row, row < batch.seqLens.length → SameSlots batch layer row (slots row) (slots' row)) ∧
      SelectionsAgree batch layers rest rest'
  | _, _, _ => False

/-- How the chosen graph's forward follows that of the full filtering, with some layers to
go. -/
structure Follows (graphs : IndexerGraphs) (cfg : CandidateConfig) (batch : DecodeGraphBatch)
    (layers : List (LowRatioLayer F)) (st st' : IndexerState) : Prop where
  /-- the buffers of the skipped ratios are as they were filled -/
  filled : ∀ ratio, graphs.skipLowRatioIndexer (cfg.variant batch) ratio = true → ∀ row,
    st.sparsePageIndices ratio row = graphs.fillAllCompressedIndices (batch.pageTable row)
      (sparseTopkLength (batch.seqLen row) ratio cfg.indexTopk) ratio batch.pageSize
  /-- the full graph reads the same masks -/
  masks : cfg.variant batch = .candidateFiltered → st.candidateMasks = st'.candidateMasks
  /-- for another, the masks of the full filtering keep every position -/
  keeps : cfg.variant batch ≠ .candidateFiltered → MasksKeep batch layers st'

omit [LinearOrder F] in
/-- The two forwards start related: the skipped buffers are filled, and both have the masks that
were left over. -/
theorem Follows.init {layers : List (LowRatioLayer F)} (hfirst : SourceFirst layers)
    (leftover : Option PublishedMask) :
    Follows graphs cfg batch layers (initForward graphs cfg (cfg.variant batch) batch leftover)
      (initForward graphs cfg .candidateFiltered batch leftover) :=
  ⟨fun _ hskip _ => if_pos hskip, fun _ => rfl, fun _ => .inl hfirst⟩

omit [LinearOrder F] in
/-- A selection is written to a buffer that was not filled. -/
theorem Follows.filled_write {layers : List (LowRatioLayer F)} {st st' : IndexerState}
    (h : Follows graphs cfg batch layers st st')
    (hskip : ¬ graphs.skipLowRatioIndexer (cfg.variant batch) layer.ratio = true)
    (published : Option PublishedMask) (slots : ℕ → Finset ℕ) (ratio : ℕ)
    (hratio : graphs.skipLowRatioIndexer (cfg.variant batch) ratio = true) (row : ℕ) :
    (st.write layer.ratio published slots).sparsePageIndices ratio row =
      graphs.fillAllCompressedIndices (batch.pageTable row)
        (sparseTopkLength (batch.seqLen row) ratio cfg.indexTopk) ratio batch.pageSize := by
  have hne : ratio ≠ layer.ratio := by
    rintro rfl
    exact hskip hratio
  rw [IndexerState.write_of_ne hne]
  exact h.filled ratio hratio row

/-- A layer of the full filtering is never skipped, so what it leaves is its published mask and its
written slots. -/
theorem filtered_cases {st next : IndexerState}
    (h : lowRatioIndexTopkDecode graphs cfg blocks paged .candidateFiltered batch layer st =
      some next) :
    ∃ keep, readMask .candidateFiltered batch layer st = some keep ∧ next =
      st.write layer.ratio (publishMask cfg blocks .candidateFiltered batch layer keep)
        (selectSlots cfg paged .candidateFiltered batch layer keep) := by
  rw [lowRatioIndexTopkDecode, if_neg (graphs.not_skip_filtered _)] at h
  obtain ⟨keep, hread, rfl⟩ := Option.map_eq_some_iff.mp h
  exact ⟨keep, hread, rfl⟩

/-- Where a graph does not filter, nothing is read and nothing is published. -/
theorem unfiltered_step (hvariant : variant ≠ .candidateFiltered)
    (hskip : ¬ graphs.skipLowRatioIndexer variant layer.ratio = true) (st : IndexerState) :
    lowRatioIndexTopkDecode graphs cfg blocks paged variant batch layer st =
      some (st.write layer.ratio none
        (selectSlots cfg paged variant batch layer fun _ _ => true)) := by
  rw [lowRatioIndexTopkDecode, if_neg hskip, readMask, if_neg fun h => hvariant h.1,
    Option.map_some, publishMask, if_neg fun h => hvariant h.1]

/-- The slots that a row selects are the pool slots of the positions that it selects, by the page
table. -/
theorem selectSlots_eq (hlow : layer.ratio = 1 ∨ layer.ratio = 2) :
    selectSlots cfg paged variant batch layer keep row =
      (selectRow cfg paged variant batch layer keep row).image
        (poolSlot (batch.pageTable row) batch.pageSize layer.ratio) := by
  rw [selectSlots, indexSlot_eq (DecodeGraphBatch.index_dvd hlow)]

/-- Selections that are the same up to ties have the same slots up to ties. -/
theorem sameSlots_of_selectRow {variant' : DsaVariant} {keep' : ℕ → ℕ → Bool}
    (hlow : layer.ratio = 1 ∨ layer.ratio = 2)
    (h : EqUpToTies (layer.scores row) (selectRow cfg paged variant batch layer keep row)
      (selectRow cfg paged' variant' batch layer keep' row)) :
    SameSlots batch layer row (selectSlots cfg paged variant batch layer keep row)
      (selectSlots cfg paged' variant' batch layer keep' row) := by
  exact ⟨_, _, fun p hp => selectRow_union_lt hp, h, selectSlots_eq hlow, selectSlots_eq hlow⟩

/-- **A layer**: where the full filtering goes on, so does the chosen graph, and the layer
finds the same slots up to ties. -/
theorem Follows.step {layers : List (LowRatioLayer F)} {st st' next' : IndexerState}
    (h : Follows graphs cfg batch (layer :: layers) st st') (hratio : layer.ratio ∈ cfg.ratios)
    (hstep : lowRatioIndexTopkDecode graphs cfg blocks paged' .candidateFiltered batch layer st' =
      some next') :
    ∃ next, lowRatioIndexTopkDecode graphs cfg blocks paged (cfg.variant batch) batch layer st =
        some next ∧ Follows graphs cfg batch layers next next' ∧
      ∀ row, row < batch.seqLens.length →
        SameSlots batch layer row (next.sparsePageIndices layer.ratio row)
          (next'.sparsePageIndices layer.ratio row) := by
  have hlow := cfg.low _ hratio
  obtain ⟨keep', hread', rfl⟩ := filtered_cases hstep
  have hkeeps : cfg.variant batch ≠ .candidateFiltered → MasksKeep batch layers
      (st'.write layer.ratio (publishMask cfg blocks .candidateFiltered batch layer keep')
        (selectSlots cfg paged' .candidateFiltered batch layer keep')) :=
    fun hne => (h.keeps hne).publish hlow
      (fun row hrow => CandidateConfig.seqLen_le_span hne hrow) _
  by_cases hskip : graphs.skipLowRatioIndexer (cfg.variant batch) layer.ratio = true
  · -- the buffer holds all positions, and so does the full filtering's
    have hne : cfg.variant batch ≠ .candidateFiltered :=
      fun hfull => graphs.not_skip_filtered _ (hfull ▸ hskip)
    refine ⟨st, if_pos hskip, ⟨h.filled, fun hfull => absurd hfull hne, hkeeps⟩,
      fun row hrow => ?_⟩
    have hlen := CandidateConfig.len_le_indexTopk graphs hskip hratio hrow
    have hall : selectRow cfg paged' .candidateFiltered batch layer keep' row =
        Finset.range (batch.len layer.ratio row) :=
      selectRow_all (fun _ p hp => (h.keeps hne).read hlow hread' hrow hp) hlen
    rw [IndexerState.write_self, selectSlots_eq hlow, hall, h.filled _ hskip, graphs.fill_eq,
      sparseTopkLength, ← DecodeGraphBatch.len, min_eq_left hlen]
    exact ⟨_, _, fun p hp => Finset.mem_range.mp (by rwa [Finset.union_self] at hp),
      EqUpToTies.rfl, rfl, rfl⟩
  by_cases hfull : cfg.variant batch = .candidateFiltered
  · -- the same graph: it reads the same mask
    have hread : readMask (cfg.variant batch) batch layer st = some keep' := by
      rw [hfull, readMask, h.masks hfull]
      exact hread'
    refine ⟨_, by rw [lowRatioIndexTopkDecode, if_neg hskip, hread, Option.map_some],
      ⟨h.filled_write hskip _ _, fun _ => ?_, hkeeps⟩, fun row hrow => ?_⟩
    · rw [IndexerState.write_masks, IndexerState.write_masks, hfull, h.masks hfull]
    · rw [IndexerState.write_self, IndexerState.write_self, hfull]
      exact sameSlots_of_selectRow hlow selectRow_eqUpToTies
  · -- a graph without masks: those of the full filtering keep every position
    refine ⟨_, unfiltered_step hfull hskip st,
      ⟨h.filled_write hskip _ _, fun h => absurd h hfull, hkeeps⟩, fun row hrow => ?_⟩
    rw [IndexerState.write_self, IndexerState.write_self]
    exact sameSlots_of_selectRow hlow <| selectRow_eqUpToTies_of_keep (fun _ _ _ => rfl)
      fun _ p hp => (h.keeps hfull).read hlow hread' hrow hp

/-- **A forward**, from any layer on: two related states stay related over the layers that are
left. -/
theorem Follows.decodeLayers {layers : List (LowRatioLayer F)} {st st' : IndexerState}
    {slots' : List (ℕ → Finset ℕ)} (h : Follows graphs cfg batch layers st st')
    (hratio : ∀ layer ∈ layers, layer.ratio ∈ cfg.ratios)
    (hrun : decodeLayers graphs cfg blocks paged' .candidateFiltered batch layers st' =
      some slots') :
    ∃ slots, decodeLayers graphs cfg blocks paged (cfg.variant batch) batch layers st =
      some slots ∧ SelectionsAgree batch layers slots slots' := by
  induction layers generalizing st st' slots' with
  | nil =>
    obtain rfl := Option.some.inj hrun
    exact ⟨[], rfl, trivial⟩
  | cons layer layers ih =>
    obtain ⟨next', hstep', hrun⟩ := Option.bind_eq_some_iff.mp hrun
    obtain ⟨rest', hrest', rfl⟩ := Option.map_eq_some_iff.mp hrun
    obtain ⟨next, hstep, hnext, hsame⟩ := h.step (hratio layer List.mem_cons_self) hstep'
    obtain ⟨rest, hrest, hagree⟩ :=
      ih hnext (fun l hl => hratio l (List.mem_cons_of_mem _ hl)) hrest'
    refine ⟨next.sparsePageIndices layer.ratio :: rest, ?_, hsame, hagree⟩
    rw [LuzServing.decodeLayers, hstep, Option.bind_some, hrest, Option.map_some]

/-- Before the first source nothing is read, and after it there is a mask that is wide enough
for the layers to come. -/
def MasksServe (batch : DecodeGraphBatch) (layers : List (LowRatioLayer F)) (st : IndexerState) :
    Prop :=
  SourceFirst layers ∨ ∃ mask, st.candidateMasks = some mask ∧
    mask.rows = batch.seqLens.length ∧ ∀ layer ∈ layers, batch.width layer.ratio ≤ mask.width

omit [LinearOrder F] in
/-- The next layer finds a mask of its row width, so the assertion of a consumer does not fail. -/
theorem MasksServe.read {layers : List (LowRatioLayer F)} {st : IndexerState}
    (h : MasksServe batch (layer :: layers) st) :
    ∃ keep, readMask .candidateFiltered batch layer st = some keep := by
  rw [readMask]
  split
  next hconsumes =>
    obtain ⟨-, huses, hsource⟩ := hconsumes
    rw [Bool.not_eq_true'] at hsource
    rcases h with (h | ⟨h, -⟩) | ⟨mask, hmask, hrows, hwidth⟩
    · rw [hsource] at h; cases h
    · rw [huses] at h; cases h
    · rw [hmask, Option.bind_some, if_pos ⟨hrows, hwidth layer List.mem_cons_self⟩]
      exact ⟨_, rfl⟩
  next => exact ⟨_, rfl⟩

/-- It stays so when no source is of a higher ratio than another layer. -/
theorem MasksServe.publish {layers : List (LowRatioLayer F)} {st : IndexerState}
    (h : MasksServe batch (layer :: layers) st) (hpos : 0 < layer.ratio)
    (hleast : layer.isCandidateSource = true → ∀ l ∈ layers, layer.ratio ≤ l.ratio)
    (slots : ℕ → Finset ℕ) :
    MasksServe batch layers (st.write layer.ratio
      (publishMask cfg blocks .candidateFiltered batch layer keep) slots) := by
  rw [MasksServe, IndexerState.write_masks, publishMask]
  by_cases hsource : layer.isCandidateSource = true
  · rw [if_pos ⟨rfl, hsource⟩]
    refine .inr ⟨_, rfl, rfl, fun l hl => Nat.mul_le_mul_left _ ?_⟩
    exact Nat.div_le_div_left (hleast hsource l hl) hpos
  · rw [if_neg fun h => hsource h.2, Option.none_or]
    rcases h with (h | ⟨-, h⟩) | ⟨mask, hmask, hrows, hwidth⟩
    · exact absurd h hsource
    · exact .inl h
    · exact .inr ⟨mask, hmask, hrows, fun l hl => hwidth l (List.mem_cons_of_mem _ hl)⟩

/-- **The full filtering goes through** from any layer on, when the masks serve the layers that are
left. -/
theorem MasksServe.decodeLayers {layers : List (LowRatioLayer F)} {st : IndexerState}
    (h : MasksServe batch layers st) (hpos : ∀ layer ∈ layers, 0 < layer.ratio)
    (hleast : ∀ source ∈ layers, source.isCandidateSource = true →
      ∀ layer ∈ layers, source.ratio ≤ layer.ratio) :
    ∃ slots, decodeLayers graphs cfg blocks paged .candidateFiltered batch layers st =
      some slots := by
  induction layers generalizing st with
  | nil => exact ⟨[], rfl⟩
  | cons layer layers ih =>
    obtain ⟨keep, hread⟩ := h.read
    have hnext : MasksServe batch layers (st.write layer.ratio
        (publishMask cfg blocks .candidateFiltered batch layer keep)
        (selectSlots cfg paged .candidateFiltered batch layer keep)) :=
      h.publish (hpos layer List.mem_cons_self) (fun hsource l hl =>
        hleast layer List.mem_cons_self hsource l (List.mem_cons_of_mem _ hl)) _
    obtain ⟨rest, hrest⟩ := ih hnext (fun l hl => hpos l (List.mem_cons_of_mem _ hl))
      fun s hs h l hl => hleast s (List.mem_cons_of_mem _ hs) h l (List.mem_cons_of_mem _ hl)
    refine ⟨selectSlots cfg paged .candidateFiltered batch layer keep :: rest, ?_⟩
    rw [LuzServing.decodeLayers, lowRatioIndexTopkDecode, if_neg (graphs.not_skip_filtered _),
      hread, Option.map_some, Option.bind_some, hrest, Option.map_some, IndexerState.write_self]

/-- **The decode graphs**. Whatever a batch's requests and scores, and whatever the forward
before it left: where the full filtering goes through, so does the graph that is chosen for
the longest request, and every layer of low ratio finds for every row the slots that the full
filtering selects, up to positions of equal score. -/
theorem decodeRun_agree (graphs : IndexerGraphs) (cfg : CandidateConfig)
    (batch : DecodeGraphBatch) (model : LowRatioLayers cfg F)
    (blocks paged paged' : TopkOp (Logit F)) (leftover : Option PublishedMask)
    (slots' : List (ℕ → Finset ℕ))
    (hrun : decodeRun graphs cfg blocks paged' .candidateFiltered batch leftover model.layers =
      some slots') :
    ∃ slots, decodeRun graphs cfg blocks paged (cfg.variant batch) batch leftover model.layers =
      some slots ∧ SelectionsAgree batch model.layers slots slots' :=
  (Follows.init model.sourceFirst leftover).decodeLayers model.ratio_mem hrun

end

/-! ## A batch of two requests -/

/-- Functions as the code elsewhere has them. -/
def someGraphs : IndexerGraphs where
  skipLowRatioIndexer variant ratio :=
    variant = .candidateAll || variant = .candidateC2All && ratio = 2
  skip_iff variant ratio := by simp
  fillAllCompressedIndices pageTable length ratio pageSize :=
    (Finset.range length).image (poolSlot pageTable pageSize ratio)
  fill_eq _ _ _ _ := rfl

/-- The ratios of the example's layers are 1 and 2, the two ratios that have an indexer. -/
theorem low_one_two : ∀ ratio ∈ [1, 2], ratio = 1 ∨ ratio = 2 := by decide

/-- Two positions are selected, from one block. -/
def someConfig : CandidateConfig where
  indexTopk := 2
  indexTopk_pos := Nat.two_pos
  ratios := [1, 2]
  ratios_ne := List.cons_ne_nil _ _
  low := low_one_two
  topkBlocks := 1
  topkBlocks_pos := Nat.one_pos
  blockSize := 128
  blockSize_pos := Nat.succ_pos _

/-- Requests of three and of four tokens, a page each. -/
def someBatch : DecodeGraphBatch where
  seqLens := [3, 4]
  two_le := by decide
  pageSize := 128
  whole := by decide
  numPages := 1
  fits := by decide
  pageTable row _ := row

/-- A source, a consumer and a layer that is neither. -/
def someLayers : LowRatioLayers someConfig ℤ where
  layers := [⟨1, true, true, fun _ p => p, fun _ _ => ⊤⟩,
    ⟨2, false, true, fun _ p => p, fun _ _ => ⊤⟩, ⟨1, false, false, fun _ p => p, fun _ _ => ⊤⟩]
  ratio_mem := by decide
  sourceFirst := .inl rfl

/-- Their batch skips the indexer of ratio 2, and selects what the full filtering does. -/
theorem decodeRun_agree_some : someConfig.variant someBatch = .candidateC2All ∧
    ∃ slots slots', decodeRun someGraphs someConfig (sortTopk _) (sortTopk _) .candidateC2All
        someBatch none someLayers.layers = some slots ∧
      SelectionsAgree someBatch someLayers.layers slots slots' := by
  have hvariant : someConfig.variant someBatch = .candidateC2All := by decide
  have hserve : MasksServe someBatch someLayers.layers
      (initForward someGraphs someConfig .candidateFiltered someBatch none) :=
    .inl someLayers.sourceFirst
  obtain ⟨slots', hrun⟩ : ∃ slots', decodeRun someGraphs someConfig (sortTopk _) (sortTopk _)
      .candidateFiltered someBatch none someLayers.layers = some slots' :=
    hserve.decodeLayers (by decide) (by decide)
  obtain ⟨slots, hslots, hagree⟩ := decodeRun_agree someGraphs someConfig someBatch someLayers
    (sortTopk _) (sortTopk _) (sortTopk _) none slots' hrun
  exact ⟨hvariant, slots, slots', hvariant ▸ hslots, hagree⟩

end LuzServing

import LuzServing.CandidateBlocks
import LuzServing.CandidateMaskRows

/-!
# The dense indexer

`_low_ratio_index_topk_dense` picks the compressed positions that each query row attends to.
The keys of all requests lie in one table, request after request, and the query rows too; the
rows of a request are scored in chunks whose logits fit a byte budget. A layer that is the
candidate source publishes masks of its last rows, a consumer is filtered by such masks.

The budget decides nothing but the chunks: the rows come out the same as with one chunk for
each request, and each holds positions of its own request that the row sees, ascending
(`index_topk_dense`). The kernels for logits and top-k are parameters, and so is what
uninitialized memory holds.
-/

namespace LuzServing

/-! ## What it works on -/

/-- The query rows of a batch, `qLens r` for each request. -/
structure DenseBatch : Type where
  /-- the number of requests -/
  bs : ℕ
  /-- `seq_lens_cpu` -/
  seqLens : ℕ → ℕ
  /-- `q_lens_cpu` -/
  qLens : ℕ → ℕ
  /-- `pos` -/
  pos : ℕ → ℕ
  /-- `req_to_token[req_pool_indices[r]]` -/
  reqToToken : ℕ → ℕ → ℕ
  /-- a row is at a position of its request -/
  pos_lt : ∀ r j, r < bs → j < qLens r → pos (segStart qLens r + j) < seqLens r

/-- A layer's indexer, and the kernels that it calls. -/
structure DenseLayer (S : Type*) [LinearOrder S] : Type _ where
  /-- the ratio and the budget -/
  cfg : IndexerConfig
  /-- `index_topk` -/
  indexTopk : ℕ
  /-- `candidate_topk_blocks` -/
  topkBlocks : ℕ
  /-- `candidate_block_size` -/
  blockSize : ℕ
  /-- `torch.topk` -/
  topk : TopkOp S
  /-- `topk_transform_ragged_v2` on a row, without the offsets -/
  ragged : RaggedTopk S
  /-- the logit of a query row with the key in a slot -/
  score : ℕ → ℕ → S

/-- The candidate masks of a request: a row of bits for each of its last query rows. -/
structure BlockMask : Type where
  /-- the rows -/
  rows : List (ℕ → Bool)
  /-- the number of their columns -/
  cols : ℕ

/-- What a layer does with candidates. -/
inductive CandidateRole : Type where
  /-- it publishes masks, of all rows or of a number for each request -/
  | source (publishRowsPerReq : Option (ℕ → ℕ))
  /-- it is filtered by masks -/
  | consumer (masks : List BlockMask)
  /-- neither -/
  | neither

/-- `publish`, and how many rows it is of. -/
def CandidateRole.publish : CandidateRole → Option (Option (ℕ → ℕ))
  | .source publishRowsPerReq => some publishRowsPerReq
  | .consumer _ => none
  | .neither => none

/-- What uninitialized memory holds. -/
structure Leftovers (S : Type*) : Type _ where
  /-- the logits of the chunk that begins at a row, past what the kernel writes -/
  logits : ℕ → ℕ → ℕ → S
  /-- a mask -/
  mask : ℕ → ℕ → Bool
  /-- the rows of `selected` -/
  selected : ℕ → List ℤ

/-- What the indexer writes: its index tables and its masks. -/
structure DenseOut : Type where
  /-- `page_indices` -/
  pageIndices : ℕ → ℕ → ℤ
  /-- `raw_indices` -/
  rawIndices : ℕ → ℕ → ℤ
  /-- the `candidate_masks` that it publishes -/
  masks : Option (List BlockMask)

/-! ## The indexer -/

section

variable {S : Type*} [LinearOrder S] [BoundedOrder S] (l : DenseLayer S) (d : DenseBatch)

/-- `lc_per_req` -/
def DenseBatch.lc (ratio r : ℕ) : ℕ := d.seqLens r / ratio

/-- `num_tokens` -/
def DenseBatch.numTokens : ℕ := segStart d.qLens d.bs

/-- The slot of a request's compressed position. -/
def DenseBatch.slot (ratio r j : ℕ) : ℕ := d.reqToToken r (j * ratio) / ratio

/-- `k_slots` -/
def DenseBatch.kSlots (ratio : ℕ) : List ℕ :=
  (List.range d.bs).flatMap fun r => (List.range (d.lc ratio r)).map (d.slot ratio r)

/-- `ks`: where the keys of a row's request begin. -/
def DenseBatch.ks (ratio i : ℕ) : ℕ :=
  segStart (d.lc ratio) ((segRows d.qLens d.bs).getD i 0)

/-- `compress_lens` -/
def DenseBatch.compressLens (ratio i : ℕ) : ℕ := (d.pos i + 1) / ratio

/-- `_dense_fp4_mqa_logits`: a row's logits with the keys from `ks` to `ks + lens`; the rest of
the buffer is left over. -/
def denseLogits (leftover : ℕ → ℕ → S) (i j : ℕ) : S :=
  if j < d.compressLens l.cfg.ratio i then
    l.score i ((d.kSlots l.cfg.ratio).getD (d.ks l.cfg.ratio i + j) 0)
  else leftover i j

/-- `logits[:, :lc].masked_fill_(drop, -inf)` on a row. -/
def fillColumns (lc : ℕ) (drop : ℕ → Bool) (logits : ℕ → S) (j : ℕ) : S :=
  if j < lc ∧ drop j = true then ⊥ else logits j

/-- `topk_transform_ragged_v2`: the row of `selected`. -/
def raggedRow (logits : ℕ → S) (i : ℕ) : List ℤ :=
  (l.ragged.run logits (d.compressLens l.cfg.ratio i) l.indexTopk).map fun entry =>
    entry.elim (-1) fun c => ((d.ks l.cfg.ratio i + c : ℕ) : ℤ)

/-- `_mask_topk_scores`, with offsets: entries whose score is `-inf` become padding. -/
def maskTopkRow (width : ℕ) (scores : ℕ → S) (offset : ℕ) (indices : List ℤ) : List ℤ :=
  indices.map fun index : ℤ =>
    let column : ℤ := index - offset
    if 0 ≤ column ∧ column < width ∧ ⊥ < scores (min column.toNat (width - 1)) then index else -1

/-- `scores.masked_fill_(~consume[b][c0:c1], -inf)`: the row at an offset of the chunk. The
mask's shape is that of the scores, or is broadcast. -/
def fillMask (mask : BlockMask) (c0 c1 lc : ℕ) (logits : ℕ → ℕ → S) :
    Except String (ℕ → ℕ → S) :=
  let part := slice mask.rows c0 c1
  if (part.length = c1 - c0 ∨ part.length = 1) ∧ (mask.cols = lc ∨ mask.cols = 1) then
    .ok fun k =>
      let bits := part.getD (if part.length = 1 then 0 else k) fun _ => false
      fillColumns lc (fun j => !bits (if mask.cols = 1 then 0 else j)) (logits k)
  else .error "the mask does not have the shape of the scores"

variable (role : CandidateRole)

/-- A chunk: the rows of `selected` that it writes. -/
def denseChunk (leftover : ℕ → ℕ → ℕ → S) (r c0 c1 : ℕ) : Except String (List (ℕ × List ℤ)) :=
  let lc := d.lc l.cfg.ratio r
  let row := fun k => segStart d.qLens r + (c0 + k)
  let logits := fun k => denseLogits l d (leftover (row 0)) (row k)
  match role with
  | .source _ =>
    let reached := fun k =>
      fillColumns lc (fun j => decide (d.compressLens l.cfg.ratio (row k) ≤ j)) (logits k)
    .ok <| (List.range (c1 - c0)).map fun k => (row k, raggedRow l d (reached k) (row k))
  | .consumer masks =>
    match masks[r]? with
    | none => .error "list index out of range"
    | some mask =>
      (fillMask mask c0 c1 lc logits).map fun filtered =>
        (List.range (c1 - c0)).map fun k =>
          (row k, maskTopkRow ((lc + 3) / 4 * 4) (filtered k) (d.ks l.cfg.ratio (row k))
            (raggedRow l d (filtered k) (row k)))
  | .neither =>
    .ok <| (List.range (c1 - c0)).map fun k => (row k, raggedRow l d (logits k) (row k))

/-- A request: its rows, `step` at a time. -/
def denseRequest (leftover : ℕ → ℕ → ℕ → S) (step r : ℕ) : Except String (List (ℕ × List ℤ)) :=
  let tLen := d.qLens r
  if d.lc l.cfg.ratio r = 0 ∨ tLen = 0 then
    .ok <| (List.range tLen).map fun j =>
      (segStart d.qLens r + j, List.replicate l.indexTopk (-1))
  else
    collect <| (chunkStarts tLen step).map fun c0 =>
      denseChunk l d role leftover r c0 (min (c0 + step) tLen)

/-- `mask_b`: the mask of a request's last `pubRows` rows, of which each chunk writes its
part. -/
def densePublishMask (mem : Leftovers S) (step r pubRows : ℕ) : BlockMask :=
  let tLen := d.qLens r
  let lc := d.lc l.cfg.ratio r
  let firstPub := tLen - pubRows
  let writes := (chunkStarts tLen step).flatMap fun c0 =>
    let c1 := min (c0 + step) tLen
    let p0 := max c0 firstPub
    (List.range (c1 - p0)).map fun k =>
      let i := segStart d.qLens r + (p0 + k)
      let lens := d.compressLens l.cfg.ratio i
      let scores := fillColumns lc (fun j => decide (lens ≤ j))
        (denseLogits l d (mem.logits (segStart d.qLens r + c0)) i)
      (p0 - firstPub + k, selectCandidateBlocks l.topk scores lc lens l.topkBlocks l.blockSize)
  ⟨(List.range pubRows).map (storeAll mem.mask writes), lc⟩

/-- The masks that the source publishes, one for each request. -/
def densePublishMasks (rowsPerChunk : ℕ → ℕ → ℕ) (mem : Leftovers S)
    (publishRowsPerReq : Option (ℕ → ℕ)) : List BlockMask :=
  (List.range d.bs).map fun r =>
    let lc := d.lc l.cfg.ratio r
    let tLen := d.qLens r
    if lc = 0 ∨ tLen = 0 then ⟨[], 0⟩
    else
      let pubRows := publishRowsPerReq.elim tLen fun rows => min (rows r) tLen
      densePublishMask l d mem (rowsPerChunk lc tLen) r pubRows

/-- An entry of `page_indices`. -/
def pageEntry (kSlots : List ℕ) : WithTop ℤ → ℤ
  | ⊤ => -1
  | some index => (kSlots.getD (min index.toNat (kSlots.length - 1)) 0 : ℕ)

/-- An entry of `raw_indices`. -/
def rawEntry (ks : ℕ) : WithTop ℤ → ℤ
  | ⊤ => -1
  | some index => index - ks

/-- `_low_ratio_index_topk_dense`, with so many rows in a chunk of a request that has `lc`
positions and so many rows. -/
def lowRatioIndexTopkDense (rowsPerChunk : ℕ → ℕ → ℕ) (mem : Leftovers S) :
    Except String DenseOut :=
  let ratio := l.cfg.ratio
  if (List.range d.bs).all (fun r => d.lc ratio r == 0) || d.numTokens == 0 then
    .ok ⟨fun _ _ => -1, fun _ _ => -1, role.publish.map fun _ => List.replicate d.bs ⟨[], 0⟩⟩
  else do
    let writes ← collect <| (List.range d.bs).map fun r =>
      denseRequest l d role mem.logits (rowsPerChunk (d.lc ratio r) (d.qLens r)) r
    let selected := fun i => layOut (storeAll mem.selected writes i)
    pure
      { pageIndices := fun i k =>
          if i < d.numTokens then ((selected i).map (pageEntry (d.kSlots ratio))).getD k (-1)
          else -1
        rawIndices := fun i k =>
          if i < d.numTokens then ((selected i).map (rawEntry (d.ks ratio i))).getD k (-1)
          else -1
        masks := role.publish.map (densePublishMasks l d rowsPerChunk mem) }

end

end LuzServing

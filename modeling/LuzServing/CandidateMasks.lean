import LuzServing.LateLayerRows
import Mathlib.Data.List.Destutter

/-!
# Candidate masks

One index layer, the candidate source, computes for each query row which compressed
positions the index layers after it may choose from. It leaves a mask for each request in a
list, `candidate_masks`, and an index layer that uses candidates takes the masks out of the
list by their place in it. In between the late layers may have switched to the tail, which
cuts every mask to the rows that are left.

This file is the code of the source and of its consumers, in both extend indexers: the dense
one goes through the requests of the batch, the torch one through the request ids that its
rows have. A mask row is named by the query row it was computed for, the request's place in
the batch and the position.
-/

namespace LuzServing

/-! ## Masks -/

/-- The candidate mask of a request: its rows, of which uninitialized ones are `none`, and
the number of its columns. -/
structure CandidateMask : Type where
  /-- the query rows that the mask rows were computed for -/
  rows : List (Option (ℕ × ℕ))
  /-- the compressed positions -/
  cols : ℕ

/-- `zeros(0, 0)`. -/
def emptyMask : CandidateMask := ⟨[], 0⟩

/-- A consumer's row is filtered by a mask row. -/
structure RowFilter : Type where
  /-- the consumer's row -/
  row : ℕ
  /-- the mask row -/
  maskRow : Option (ℕ × ℕ)
  /-- the columns of the mask -/
  cols : ℕ

/-- Run parts that may raise, and put together what they yield. -/
def collect {α : Type*} : List (Except String (List α)) → Except String (List α)
  | [] => .ok []
  | part :: parts => do
    let first ← part
    let rest ← collect parts
    pure (first ++ rest)

/-- `xs[lo:hi]`. -/
def slice {α : Type*} (xs : List α) (lo hi : ℕ) : List α := (xs.take hi).drop lo

/-- `scores.masked_fill_(~mask[lo:hi], -inf)` for the scores of the rows `tok` at `lc`
positions: the shapes are the same, or the mask's is broadcast. -/
def maskedFill (mask : CandidateMask) (lo hi : ℕ) (tok : List ℕ) (lc : ℕ) :
    Except String (List RowFilter) :=
  let part := slice mask.rows lo hi
  if (part.length = tok.length ∨ part.length = 1) ∧ (mask.cols = lc ∨ mask.cols = 1) then
    .ok <| (List.range tok.length).map fun k =>
      ⟨tok.getD k 0, part.getD (if part.length = 1 then 0 else k) none, mask.cols⟩
  else .error "the mask does not have the shape of the scores"

/-! ## What an index layer works on -/

/-- The budgets of the indexers and the ratio of the index layers. -/
structure IndexerConfig : Type where
  /-- `compress_ratio` -/
  ratio : ℕ
  /-- it is a ratio -/
  ratio_pos : 0 < ratio
  /-- `_DENSE_INDEXER_LOGITS_BUDGET_BYTES` -/
  denseBudget : ℕ
  /-- `_TORCH_INDEXER_SCORE_BUDGET_BYTES` -/
  torchBudget : ℕ
  /-- the number of index heads -/
  heads : ℕ

/-- The rows that an index layer runs over. -/
structure IndexView : Type where
  /-- the number of rows -/
  numTokens : ℕ
  /-- the request of each row, by its place in the batch, and its position -/
  id : ℕ → ℕ × ℕ
  /-- `q_lens_cpu`: how many of the rows the dense indexer takes to be each request's -/
  qLens : ℕ → ℕ

/-- The rows before the switch to the tail. -/
def fullView (b : ExtendBatch) : IndexView where
  numTokens := b.numRows
  id i := (b.row i, b.position i)
  qLens := b.extendLens

/-- The rows that a layer after the switch works on: those of the tail. -/
def tailView (b : ExtendBatch) (t : LateLayerTail) : IndexView where
  numTokens := (t.rows (List.range b.numRows)).length
  id i :=
    let row := (t.rows (List.range b.numRows)).getD i 0
    (b.row row, b.position row)
  qLens := t.fullBatchTailLens.getD t.extendSeqLens

/-! ## The dense indexer -/

section

variable (cfg : IndexerConfig) (b : ExtendBatch) (v : IndexView)

/-- `lc_per_req`: the compressed positions that the newest token of a request sees. -/
def lcPerReq (r : ℕ) : ℕ := b.seqLens r / cfg.ratio

/-- `rows_per_chunk` of the dense indexer: `lc` is aligned to four logits of four bytes. -/
def denseStep (lc : ℕ) : ℕ := max 1 (cfg.denseBudget / ((lc + 3) / 4 * 4 * 4))

/-- Nobody sees a compressed position, or there are no rows. -/
def denseNothing : Bool :=
  (List.range b.bs).all (fun r => lcPerReq cfg b r == 0) || v.numTokens == 0

/-- `publish_rows_per_req`: where every request has tail rows, only these are published. -/
def publishRowsPerReq (tail : Option LateLayerTail) : Option (ℕ → ℕ) :=
  match tail with
  | some t => if t.numReqs = b.bs then some t.extendSeqLens else none
  | none => none

/-- The mask of a request: `pubRows` rows, of which each chunk of the rows writes its part. -/
def densePublishReq (tokStart tLen lc pubRows : ℕ) : CandidateMask :=
  let firstPub := tLen - pubRows
  let step := denseStep cfg lc
  let writes := (chunkStarts tLen step).flatMap fun c0 =>
    let c1 := min (c0 + step) tLen
    let p0 := max c0 firstPub
    (List.range (c1 - p0)).map fun k => (p0 - firstPub + k, some (v.id (tokStart + p0 + k)))
  ⟨(List.range pubRows).map (storeAll (fun _ => none) writes), lc⟩

/-- `_low_ratio_index_topk_dense` at the candidate source: the masks it publishes. -/
def densePublish (tail : Option LateLayerTail) : List CandidateMask :=
  if denseNothing cfg b v then List.replicate b.bs emptyMask
  else
    (List.range b.bs).map fun r =>
      let lc := lcPerReq cfg b r
      let tLen := v.qLens r
      if lc = 0 ∨ tLen = 0 then emptyMask
      else
        let pubRows := (publishRowsPerReq b tail).elim tLen fun rows => min (rows r) tLen
        densePublishReq cfg v (segStart v.qLens r) tLen lc pubRows

/-- A request's rows, chunk by chunk, are filtered by its mask. -/
def denseConsumeReq (mask : CandidateMask) (tokStart tLen lc : ℕ) :
    Except String (List RowFilter) :=
  let step := denseStep cfg lc
  collect <| (chunkStarts tLen step).map fun c0 =>
    let c1 := min (c0 + step) tLen
    maskedFill mask c0 c1 ((List.range (c1 - c0)).map (tokStart + c0 + ·)) lc

/-- `_low_ratio_index_topk_dense` at a consumer: what its rows are filtered by. -/
def denseConsume (masks : List CandidateMask) : Except String (List RowFilter) :=
  if denseNothing cfg b v then .ok []
  else
    collect <| (List.range b.bs).map fun r =>
      let lc := lcPerReq cfg b r
      let tLen := v.qLens r
      if lc = 0 ∨ tLen = 0 then .ok []
      else
        match masks[r]? with
        | some mask => denseConsumeReq cfg mask (segStart v.qLens r) tLen lc
        | none => .error "list index out of range"

/-! ## The torch indexer -/

/-- `unique_consecutive(req)`: the request ids of the rows. -/
def torchReqs : List ℕ :=
  ((List.range v.numTokens).map fun i => b.reqs (v.id i).1).destutter (· ≠ ·)

/-- `tok`: the rows of a request. -/
def torchTok (req : ℕ) : List ℕ :=
  (List.range v.numTokens).filter fun i => b.reqs (v.id i).1 = req

/-- `lens.max()`: the compressed positions that the newest of the rows sees. -/
def torchLc (tok : List ℕ) : ℕ := (tok.map fun i => ((v.id i).2 + 1) / cfg.ratio).foldr max 0

/-- `rows_per_chunk` of the torch indexer. -/
def torchStep (lc : ℕ) : ℕ := max 1 (cfg.torchBudget / (cfg.heads * lc * 2))

/-- `_low_ratio_index_topk_torch` at the candidate source: the masks it publishes. -/
def torchPublish : List CandidateMask :=
  (torchReqs b v).map fun req =>
    let tok := torchTok b v req
    let lc := torchLc cfg v tok
    if lc = 0 then emptyMask
    else
      let step := torchStep cfg lc
      ⟨(chunkStarts tok.length step).flatMap fun start =>
        (slice tok start (start + step)).map fun i => some (v.id i), lc⟩

/-- `_low_ratio_index_topk_torch` at a consumer: what its rows are filtered by. -/
def torchConsume (masks : List CandidateMask) : Except String (List RowFilter) :=
  collect <| (List.range (torchReqs b v).length).map fun k =>
    let tok := torchTok b v ((torchReqs b v).getD k 0)
    let lc := torchLc cfg v tok
    if lc = 0 then .ok []
    else
      match masks[k]? with
      | some mask =>
        let step := torchStep cfg lc
        collect <| (chunkStarts tok.length step).map fun start =>
          maskedFill mask start (start + step) (slice tok start (start + step)) lc
      | none => .error "list index out of range"

end

/-! ## The layers -/

/-- The extend indexer of a forward. -/
inductive IndexerPath : Type where
  /-- `_low_ratio_index_topk_dense` -/
  | dense
  /-- `_low_ratio_index_topk_torch` -/
  | torch

/-- The index layers of a model. -/
structure IndexModel : Type extends LateLayerModel where
  /-- the layer that is the candidate source -/
  source : ℕ
  /-- the layers that use candidates -/
  usesCandidates : ℕ → Bool
  /-- they are after the source -/
  source_lt : ∀ i, usesCandidates i = true → source < i

section

variable (path : IndexerPath) (cfg : IndexerConfig) (b : ExtendBatch)

/-- The masks that the candidate source publishes. -/
def publish (tail : Option LateLayerTail) (v : IndexView) : List CandidateMask :=
  match path with
  | .dense => densePublish cfg b v tail
  | .torch => torchPublish cfg b v

/-- What the rows of a consumer are filtered by. -/
def consume (v : IndexView) (masks : List CandidateMask) : Except String (List RowFilter) :=
  match path with
  | .dense => denseConsume cfg b v masks
  | .torch => torchConsume cfg b v masks

/-- `mask[mask.shape[0] - t:]`; a start below zero counts from the end. -/
def cutMask (mask : CandidateMask) (t : ℕ) : CandidateMask :=
  let n := mask.rows.length
  ⟨mask.rows.drop (if t ≤ n then n - t else 2 * n - t), mask.cols⟩

/-- `enter_late_layer_tail`: the masks are cut to the tail rows. -/
def enterLateLayerTail (t : LateLayerTail) (masks : List CandidateMask) : List CandidateMask :=
  let tailLens :=
    match t.fullBatchTailLens with
    | some lens => (List.range b.bs).map lens
    | none => (List.range t.numReqs).map t.extendSeqLens
  List.zipWith cutMask masks tailLens

/-- The index layers of the loop over the layers. Yields what the rows of each consumer are
filtered by. -/
def runIndexLayers (m : IndexModel) (tail : Option LateLayerTail) (skipLateLayers : Bool) :
    List ℕ → IndexView → List CandidateMask → Except String (List (ℕ × List RowFilter))
  | [], _, _ => .ok []
  | i :: layers, v, masks =>
    if skipLateLayers && decide (m.lateLayerStart ≤ i) then .ok []
    else
      let (v, masks) :=
        if i = m.lateLayerStart then
          match tail with
          | some t => (tailView b t, enterLateLayerTail b t masks)
          | none => (v, masks)
        else (v, masks)
      if i = m.source then
        runIndexLayers m tail skipLateLayers layers v (publish path cfg b tail v)
      else if m.usesCandidates i then do
        let filters ← consume path cfg b v masks
        let rest ← runIndexLayers m tail skipLateLayers layers v masks
        pure ((i, filters) :: rest)
      else runIndexLayers m tail skipLateLayers layers v masks

/-- The index layers of an extend forward, from whatever masks are left over. -/
def runIndexers (layout : TailLayout) (m : IndexModel) (skipNonfinal : Bool)
    (masks : List CandidateMask) : Except String (List (ℕ × List RowFilter)) :=
  let (tail, skipLateLayers) := initForwardMetadata layout b skipNonfinal
  runIndexLayers path cfg b m tail skipLateLayers (List.range m.numLayers) (fullView b) masks

end

end LuzServing

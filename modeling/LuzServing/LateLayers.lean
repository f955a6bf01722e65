import LuzServing.RequestWindow

/-!
# The late-layer tail

With bounded decoder replay the layers after the last kv-source layer owe a prompt only
their window K, and run over the last 128 rows of each request of an extend: the tail. The
non-final-chunk switch drops more: the scheduler marks the requests whose chunk finishes
them, only these have tail rows, and where there are none the late layers do not run.

This file is the code, from the scheduler's marks (`lastChunkEntry`) over the tail
(`buildLateLayerTail`) and the decision to skip (`initForwardMetadata`) to the loop over
the layers (`runLayers`). `late_layer_tail_layout` is a kernel of the engine that is not
part of the repository: a parameter, of which `IsTailLayout` says what it is for.
-/

namespace LuzServing

/-! ## The batch -/

/-- The scheduler's mark of a request: its chunk ends at `chunkEnd`, its whole fill has
`fill` tokens. Where logprobs of the chunk are asked for it is marked as well. -/
def lastChunkEntry (chunkEnd fill : ℕ) (returnLogprob : Bool) (logprobStart extendLen : ℕ) :
    Bool :=
  decide (fill ≤ chunkEnd) || (returnLogprob && decide (logprobStart < extendLen))

/-- The part of an extend's `ForwardBatch` that decides about the late layers. -/
structure ExtendBatch : Type where
  /-- the number of requests -/
  bs : ℕ
  /-- `req_pool_indices`: the requests -/
  reqs : ℕ → ℕ
  /-- `extend_seq_lens_cpu` -/
  extendLens : ℕ → ℕ
  /-- `seq_lens_cpu` -/
  seqLens : ℕ → ℕ
  /-- `extend_last_chunk_mask` -/
  lastChunkMask : Option (List Bool)
  /-- `return_logprob` -/
  returnLogprob : Bool
  /-- `extend_logprob_start_lens_cpu` -/
  logprobStartLens : ℕ → ℕ
  /-- all hidden states are captured, and not for the draft -/
  captureFull : Bool

namespace ExtendBatch

variable (b : ExtendBatch)

/-- The number of the rows of the batch, over all its requests. -/
def numRows : ℕ := segStart b.extendLens b.bs

/-- The request of a row, by its place in the batch. -/
def row (i : ℕ) : ℕ := (segRows b.extendLens b.bs).getD i 0

/-- `positions`: a request's rows are its last ones. -/
def position (i : ℕ) : ℕ :=
  b.seqLens (b.row i) - b.extendLens (b.row i) + (i - segStart b.extendLens (b.row i))

/-- The cache row that a row's K is written to. It is the request's and position's own. -/
def cacheRow (i : ℕ) : ℕ × ℕ := (b.reqs (b.row i), b.position i)

end ExtendBatch

/-! ## The tail -/

/-- `late_layer_tail_layout`: for a number of requests, their extend and sequence lengths and
a tail length, the rows of the tail and the number of them by request. -/
abbrev TailLayout : Type := ℕ → (ℕ → ℕ) → (ℕ → ℕ) → ℕ → List ℕ × (ℕ → ℕ)

/-- A tail layout yields the last rows of each request, request after request. -/
structure IsTailLayout (layout : TailLayout) : Prop where
  /-- the rows -/
  rows : ∀ n lens seqs tailLen, (layout n lens seqs tailLen).1 =
    (List.range n).flatMap fun r => (List.range (min tailLen (lens r))).map fun k =>
      segStart lens r + (lens r - min tailLen (lens r)) + k
  /-- how many of each request -/
  lens : ∀ n lens seqs tailLen r, r < n → (layout n lens seqs tailLen).2 r = min tailLen (lens r)

/-- `LateLayerTail`. -/
structure LateLayerTail : Type where
  /-- the number of requests that have tail rows -/
  numReqs : ℕ
  /-- their `req_pool_indices` -/
  reqs : ℕ → ℕ
  /-- the rows of the batch that are in the tail -/
  tokenIndices : List ℕ
  /-- `extend_seq_lens_cpu`: the rows of each request that has any -/
  extendSeqLens : ℕ → ℕ
  /-- where the tail is the end of the batch, its first row -/
  contiguousStart : Option ℕ
  /-- the rows of each request of the batch, when some have none -/
  fullBatchTailLens : Option (ℕ → ℕ)

/-- `LateLayerTail.rows`: the tail's part of the batch's rows. -/
def LateLayerTail.rows (t : LateLayerTail) (rows : List ℕ) : List ℕ :=
  match t.contiguousStart with
  | some start => rows.drop start
  | none => t.tokenIndices.map fun i => rows.getD i 0

/-- `keep`: the requests that are marked. -/
def keptReqs (mask : List Bool) : List ℕ :=
  (List.range mask.length).filter fun i => mask.getD i false

section

variable (layout : TailLayout) (b : ExtendBatch)

/-- The tail of every request of the batch. -/
def fullTail : LateLayerTail :=
  let (tokenIndices, tailLens) := layout b.bs b.extendLens b.seqLens swaWindow
  { numReqs := b.bs
    reqs := b.reqs
    tokenIndices := tokenIndices
    extendSeqLens := tailLens
    contiguousStart := if b.bs = 1 then some (b.extendLens 0 - tailLens 0) else none
    fullBatchTailLens := none }

/-- The tail of the requests `keep`. Their rows are laid out as if they were a batch of
their own, and then shifted to where they are in this one. -/
def subsetTail (keep : List ℕ) : LateLayerTail :=
  let kept : ℕ → ℕ := fun k => keep.getD k 0
  let subLens : ℕ → ℕ := fun k => b.extendLens (kept k)
  let (tokenIndices, tailLens) :=
    layout keep.length subLens (fun k => b.seqLens (kept k)) swaWindow
  let shift : ℕ → ℕ := fun k => segStart b.extendLens (kept k) - segStart subLens k
  { numReqs := keep.length
    reqs := fun k => b.reqs (kept k)
    tokenIndices := List.zipWith (fun i k => i + shift k) tokenIndices
      (segRows tailLens keep.length)
    extendSeqLens := tailLens
    contiguousStart := none
    fullBatchTailLens := some <|
      storeAll (fun _ => 0) ((List.range keep.length).map fun k => (kept k, tailLens k)) }

/-- `_build_late_layer_tail_metadata`. -/
def buildLateLayerTail (finalReqMask : Option (List Bool)) : LateLayerTail :=
  match finalReqMask with
  | some mask => if mask.all id then fullTail layout b else subsetTail layout b (keptReqs mask)
  | none => fullTail layout b

/-- `init_forward_metadata`: the tail that the late layers run over, and whether they are
skipped. -/
def initForwardMetadata (skipNonfinal : Bool) : Option LateLayerTail × Bool :=
  let finalReqMask := if skipNonfinal then b.lastChunkMask else none
  match finalReqMask with
  | some mask =>
    if mask.any id then (some (buildLateLayerTail layout b finalReqMask), false)
    else (none, true)
  | none => (some (buildLateLayerTail layout b finalReqMask), false)

end

/-! ## The layers -/

/-- The model: its layers, and where the late ones start, past the last kv-source layer. -/
structure LateLayerModel : Type where
  /-- `num_hidden_layers` -/
  numLayers : ℕ
  /-- `late_layer_start` -/
  lateLayerStart : ℕ

/-- The window K of every layer, by cache row. -/
abbrev WindowCache (K : Type) : Type := ℕ → ℕ × ℕ → Option K

/-- A layer writes the window K of its rows. -/
def writeRows {K : Type} (b : ExtendBatch) (newK : ℕ → K) (rows : List ℕ)
    (cache : ℕ × ℕ → Option K) : ℕ × ℕ → Option K :=
  storeAll cache (rows.map fun i => (b.cacheRow i, some (newK i)))

/-- `_check_late_layer_tail_readers`: nobody may read rows outside the tail. -/
def checkLateLayerTailReaders (b : ExtendBatch) : Except String Unit :=
  if b.captureFull then
    .error "decoder SWA bounded replay cannot capture hidden states of all prompt tokens"
  else if b.returnLogprob &&
      (List.range b.bs).any fun r => decide (b.logprobStartLens r < b.extendLens r) then
    .error ("decoder SWA bounded replay cannot return logprobs of prompt tokens; " ++
      "set logprob_start_len to the prompt length")
  else .ok ()

/-- The loop of `_forward_layers_hc_pre_from_prev`: at the first late layer the rows become
the tail's, or the loop ends. -/
def runLayers {K : Type} (m : LateLayerModel) (b : ExtendBatch) (tail : Option LateLayerTail)
    (skipLateLayers : Bool) (newK : ℕ → ℕ → K) :
    List ℕ → List ℕ → WindowCache K → WindowCache K
  | [], _, cache => cache
  | i :: layers, rows, cache =>
    if skipLateLayers && decide (m.lateLayerStart ≤ i) then cache
    else
      let rows :=
        if i = m.lateLayerStart then
          match tail with
          | some t => t.rows rows
          | none => rows
        else rows
      runLayers m b tail skipLateLayers newK layers rows
        (Function.update cache i (writeRows b (newK i) rows (cache i)))

/-- An extend forward: what it leaves in the window cache. -/
def extendForward {K : Type} (layout : TailLayout) (m : LateLayerModel) (skipNonfinal : Bool)
    (b : ExtendBatch) (newK : ℕ → ℕ → K) (cache : WindowCache K) :
    Except String (WindowCache K) := do
  checkLateLayerTailReaders b
  let (tail, skipLateLayers) := initForwardMetadata layout b skipNonfinal
  pure (runLayers m b tail skipLateLayers newK (List.range m.numLayers) (List.range b.numRows)
    cache)

/-- A decode or verify forward: every layer runs over every row. -/
def decodeForward {K : Type} (m : LateLayerModel) (b : ExtendBatch) (newK : ℕ → ℕ → K)
    (cache : WindowCache K) : WindowCache K := fun i =>
  if i < m.numLayers then writeRows b (newK i) (List.range b.numRows) (cache i) else cache i

/-- The look-backs at which a decode or verify row finds window K: its own position and the
127 before it. -/
def windowReads {K : Type} (cache : WindowCache K) (layer req position : ℕ) : List ℕ :=
  (List.range swaWindow).filter fun t =>
    decide (t ≤ position) && (cache layer (req, position - t)).isSome

end LuzServing

import LuzServing.LastChunkMask
import LuzServing.Segments

/-!
# What a chunk of a prefill is given

`prepare_for_extend` lays the chunks of a batch out flat: the tokens of each request's chunk, the
tokens whose log probabilities are asked for, and where vectors take the place of embeddings. It
counts the tokens that a request has found in the cache. This file is that function, on what it
reads and writes of the requests; `PrefillRuns` is what follows over the chunks of a prefill.
-/

namespace LuzServing

universe u

variable {E : Type u}

/-! ## Requests -/

/-- What `prepare_for_extend` sees of a `Req`. -/
structure PrefillReq (E : Type u) : Type u where
  /-- `origin_input_ids` -/
  originInputIds : List ℤ
  /-- `full_untruncated_fill_ids` -/
  fullUntruncatedFillIds : List ℤ
  /-- `len(prefix_indices)` -/
  prefixLen : ℕ
  /-- `extend_range.start` -/
  rangeStart : ℕ
  /-- `extend_range.end` -/
  rangeEnd : ℕ
  /-- `logprob_start_len` -/
  logprobStartLen : ℤ
  /-- `input_embeds` -/
  inputEmbeds : Option (List E)
  /-- `positional_embed_overrides`: the positions and their vectors -/
  positionalEmbedOverrides : List (ℕ × E)
  /-- `extend_batch_idx` -/
  extendBatchIdx : ℕ
  /-- `retracted_stain` -/
  retractedStain : Bool
  /-- `is_retracted` -/
  isRetracted : Bool
  /-- `already_computed` -/
  alreadyComputed : ℕ
  /-- `cached_tokens` -/
  cachedTokens : ℤ
  /-- `_cache_breakdown_computed` -/
  cacheBreakdownComputed : Bool
  /-- `cached_tokens_device` -/
  cachedTokensDevice : ℤ
  /-- `cached_tokens_host` -/
  cachedTokensHost : ℤ
  /-- `cached_tokens_storage` -/
  cachedTokensStorage : ℤ
  /-- `materialized_host_hit_len()` -/
  hostHitLen : ℤ
  /-- `storage_hit_length` -/
  storageHitLength : ℤ
  /-- `storage_hit_start` -/
  storageHitStart : Option ℤ
  /-- `host_hit_is_storage` -/
  hostHitIsStorage : Bool

/-- `split_cached_prefix_by_tier`: the cached prefix on the device, the host and the storage. -/
def splitCachedPrefixByTier (prefixLen hostHitLen storageHitLen : ℤ) (storageHitStart : Option ℤ)
    (hostHitIsStorage : Bool) : ℤ × ℤ × ℤ :=
  let hostHitLen := min prefixLen hostHitLen
  let hostStart := prefixLen - hostHitLen
  let (storage, host) := match storageHitStart with
    | none =>
      if hostHitIsStorage then (hostHitLen, 0)
      else (min hostHitLen storageHitLen, hostHitLen - min hostHitLen storageHitLen)
    | some start =>
      let storageEnd := start + storageHitLen
      let storage := max 0 (min prefixLen storageEnd - max 0 start)
      let storageInHost := max 0 (min prefixLen storageEnd - max hostStart start)
      (storage, if hostHitIsStorage then 0 else hostHitLen - storageInHost)
  (prefixLen - host - storage, host, storage)

namespace PrefillReq

variable (r : PrefillReq E)

/-- `extend_range.length` -/
def rangeLen : ℕ := r.rangeEnd - r.rangeStart

/-- `get_fill_ids()[len(prefix_indices):]`: the tokens of the chunk. -/
def inputIds : List ℤ := (r.fullUntruncatedFillIds.take r.rangeEnd).drop r.prefixLen

/-- Where log probabilities start in the chunk. -/
def extendLogprobStartLen : ℤ :=
  computeExtendLogprobStartLen r.logprobStartLen r.prefixLen r.rangeLen
    r.fullUntruncatedFillIds.length

/-- The first position of the chunk whose log probability is asked for. -/
def globalStartIdx : ℕ :=
  max r.prefixLen
    (if r.logprobStartLen = -1 then r.originInputIds.length else r.logprobStartLen.toNat)

/-- The tokens after the positions, as far as the prompt has them. -/
def logprobTokenIds : List ℤ :=
  (r.originInputIds.take (r.rangeEnd + 1)).drop (r.globalStartIdx + 1)

/-- The tokens whose log probabilities the chunk computes, zero where the prompt has none. -/
def extendInputLogprobTokenIds : List ℤ :=
  r.logprobTokenIds ++
    List.replicate (r.rangeLen - r.extendLogprobStartLen - r.logprobTokenIds.length).toNat 0

/-- The vectors of the chunk, at their places in the flat tensor. -/
def embedsToAdd (inputIdPointer : ℕ) : List (ℕ × E) :=
  (r.positionalEmbedOverrides.filter fun o =>
    decide (r.prefixLen ≤ o.1) && decide (o.1 - r.prefixLen < r.rangeLen)).map fun o =>
      (inputIdPointer + (o.1 - r.prefixLen), o.2)

/-- What the loop writes of the request. -/
def prepared : PrefillReq E :=
  let r := { r with extendBatchIdx := r.extendBatchIdx + 1, isRetracted := false }
  if r.retractedStain then r
  else
    let r := { r with cachedTokens := r.cachedTokens + (r.prefixLen - r.alreadyComputed),
                      alreadyComputed := r.rangeEnd }
    if r.cacheBreakdownComputed then r
    else
      let tiers := splitCachedPrefixByTier r.prefixLen r.hostHitLen r.storageHitLength
        r.storageHitStart r.hostHitIsStorage
      { r with cachedTokensDevice := tiers.1, cachedTokensHost := tiers.2.1,
               cachedTokensStorage := tiers.2.2, cacheBreakdownComputed := true }

end PrefillReq

/-! ## Batches -/

/-- The vectors of all chunks, with the pointer to where each chunk's tokens are. -/
def replaceEmbeds : ℕ → List (PrefillReq E) → List (ℕ × E)
  | _, [] => []
  | inputIdPointer, r :: reqs =>
    r.embedsToAdd inputIdPointer ++ replaceEmbeds (inputIdPointer + r.inputIds.length) reqs

/-- What a forward pass is given. -/
structure ExtendInputs (E : Type u) : Type u where
  /-- `prefill_input_ids_cpu` -/
  inputIds : List ℤ
  /-- `seq_lens` -/
  seqLens : List ℕ
  /-- `orig_seq_lens` -/
  origSeqLens : List ℕ
  /-- `prefix_lens` -/
  prefixLens : List ℕ
  /-- `extend_lens` -/
  extendLens : List ℕ
  /-- `extend_num_tokens` -/
  extendNumTokens : ℕ
  /-- `extend_logprob_start_lens` -/
  extendLogprobStartLens : List ℤ
  /-- `extend_input_logprob_token_ids` -/
  extendInputLogprobTokenIds : Option (List ℤ)
  /-- `input_embeds` -/
  inputEmbeds : List E
  /-- `replace_positions` with `replace_embeds` -/
  replace : List (ℕ × E)

/-- `clamp_(0, vocab_size - 1)`. -/
def clampToken (vocabSize : ℕ) (token : ℤ) : ℤ := min (max token 0) (vocabSize - 1)

/-- `prepare_for_extend`; `none` where the assertion on a chunk's length fails. -/
def prepareForExtend (vocabSize : ℕ) (returnLogprob : Bool) (reqs : List (PrefillReq E)) :
    Option (List (PrefillReq E) × ExtendInputs E) :=
  if reqs.all fun r => decide ((r.rangeEnd : ℤ) - r.prefixLen = r.rangeLen) then
    some (reqs.map PrefillReq.prepared,
      { inputIds := reqs.flatMap PrefillReq.inputIds
        seqLens := reqs.map PrefillReq.rangeEnd
        origSeqLens := reqs.map fun r => max r.rangeEnd r.originInputIds.length
        prefixLens := reqs.map PrefillReq.prefixLen
        extendLens := reqs.map PrefillReq.rangeLen
        extendNumTokens := (reqs.map fun r => r.inputIds.length).sum
        extendLogprobStartLens := reqs.map PrefillReq.extendLogprobStartLen
        extendInputLogprobTokenIds := if returnLogprob then
          some ((reqs.flatMap PrefillReq.extendInputLogprobTokenIds).map (clampToken vocabSize))
          else none
        inputEmbeds := reqs.flatMap fun r => r.inputEmbeds.elim [] fun embeds =>
          (embeds.take (r.prefixLen + r.rangeLen)).drop r.prefixLen
        replace := replaceEmbeds 0 reqs })
  else none

/-! ## What the model is given -/

/-- A row of the model's input: a token, or a vector in its embedding's place. -/
inductive InputRow (E : Type u) : Type u where
  /-- the embedding of a token -/
  | token (id : ℤ)
  /-- a vector -/
  | vector (embed : E)

/-- The stores of vectors. -/
def vectors (l : List (ℕ × E)) : List (ℕ × InputRow E) := l.map fun o => (o.1, .vector o.2)

theorem vectors_cons (o : ℕ × E) (l : List (ℕ × E)) :
    vectors (o :: l) = (o.1, .vector o.2) :: vectors l :=
  List.map_cons

theorem vectors_append (l l' : List (ℕ × E)) : vectors (l ++ l') = vectors l ++ vectors l' :=
  List.map_append

/-- A row of the flat input. -/
def ExtendInputs.row (x : ExtendInputs E) : ℕ → InputRow E :=
  storeAll (fun k => .token (x.inputIds.getD k 0)) (vectors x.replace)

/-- The rows of the batch's entry `i`. -/
def ExtendInputs.rowsOf (x : ExtendInputs E) (i : ℕ) : List (InputRow E) :=
  (List.range (x.extendLens.getD i 0)).map fun k =>
    x.row (segStart (fun i => x.extendLens.getD i 0) i + k)

/-- How many log probabilities entry `i` has. -/
def ExtendInputs.logprobLen (x : ExtendInputs E) (i : ℕ) : ℕ :=
  ((x.extendLens.getD i 0 : ℤ) - x.extendLogprobStartLens.getD i 0).toNat

/-- The tokens whose log probabilities are computed for entry `i`. -/
def ExtendInputs.logprobsOf (x : ExtendInputs E) (i : ℕ) : List ℤ :=
  (((x.extendInputLogprobTokenIds.getD []).drop (segStart x.logprobLen i)).take (x.logprobLen i))

/-- The row of a request's position, whatever chunk it is in. -/
def PrefillReq.row (r : PrefillReq E) : ℕ → InputRow E :=
  storeAll (fun pos => .token (r.fullUntruncatedFillIds.getD pos 0))
    (vectors r.positionalEmbedOverrides)

/-- The token after a position of the prompt, zero at its end. -/
def PrefillReq.nextToken (r : PrefillReq E) (pos : ℕ) : ℤ := r.originInputIds.getD (pos + 1) 0

/-- From where log probabilities are asked for. -/
def PrefillReq.logprobFrom (r : PrefillReq E) : ℕ :=
  if r.logprobStartLen = -1 then r.fullUntruncatedFillIds.length else r.logprobStartLen.toNat

end LuzServing

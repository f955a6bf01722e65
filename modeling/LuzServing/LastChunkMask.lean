import LuzServing.LateLayers

/-!
# The scheduler's marks

`prepare_for_extend` marks the requests of a batch whose chunk is the last of their prefill
(`extend_last_chunk_mask`). The mark is one of many lists with an entry per request that a
`ScheduleBatch` carries through its life: it is filtered and merged with other batches, it
decodes, decode requests ride on it, and it is turned from decode into extend. This file is
those operations, on what they read and write of the requests and of the batch.
-/

namespace LuzServing

/-! ## Requests -/

/-- What the operations see of a `Req`. -/
structure Req : Type where
  /-- `len(origin_input_ids)` -/
  originLen : ℕ
  /-- `len(output_ids)` -/
  outputLen : ℕ
  /-- `len(full_untruncated_fill_ids)` -/
  fillLen : ℕ
  /-- `full_untruncated_fill_ids is origin_input_ids` -/
  fillIsOrigin : Bool
  /-- `extend_range.start` -/
  rangeStart : ℕ
  /-- `extend_range.end` -/
  rangeEnd : ℕ
  /-- `len(prefix_indices)` -/
  prefixLen : ℕ
  /-- `return_logprob` -/
  returnLogprob : Bool
  /-- `logprob_start_len` -/
  logprobStartLen : ℤ
  /-- `finished()` -/
  finished : Bool
  /-- `is_prefill_only` -/
  isPrefillOnly : Bool
  deriving DecidableEq

namespace Req

/-- `seqlen`: all its tokens. -/
def seqlen (r : Req) : ℕ := r.originLen + r.outputLen

/-- `extend_range.length`. -/
def rangeLen (r : Req) : ℕ := r.rangeEnd - r.rangeStart

/-- The number of tokens of `get_fill_ids()[len(prefix_indices):]`. -/
def inputLen (r : Req) : ℕ := min r.rangeEnd r.fillLen - r.prefixLen

/-- `_refresh_fill_ids`: append the new output tokens, or build the fill anew. -/
def refreshFillIds (r : Req) : Req :=
  let nHaveOutput := (r.fillLen : ℤ) - r.originLen
  if r.fillIsOrigin = false ∧ 0 ≤ nHaveOutput ∧ nHaveOutput ≤ r.outputLen then
    { r with fillLen := r.fillLen + (r.outputLen - nHaveOutput.toNat) }
  else { r with fillLen := r.originLen + r.outputLen, fillIsOrigin := false }

/-- `set_extend_range`. -/
def setExtendRange (r : Req) (start stop : ℕ) : Req :=
  { r with rangeStart := start, rangeEnd := stop }

/-- The chunk does not complete the fill. -/
def Unfinished (r : Req) : Prop := r.rangeEnd < r.fillLen

instance (r : Req) : Decidable r.Unfinished := inferInstanceAs (Decidable (r.rangeEnd < r.fillLen))

end Req

/-- `compute_extend_logprob_start_len`. -/
def computeExtendLogprobStartLen (logprobStartLen : ℤ) (prefixLen extendLen fillLen : ℕ) : ℤ :=
  let resolvedStart : ℤ := if logprobStartLen = -1 then fillLen else max logprobStartLen prefixLen
  min (resolvedStart - prefixLen) extendLen

/-- An entry of the mask: the chunk completes the fill, or logprobs of it are asked for. -/
def extendLastChunkEntry (r : Req) (returnLogprob : Bool) (logprobStart : ℤ) : Bool :=
  decide (r.fillLen ≤ r.rangeEnd) || (returnLogprob && decide (logprobStart < r.rangeLen))

/-- Where logprobs start in the chunk or at its end, this is the mark that the late layers are
verified with. -/
theorem extendLastChunkEntry_eq (r : Req) (returnLogprob : Bool) (logprobStart : ℕ) :
    extendLastChunkEntry r returnLogprob logprobStart =
      lastChunkEntry r.rangeEnd r.fillLen returnLogprob logprobStart r.rangeLen := by
  rw [extendLastChunkEntry, lastChunkEntry]
  simp only [Nat.cast_lt]

/-- A request whose entry is `False` is not finished by the chunk. -/
theorem unfinished_of_entry {r : Req} {returnLogprob : Bool} {logprobStart : ℤ}
    (h : extendLastChunkEntry r returnLogprob logprobStart = false) : r.Unfinished := by
  rw [extendLastChunkEntry, Bool.or_eq_false_iff, decide_eq_false_iff_not] at h
  exact not_le.mp h.1

/-! ## Batches -/

/-- The forward modes that matter here. -/
inductive ForwardMode : Type where
  /-- `EXTEND` -/
  | extend : ForwardMode
  /-- `DLLM_EXTEND` -/
  | dllmExtend : ForwardMode
  /-- `MIXED` -/
  | mixed : ForwardMode
  /-- `DECODE` -/
  | decode : ForwardMode
  /-- `TARGET_VERIFY` -/
  | targetVerify : ForwardMode
  /-- `IDLE` -/
  | idle : ForwardMode
  deriving DecidableEq

/-- What the operations see of a `ScheduleBatch`. -/
structure ScheduleBatch : Type where
  /-- `reqs`, by name -/
  reqs : List ℕ
  /-- `forward_mode` -/
  forwardMode : Option ForwardMode
  /-- `dllm_config` is set -/
  isDllm : Bool
  /-- there is a speculative algorithm -/
  isSpec : Bool
  /-- `seq_lens_cpu` -/
  seqLensCpu : Option (List ℕ)
  /-- `prefix_lens` -/
  prefixLens : List ℕ
  /-- `extend_lens` -/
  extendLens : List ℕ
  /-- `extend_num_tokens` -/
  extendNumTokens : ℕ
  /-- `extend_logprob_start_lens` -/
  extendLogprobStartLens : List ℤ
  /-- `extend_last_chunk_mask` -/
  extendLastChunkMask : Option (List Bool)
  /-- `return_logprob` -/
  returnLogprob : Bool
  /-- `is_prefill_only` -/
  isPrefillOnly : Bool
  /-- `chunked_req` -/
  chunkedReq : Option ℕ
  /-- `decoding_reqs` -/
  decodingReqs : Option (List ℕ)

namespace ScheduleBatch

/-- `init_new`. -/
def initNew (heap : ℕ → Req) (reqs : List ℕ) (chunkedReq : Option ℕ) (isDllm isSpec : Bool) :
    ScheduleBatch where
  reqs := reqs
  forwardMode := none
  isDllm := isDllm
  isSpec := isSpec
  seqLensCpu := none
  prefixLens := []
  extendLens := []
  extendNumTokens := 0
  extendLogprobStartLens := []
  extendLastChunkMask := none
  returnLogprob := reqs.any fun r => (heap r).returnLogprob
  isPrefillOnly := reqs.all fun r => (heap r).isPrefillOnly
  chunkedReq := chunkedReq
  decodingReqs := none

/-- The logprob start of a request in `prepare_for_extend`. -/
def logprobStart (r : Req) : ℤ :=
  computeExtendLogprobStartLen r.logprobStartLen r.prefixLen r.rangeLen r.fillLen

/-- `prepare_for_extend`. -/
def prepareForExtend (heap : ℕ → Req) (b : ScheduleBatch) : ScheduleBatch :=
  { b with
    forwardMode := some (if b.isDllm then .dllmExtend else .extend)
    seqLensCpu := some (b.reqs.map fun r => (heap r).rangeEnd)
    prefixLens := b.reqs.map fun r => (heap r).prefixLen
    extendLens := b.reqs.map fun r => (heap r).rangeLen
    extendNumTokens := (b.reqs.map fun r => (heap r).inputLen).sum
    extendLogprobStartLens := b.reqs.map fun r => logprobStart (heap r)
    extendLastChunkMask := some (b.reqs.map fun r =>
      extendLastChunkEntry (heap r) b.returnLogprob (logprobStart (heap r))) }

/-- `prepare_for_decode`. Speculative decoding prepares the lengths itself: `specSeqLens`. -/
def prepareForDecode (b : ScheduleBatch) (specSeqLens : Option (List ℕ)) : Option ScheduleBatch :=
  let b := { b with forwardMode := some .decode }
  if b.isSpec then some { b with seqLensCpu := specSeqLens }
  else b.seqLensCpu.map fun lens => { b with seqLensCpu := some (lens.map (· + 1)) }

/-- `[xs[i] for i in keep_indices]`. -/
def keepAt {α : Type} (xs : List α) (keep : List ℕ) : List α := keep.filterMap (xs[·]?)

/-- `keep_indices` when the caller gives none: the requests that go on. -/
def keepIndices (heap : ℕ → Req) (b : ScheduleBatch) (chunkedReqToExclude : List ℕ) : List ℕ :=
  (List.range b.reqs.length).filter fun i =>
    b.reqs[i]?.any fun r => !(heap r).finished && !(chunkedReqToExclude.contains r)

/-- `filter_batch`. -/
def filterBatch (heap : ℕ → Req) (b : ScheduleBatch) (chunkedReqToExclude : List ℕ)
    (keepIndices? : Option (List ℕ)) : ScheduleBatch :=
  let keep := keepIndices?.getD (b.keepIndices heap chunkedReqToExclude)
  if keep.length = 0 then { b with reqs := [] }
  else if keep.length = b.reqs.length then b
  else
    { b with
      reqs := keepAt b.reqs keep
      seqLensCpu := b.seqLensCpu.map (keepAt · keep)
      returnLogprob := (keepAt b.reqs keep).any fun r => (heap r).returnLogprob }

/-- `merge_batch`. -/
def mergeBatch (b other : ScheduleBatch) : ScheduleBatch :=
  { b with
    reqs := b.reqs ++ other.reqs
    seqLensCpu := b.seqLensCpu.bind fun lens => other.seqLensCpu.map (lens ++ ·)
    returnLogprob := b.returnLogprob || other.returnLogprob
    isPrefillOnly := b.isPrefillOnly && other.isPrefillOnly }

/-- View requests as one-token extends after the given prefixes:
`req._refresh_fill_ids(); req.set_extend_range(prefix_len, prefix_len + 1)`. -/
def extendByOne (heap : ℕ → Req) (pairs : List (ℕ × ℕ)) : ℕ → Req :=
  pairs.foldl (fun heap p => Function.update heap p.1
    ((heap p.1).refreshFillIds.setExtendRange p.2 (p.2 + 1))) heap

/-- The prefixes of the running requests in `mix_with_running`. -/
def runningPrefixLens (heap : ℕ → Req) (b running : ScheduleBatch) : Option (List ℕ) :=
  if b.isSpec then some (running.reqs.map fun r => (heap r).seqlen - 1)
  else running.seqLensCpu.map fun lens => lens.map (· - 1)

/-- `mix_with_running`; `none` where the strict `zip` raises. -/
def mixWithRunning (heap : ℕ → Req) (b running : ScheduleBatch) :
    Option ((ℕ → Req) × ScheduleBatch) := do
  let prefixLens ← b.runningPrefixLens heap running
  if prefixLens.length ≠ running.reqs.length then none
  else
    let runningBs := running.reqs.length
    let merged := b.mergeBatch running
    let specLens := b.seqLensCpu.getD [] ++ running.reqs.map fun r => (heap r).seqlen
    some (extendByOne heap (running.reqs.zip prefixLens),
      { merged with
        forwardMode := some .mixed
        seqLensCpu := if b.isSpec then some specLens else merged.seqLensCpu
        prefixLens := b.prefixLens ++ prefixLens
        extendLens := b.extendLens ++ List.replicate runningBs 1
        extendNumTokens := b.extendNumTokens + runningBs
        extendLastChunkMask :=
          some (b.extendLastChunkMask.getD [] ++ List.replicate runningBs true)
        extendLogprobStartLens := b.extendLogprobStartLens ++ List.replicate runningBs 0
        isPrefillOnly := false })

/-- `convert_decode_to_extend`; `none` where the strict `zip` raises. -/
def convertDecodeToExtend (heap : ℕ → Req) (b : ScheduleBatch) :
    Option ((ℕ → Req) × ScheduleBatch) := do
  let seqLens := (← b.seqLensCpu).take b.reqs.length
  if seqLens.length ≠ b.reqs.length then none
  else
    some (extendByOne heap (b.reqs.zip (seqLens.map (· - 1))),
      { b with
        forwardMode := some .extend
        chunkedReq := none
        prefixLens := seqLens.map (· - 1)
        extendLens := List.replicate b.reqs.length 1
        extendNumTokens := b.reqs.length
        extendLogprobStartLens := List.replicate b.reqs.length 0
        decodingReqs := some b.reqs
        isPrefillOnly := false })

end ScheduleBatch

/-! ## The forward -/

/-- What the model sees of the batch. -/
structure ForwardBatch : Type where
  /-- the requests -/
  reqs : List ℕ
  /-- `extend_last_chunk_mask` -/
  extendLastChunkMask : Option (List Bool)

/-- `ForwardBatch.init_new`: the mask comes along to the modes that extend. -/
def ForwardBatch.initNew (b : ScheduleBatch) : ForwardBatch where
  reqs := b.reqs
  extendLastChunkMask :=
    if b.forwardMode ∈ [some .decode, some .targetVerify, some .idle] then none
    else b.extendLastChunkMask

/-- A batch is marked well: its mask has an entry for each request, and one that is `False` is
of a request that the chunk does not finish. -/
def WellMarked (heap : ℕ → Req) (reqs : List ℕ) (mask : Option (List Bool)) : Prop :=
  ∀ m, mask = some m → m.length = reqs.length ∧
    ∀ i r : ℕ, m[i]? = some false → reqs[i]? = some r → (heap r).Unfinished

/-! ## What the operations do to the mask -/

namespace ScheduleBatch

variable {heap heap' : ℕ → Req} {b b' running : ScheduleBatch}

/-- After `prepare_for_extend` the mask has an entry for each request, and those that it does not
mark are unfinished. -/
theorem prepareForExtend_marked (heap : ℕ → Req) (b : ScheduleBatch) :
    WellMarked heap (b.prepareForExtend heap).reqs
      (b.prepareForExtend heap).extendLastChunkMask := by
  intro m hm
  obtain rfl := Option.some.inj hm
  refine ⟨List.length_map _, fun i r hi hr => ?_⟩
  change b.reqs[i]? = some r at hr
  rw [List.getElem?_map, hr] at hi
  exact unfinished_of_entry (Option.some.inj hi)

/-- Extending by one token leaves the requests that are not in the batch as they were. -/
theorem extendByOne_of_notMem {pairs : List (ℕ × ℕ)} {r : ℕ} (h : ∀ p ∈ pairs, p.1 ≠ r) :
    extendByOne heap pairs r = heap r := by
  induction pairs generalizing heap with
  | nil => rfl
  | cons p pairs ih =>
    rw [extendByOne, List.foldl_cons]
    refine (ih fun q hq => h q (List.mem_cons_of_mem _ hq)).trans ?_
    exact Function.update_of_ne (h p (List.mem_cons_self ..)).symm ..

/-- What `mix_with_running` does to the mask: an entry `True` for each running request. -/
theorem mixWithRunning_spec (h : b.mixWithRunning heap running = some (heap', b')) :
    b'.reqs = b.reqs ++ running.reqs ∧ b'.forwardMode = some .mixed ∧
      b'.extendLastChunkMask = some (b.extendLastChunkMask.getD [] ++
        List.replicate running.reqs.length true) ∧
      ∀ r, r ∉ running.reqs → heap' r = heap r := by
  rw [mixWithRunning] at h
  obtain ⟨prefixLens, -, h⟩ := Option.bind_eq_some_iff.mp h
  split at h
  next => cases h
  next =>
    obtain ⟨rfl, rfl⟩ := Prod.mk.inj (Option.some.inj h)
    refine ⟨rfl, rfl, rfl, fun r hr => extendByOne_of_notMem fun p hp heq => hr ?_⟩
    exact heq ▸ (List.of_mem_zip hp).1

/-- `convert_decode_to_extend` changes the mode of the batch and leaves its requests and its mask
alone. -/
theorem convertDecodeToExtend_spec (h : b.convertDecodeToExtend heap = some (heap', b')) :
    b'.reqs = b.reqs ∧ b'.forwardMode = some .extend ∧
      b'.extendLastChunkMask = b.extendLastChunkMask := by
  rw [convertDecodeToExtend] at h
  obtain ⟨seqLens, -, h⟩ := Option.bind_eq_some_iff.mp h
  dsimp only at h
  split at h
  next => cases h
  next =>
    obtain ⟨-, rfl⟩ := Prod.mk.inj (Option.some.inj h)
    exact ⟨rfl, rfl, rfl⟩

/-- `prepare_for_decode` leaves the requests of the batch and its mask, whatever it is, as they
were. -/
theorem prepareForDecode_spec {specSeqLens : Option (List ℕ)}
    (h : b.prepareForDecode specSeqLens = some b') :
    b'.reqs = b.reqs ∧ b'.extendLastChunkMask = b.extendLastChunkMask := by
  rw [prepareForDecode] at h
  split at h
  next =>
    obtain rfl := Option.some.inj h
    exact ⟨rfl, rfl⟩
  next =>
    obtain ⟨lens, -, rfl⟩ := Option.map_eq_some_iff.mp h
    exact ⟨rfl, rfl⟩

/-- Running requests ride on a batch that is marked well, and it stays so. -/
theorem mixWithRunning_marked (hmask : b.extendLastChunkMask ≠ none)
    (hb : WellMarked heap b.reqs b.extendLastChunkMask)
    (hapart : ∀ r ∈ b.reqs, r ∉ running.reqs)
    (h : b.mixWithRunning heap running = some (heap', b')) :
    WellMarked heap' b'.reqs b'.extendLastChunkMask := by
  obtain ⟨hreqs, -, hmask', hheap⟩ := mixWithRunning_spec h
  obtain ⟨m, hm⟩ := Option.ne_none_iff_exists'.mp hmask
  obtain ⟨hlen, hfalse⟩ := hb m hm
  intro m' hm'
  rw [hmask', hm, Option.getD_some, Option.some.injEq] at hm'
  subst hm'
  rw [hreqs]
  refine ⟨?_, fun i r hi hr => ?_⟩
  · rw [List.length_append, List.length_append, List.length_replicate, hlen]
  · rcases lt_or_ge i b.reqs.length with hlt | hge
    · -- a request of the chunk, whose mark and range stay
      rw [List.getElem?_append_left (hlen.symm ▸ hlt)] at hi
      rw [List.getElem?_append_left hlt] at hr
      rw [hheap r (hapart r (List.mem_of_getElem? hr))]
      exact hfalse i r hi hr
    · -- a running request, whose mark is `True`
      rw [List.getElem?_append_right (hlen.symm ▸ hge)] at hi
      have htrue := List.eq_of_mem_replicate (List.mem_of_getElem? hi)
      cases htrue

end ScheduleBatch

end LuzServing

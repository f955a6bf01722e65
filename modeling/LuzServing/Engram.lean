import LuzServing.Stores

/-!
# Engram hash ids

Every token is looked up by the hash of its last `n` tokens. The hasher takes the
predecessors of a token from three places: the tokens of the same run of this
forward, a history row in the request's slot, or the scheduler's history. Decode
and extend commit the newest tokens to the slot, verify does after acceptance.

This file is the code, once for each way it is executed: the torch path
(`torchTokens`, `torchBlocked`, `computeEngramHashIds`) and the Triton kernel
(`kernelTokens`, `kernelBlocked`, `kernelHashIds`), then `forward` and
`commitAfterVerify` on top of either. A tensor is a function of its indices, with
its sizes beside it.
-/

namespace LuzServing

/-- The least of the ids that stand for multimodal padding. -/
def mmPadShiftValue : ℕ := 1000000

/-- `EngramHasher`, as its constructor builds it. -/
structure EngramHasher : Type where
  /-- `max_ngram_size` -/
  maxNgramSize : ℕ
  /-- an n-gram has at least two tokens -/
  two_le : 2 ≤ maxNgramSize
  /-- the number of engram layers -/
  numLayers : ℕ
  /-- hash heads for each n-gram size -/
  numHeads : ℕ
  /-- the compressed vocabulary -/
  vocabSize : ℕ
  /-- token id to compressed id -/
  tokenMap : ℕ → ℕ
  /-- compressed ids are below the compressed vocabulary -/
  tokenMap_lt : ∀ t, tokenMap t < vocabSize
  /-- the compressed id of PAD -/
  padId : ℕ
  /-- and so is PAD -/
  padId_lt : padId < vocabSize
  /-- a multiplier for each layer and look-back -/
  multipliers : ℕ → ℕ → ℕ
  /-- an id times a multiplier fits in `int64` -/
  multipliers_le : ∀ l s, multipliers l s ≤ (2 ^ 63 - 1) / vocabSize
  /-- the bucket counts of each layer, n-gram size and head -/
  primes : ℕ → ℕ → ℕ → ℕ
  /-- the first row of each layer's column -/
  offsets : ℕ → ℕ → ℕ
  /-- the image token, for a vision model -/
  imageTokenId : Option ℕ
  /-- the spare history row, past those of the request slots -/
  padRow : ℕ

/-- What the model does in a forward. -/
inductive EngramMode : Type where
  /-- one token for each request -/
  | decode
  /-- `block` tokens for each request -/
  | verify (block : ℕ)
  /-- a run of tokens for each request -/
  | extend

/-- The part of a forward batch that the hasher reads. -/
structure EngramBatch : Type where
  /-- `forward_mode` -/
  mode : EngramMode
  /-- the number of requests -/
  bs : ℕ
  /-- the number of tokens, padding included -/
  numTokens : ℕ
  /-- `input_ids` -/
  inputIds : ℕ → ℕ
  /-- `positions` -/
  positions : ℕ → ℕ
  /-- `req_pool_indices` -/
  reqSlots : ℕ → ℕ
  /-- `out_cache_loc` -/
  outCacheLoc : Option (ℕ → ℕ)
  /-- `extend_seq_lens` -/
  extendSeqLens : ℕ → ℕ
  /-- `extend_start_loc` -/
  extendStartLoc : ℕ → ℕ
  /-- the scheduler's predecessors of an extend, oldest first -/
  ngramHistory : Option (ℕ → ℕ → ℕ)

/-- The history table: slot, then column, oldest first. -/
abbrev History : Type := ℕ → ℕ → ℕ

namespace EngramBatch

variable (b : EngramBatch)

/-- The request of every token of an extend: `repeat_interleave(arange(bs), lens)`. -/
def extendRows : List ℕ := (List.range b.bs).flatMap fun i => List.replicate (b.extendSeqLens i) i

/-- The number of tokens that are not graph padding. -/
def numReal : ℕ :=
  match b.mode with
  | .extend => b.extendRows.length
  | _ => b.numTokens

/-- The request of token `t`. -/
def row (t : ℕ) : ℕ :=
  match b.mode with
  | .decode => t
  | .verify block => t / block
  | .extend => b.extendRows.getD t 0

/-- The offset of token `t` in its run. -/
def offset (t : ℕ) : ℕ :=
  match b.mode with
  | .decode => 0
  | .verify block => t - t / block * block
  | .extend => t - b.extendStartLoc (b.row t)

/-- The history rows that the batch reads, by request: the slots', unless the
scheduler supplied an extend's. -/
def histRow (history : History) (r : ℕ) : ℕ → ℕ :=
  match b.mode, b.ngramHistory with
  | .extend, some supplied => supplied r
  | _, _ => history (b.reqSlots r)

/-! The same three in the kernel. -/

/-- The request of token `t`; masked loads give 0. -/
def kernelRow (t : ℕ) : ℕ :=
  match b.mode with
  | .decode => t
  | .verify block => t / block
  | .extend => if t < b.numReal then b.extendRows.getD t 0 else 0

/-- The offset of token `t` in its run. -/
def kernelOffset (t : ℕ) : ℕ :=
  match b.mode with
  | .decode => t * 0
  | .verify block => t - t / block * block
  | .extend => t - if t < b.numReal then b.extendStartLoc (b.kernelRow t) else 0

/-- The history row of token `t`, through the slots (`HIST_VIA_SLOTS`) or by
request. -/
def kernelHistRow (history : History) (t : ℕ) : ℕ → ℕ :=
  match b.mode, b.ngramHistory with
  | .extend, some supplied => supplied (b.kernelRow t)
  | _, _ => history (if t < b.numReal then b.reqSlots (b.kernelRow t) else 0)

end EngramBatch

namespace EngramHasher

variable (H : EngramHasher)

/-- Multimodal pad ids stand for the image token. -/
def normalize (token : ℕ) : ℕ :=
  match H.imageTokenId with
  | some image => if mmPadShiftValue ≤ token then image else token
  | none => token

/-- The token is an image token. -/
def isImage (token : ℕ) : Bool :=
  match H.imageTokenId with
  | some image => token = image
  | none => false

/-! ## The torch path -/

/-- The predecessor of token `t` at shift `s`: `tokens[t, s]` before the image ids
are filled in. -/
def torchPredecessor (b : EngramBatch) (history : History) (t s : ℕ) : ℕ :=
  let n := H.maxNgramSize
  let hist := b.histRow history (b.row t)
  if t < b.numReal then
    match b.mode with
    | .decode => if s = 0 then b.inputIds t else hist (n - 1 - s)
    | _ =>
      let histCol := min (n - 2 - (s - b.offset t - 1)) (n - 2)
      if s ≤ b.offset t then b.inputIds (t - s) else hist histCol
  else 0

/-- `tokens[t, s]`. -/
def torchTokens (b : EngramBatch) (history : History) (t s : ℕ) : ℕ :=
  H.normalize (H.torchPredecessor b history t s)

/-- `blocked[t, s]`: off the sequence start, padding, or at or past an image. -/
def torchBlocked (b : EngramBatch) (history : History) (t s : ℕ) : Bool :=
  let off (s : ℕ) : Bool := b.positions t < s || b.numReal ≤ t
  match H.imageTokenId with
  | some _ => (List.range (s + 1)).any fun s' => off s' || H.isImage (H.torchTokens b history t s')
  | none => off s

/-- The product of layer `l` at look-back `s`, in 64 bits. -/
def product (tokens : ℕ → ℕ) (blocked : ℕ → Bool) (l s : ℕ) : BitVec 64 :=
  let compressed := if blocked s then H.padId else H.tokenMap (tokens s)
  BitVec.ofNat 64 compressed * BitVec.ofNat 64 (H.multipliers l s)

/-- The running XOR of the products up to look-back `i`. -/
def rolling (tokens : ℕ → ℕ) (blocked : ℕ → Bool) (l i : ℕ) : BitVec 64 :=
  (List.range' 1 i).foldl (fun r s => r ^^^ H.product tokens blocked l s)
    (H.product tokens blocked l 0)

/-- `compute_engram_hash_ids` for one token: the row of layer `l` for the
`(i + 1)`-gram and head `h`. `%` of `torch` has the sign of the divisor. -/
def computeEngramHashIds (tokens : ℕ → ℕ) (blocked : ℕ → Bool) (l i h : ℕ) : ℤ :=
  (H.rolling tokens blocked l i).toInt.fmod (H.primes l (i - 1) h) +
    H.offsets l ((i - 1) * H.numHeads + h)

/-! ## The Triton kernel -/

/-- `tok`: the predecessor of token `t` at shift `s`. -/
def kernelTokens (b : EngramBatch) (history : History) (t s : ℕ) : ℕ :=
  let off := b.kernelOffset t
  let fromBatch := b.inputIds (t - s)
  let hcol := min (max (H.maxNgramSize - 2 - (s - off - 1)) 0) (H.maxNgramSize - 2)
  let fromHist := b.kernelHistRow history t hcol
  let tok := if s ≤ off then fromBatch else fromHist
  H.normalize (if t < b.numReal then tok else 0)

/-- `blocked`: the cumulative sum of `blk` is positive. -/
def kernelBlocked (b : EngramBatch) (history : History) (t s : ℕ) : Bool :=
  let blk (s : ℕ) : Bool :=
    b.positions t < s || !decide (t < b.numReal) || H.isImage (H.kernelTokens b history t s)
  0 < ((List.range (s + 1)).map fun s' => if blk s' then 1 else 0).sum

/-- The hash of one token in the kernel: the XOR over all lanes of the products up to
look-back `i`, and `%` as in C. -/
def kernelHashIds (tokens : ℕ → ℕ) (blocked : ℕ → Bool) (l i h : ℕ) : ℤ :=
  let xorSum := (List.range H.maxNgramSize).foldl
    (fun r s => r ^^^ if s ≤ i then H.product tokens blocked l s else 0) 0
  xorSum.toInt.tmod (H.primes l (i - 1) h) + H.offsets l ((i - 1) * H.numHeads + h)

/-! ## The forward pass -/

/-- How a step is executed. -/
inductive Path : Type where
  /-- the torch fallback -/
  | torch
  /-- the CUDA kernels -/
  | cuda
  deriving DecidableEq

/-- What a forward returns for a token: the hash ids by layer, n-gram size and
head. -/
abbrev HashIds : Type := ℕ → ℕ → ℕ → ℕ → ℤ

/-- `tokens` and `hash_ids` of a forward. -/
def hashTable (p : Path) (b : EngramBatch) (history : History) : (ℕ → ℕ → ℕ) × HashIds :=
  match p with
  | .torch =>
    (H.torchTokens b history, fun t =>
      H.computeEngramHashIds (H.torchTokens b history t) (H.torchBlocked b history t))
  | .cuda =>
    (H.kernelTokens b history, fun t =>
      H.kernelHashIds (H.kernelTokens b history t) (H.kernelBlocked b history t))

/-- What the launcher of the kernels asserts of the sizes. -/
def PowersOfTwo : Prop :=
  H.maxNgramSize &&& (H.maxNgramSize - 1) = 0 ∧ H.numHeads &&& (H.numHeads - 1) = 0

instance : Decidable H.PowersOfTwo := inferInstanceAs (Decidable (_ ∧ _))

/-- The in-kernel commit of a decode step: each row whose `out_cache_loc` is not 0
stores its token and its newest predecessors, oldest first. -/
def kernelCommit (b : EngramBatch) (history : History) (outCacheLoc : ℕ → ℕ) : History :=
  storeAll history (((List.range b.numTokens).filter fun t => outCacheLoc t ≠ 0).map fun t =>
    (b.reqSlots t, fun c => H.kernelTokens b history t (H.maxNgramSize - 2 - c)))

/-- The row that request `r` commits to: the spare one when its last token is graph
padding. -/
def torchCommitRow (b : EngramBatch) (commitRows commitLast : ℕ → ℕ) (r : ℕ) : ℕ :=
  match b.outCacheLoc with
  | some outLoc => if outLoc (commitLast r) = 0 then H.padRow else commitRows r
  | none => commitRows r

/-- The commit of `forward`: the newest tokens of each request, oldest first. -/
def torchCommit (b : EngramBatch) (history : History) (tokens : ℕ → ℕ → ℕ)
    (commitRows commitLast : ℕ → ℕ) : History :=
  storeAll history ((List.range b.bs).map fun r =>
    (H.torchCommitRow b commitRows commitLast r,
      fun c => tokens (commitLast r) (H.maxNgramSize - 2 - c)))

/-- `forward`: the hash ids and the history after it; `none` when an assertion
fails. -/
def forward (p : Path) (b : EngramBatch) (history : History) : Option (HashIds × History) :=
  if b.numTokens = 0 then some (fun _ _ _ _ => 0, history)
  else if p = .cuda ∧ ¬H.PowersOfTwo then none
  else
    let (tokens, hashIds) := H.hashTable p b history
    match b.mode with
    | .decode =>
      match p, b.outCacheLoc with
      | .cuda, none => none
      | .cuda, some outLoc => some (hashIds, H.kernelCommit b history outLoc)
      | .torch, _ => some (hashIds, H.torchCommit b history tokens b.reqSlots id)
    | .verify block => if b.numTokens = b.bs * block then some (hashIds, history) else none
    | .extend =>
      let commitRows (r : ℕ) : ℕ := if 0 < b.extendSeqLens r then b.reqSlots r else H.padRow
      let commitLast (r : ℕ) : ℕ :=
        min (b.extendStartLoc r + b.extendSeqLens r - 1) (b.numTokens - 1)
      some (hashIds, H.torchCommit b history tokens commitRows commitLast)

/-! ## The commit after verify -/

/-- The row that `_engram_commit_history_kernel` stores. -/
def kernelWindow (old ids : ℕ → ℕ) (commit col : ℕ) : ℕ :=
  let width := H.maxNgramSize - 1
  let sourceCol := commit + col
  if sourceCol < width then old sourceCol else ids (sourceCol - width)

/-- The row that the torch path gathers from the history and the block, side by
side. -/
def torchWindow (old ids : ℕ → ℕ) (commit col : ℕ) : ℕ :=
  let n1 := H.maxNgramSize - 1
  let window (c : ℕ) : ℕ := if c < n1 then old c else ids (c - n1)
  window (commit + col)

/-- `commit_after_verify`: request `r` commits the first `commitLens r` tokens of its
block. -/
def commitAfterVerify (p : Path) (bs : ℕ) (verifyIds : ℕ → ℕ → ℕ) (reqSlots commitLens : ℕ → ℕ)
    (history : History) : History :=
  storeAll history ((List.range bs).map fun r =>
    (reqSlots r, match p with
      | .torch => H.torchWindow (history (reqSlots r)) (verifyIds r) (commitLens r)
      | .cuda => H.kernelWindow (history (reqSlots r)) (verifyIds r) (commitLens r)))

end EngramHasher

end LuzServing

import LuzServing.Machine
import LuzServing.Segments
import Mathlib.Data.Nat.Size

/-!
# The pair state of ratio 2

A layer of compress ratio 2 pools a token at an odd position with the one before it. The two
may come in different batches, so the (kv, score) of a token is kept in a ring of its request
slot, at its position modulo the ring size (`PairPool`). A batch reads the partners that it
does not have itself and leaves its last rows in the ring, by torch operations
(`lowRatioPairPartners`) or by a fused kernel (`c2Decode`), whose thread blocks run in any
order and without a barrier.
-/

namespace LuzServing

/-! ## The ring -/

/-- `get_compress_state_ring_size` -/
def getCompressStateRingSize (onlineC128 onlineC128Mtp : Bool) (compressRatio : ℕ)
    (isSpeculative : Bool) (numDraftTokens : ℕ) : Except String ℕ :=
  if compressRatio ≠ 2 ∧ compressRatio ≠ 4 ∧ compressRatio ≠ 128 then
    .error s!"Unsupported compress_ratio = {compressRatio}"
  else if compressRatio = 2 then
    if !isSpeculative then .ok 2 else .ok (1 <<< (numDraftTokens + 1).size)
  else if compressRatio = 128 && onlineC128 then
    if isSpeculative && !onlineC128Mtp then .error "online c128 does not support MTP" else .ok 1
  else if isSpeculative then .ok (if compressRatio = 4 then 16 else 256)
  else .ok (if compressRatio = 4 then 8 else 128)

/-- The pair state pool: a ring for each request slot, and a dummy row past them. -/
structure PairPool : Type where
  /-- `is_speculative` -/
  isSpeculative : Bool
  /-- `num_draft_tokens` -/
  numDraftTokens : ℕ
  /-- `ring_size` -/
  ring : ℕ
  /-- it is the size for the ratio -/
  ring_eq : ∀ online mtp,
    getCompressStateRingSize online mtp 2 isSpeculative numDraftTokens = .ok ring
  /-- `num_req_slots` -/
  numReqSlots : ℕ
  /-- the row that stands in for a negative position -/
  dummy : ℕ
  /-- it is past the rings -/
  dummy_ge : numReqSlots * ring ≤ dummy
  /-- `translate_from_req_position_to_state_loc` -/
  stateLoc : ℕ → ℤ → ℕ
  /-- a position has the row `req * ring_size + pos % ring_size` -/
  stateLoc_natCast : ∀ req pos : ℕ, stateLoc req (pos : ℤ) = req * ring + pos % ring
  /-- a negative one has none -/
  stateLoc_of_neg : ∀ (req : ℕ) (pos : ℤ), pos < 0 → stateLoc req pos = dummy

/-- The row of a request's position. -/
def PairPool.slot (pool : PairPool) (req pos : ℕ) : ℕ := req * pool.ring + pos % pool.ring

/-! ## A batch -/

/-- A row of a batch. -/
structure PairRow (V : Type) : Type where
  /-- its request slot -/
  req : ℕ
  /-- its position -/
  pos : ℕ
  /-- its slot in the full pool; padding has 0 -/
  rawOutLoc : ℕ
  /-- its (kv, score) -/
  value : V

/-- What a batch does with the pair state. -/
structure PairOut (V : Type) : Type where
  /-- what each row is pooled with -/
  partner : ℕ → V
  /-- the rows of the state that are written, in order -/
  writes : List (ℕ × V)
  /-- the state after them -/
  state : ℕ → V

section

variable {V : Type} (pool : PairPool) (state : ℕ → V) (n : ℕ) (row : ℕ → PairRow V)

/-! ## By torch operations -/

/-- `pad` -/
def isPad (i : ℕ) : Bool := (row i).rawOutLoc == 0

/-- `in_batch`: the row before is the same request's token before. -/
def inBatch (i : ℕ) : Bool :=
  decide (0 < i) && (row i).req == (row (i - 1)).req && (row i).pos == (row (i - 1)).pos + 1 &&
    !isPad row i && !isPad row (i - 1)

/-- `keep`: the row is among the last `ring` ones of its request. -/
def keepRow (i : ℕ) : Bool :=
  !isPad row i && (!decide (i + pool.ring < n) ||
    ((row i).req != (row (i + pool.ring)).req || isPad row (i + pool.ring)))

/-- `_low_ratio_pair_partners`: all reads come before all writes. -/
def lowRatioPairPartners : PairOut V :=
  let writes := (List.range n).map fun i =>
    (pool.stateLoc (row i).req (if keepRow pool n row i then (row i).pos else -1), (row i).value)
  { partner i :=
      if inBatch row i then (row (i - 1)).value
      else state (pool.stateLoc (row i).req (if isPad row i then -1 else (row i).pos - 1))
    writes := writes
    state := storeAll state writes }

/-! ## By the fused kernel -/

/-- The row of the state that a thread block loads a partner from. -/
def fusedReadRow (r : PairRow V) : ℕ :=
  r.req * pool.ring + (r.pos + pool.ring - 1) % pool.ring

/-- What a thread block writes: the pair state of an even position. -/
def fusedWrite (r : PairRow V) : Option (ℕ × V) :=
  if r.pos % 2 = 0 then
    if r.rawOutLoc = 0 then none
    else some (r.req * pool.ring + r.pos % pool.ring, r.value)
  else none

/-- The kernel of `c2.cuh`, for blocks of `draftLen` rows. Before a row's thread block loads
its partner, those of the rows `before i` have written; the writes happen in the order
`order`. -/
def c2Decode (draftLen : ℕ) (before : ℕ → List ℕ) (order : List ℕ) : Except String (PairOut V) :=
  let write := fun i => fusedWrite pool (row i)
  if n = 0 then .ok ⟨fun i => state (fusedReadRow pool (row i)), [], state⟩
  else if ¬(0 < pool.ring ∧ 1 ≤ draftLen) then .error "ring_size > 0 && draft_len >= 1"
  else if 1 < draftLen ∧ n % draftLen ≠ 0 then .error "num_tokens % draft_len == 0"
  else if 1 < draftLen ∧ pool.ring ≤ draftLen then
    .error s!"the pair-state ring ({pool.ring}) must be wider than the draft length ({draftLen})"
  else .ok
    { partner i :=
        if 1 < draftLen ∧ i % draftLen ≠ 0 then (row (i - 1)).value
        else storeAll state ((before i).filterMap write) (fusedReadRow pool (row i))
      writes := order.filterMap write
      state := storeAll state (order.filterMap write) }

/-- The two paths that compute the partners. -/
inductive PairPath : Type where
  /-- `_low_ratio_compress_torch` -/
  | torch
  /-- `_low_ratio_compress_fused`, in some order of the thread blocks -/
  | fused (draftLen : ℕ) (before : ℕ → List ℕ) (order : List ℕ)

/-- A batch on one of the paths. -/
def runPairs : PairPath → Except String (PairOut V)
  | .torch => .ok (lowRatioPairPartners pool state n row)
  | .fused draftLen before order => c2Decode pool state n row draftLen before order

end

/-! ## The requests -/

/-- The request of a slot: the position where it came in, and the (kv, score) of its tokens
from there on. -/
structure PairRequest (V : Type) : Type where
  /-- the position of the first token -/
  start : ℕ
  /-- the tokens -/
  tokens : List V

namespace PairRequest

variable {V : Type} (o : PairRequest V)

/-- The position of the next token. -/
def next : ℕ := o.start + o.tokens.length

/-- The token at a position. -/
def token (pos : ℕ) : Option V := if o.start ≤ pos then o.tokens[pos - o.start]? else none

/-- The request after more tokens have been accepted. -/
def commit (values : List V) : PairRequest V := ⟨o.start, o.tokens ++ values⟩

end PairRequest

/-- The pair state and the requests of the slots. -/
structure PairState (V : Type) : Type where
  /-- the rows of the pool -/
  rows : ℕ → V
  /-- the request of each slot -/
  request : ℕ → Option (PairRequest V)

/-- A part of a batch: the rows of a request, or padding. -/
structure PairPart (V : Type) : Type where
  /-- the request's slot; none for padding -/
  slot : Option ℕ
  /-- the number of rows -/
  len : ℕ
  /-- the rows -/
  row : ℕ → PairRow V
  /-- how many of them are accepted -/
  accepted : ℕ

/-- A batch: parts, one after the other. -/
structure PairBatch (V : Type) : Type where
  /-- the number of parts -/
  numParts : ℕ
  /-- the parts -/
  part : ℕ → PairPart V

namespace PairBatch

variable {V : Type} (b : PairBatch V)

/-- The rows of each part. -/
def lens (p : ℕ) : ℕ := (b.part p).len

/-- The number of the rows of the batch, over all its parts. -/
def numRows : ℕ := segStart b.lens b.numParts

/-- A row of the batch. -/
def row (i : ℕ) : PairRow V :=
  let p := (segRows b.lens b.numParts).getD i 0
  (b.part p).row (i - segStart b.lens p)

/-- The tokens of a part that are accepted. -/
def values (p : ℕ) : List V :=
  (List.range (b.part p).accepted).map fun j => ((b.part p).row j).value

/-- A batch that the scheduler makes: chunks, decode rows or verify blocks of different
requests, each from its next token on, and padding rows in between. Only a verify block may
be accepted in part. -/
structure Allowed (pool : PairPool) (s : PairState V) : Prop where
  /-- padding rows are marked -/
  padding : ∀ p, p < b.numParts → (b.part p).slot = none → ∀ j, j < b.lens p →
    ((b.part p).row j).rawOutLoc = 0
  /-- a request has one part -/
  distinct : ∀ p p' r, p < b.numParts → p' < b.numParts → (b.part p).slot = some r →
    (b.part p').slot = some r → p = p'
  /-- its next tokens -/
  tokens : ∀ p r, p < b.numParts → (b.part p).slot = some r → ∃ o, s.request r = some o ∧
    ∀ j, j < b.lens p → ((b.part p).row j).req = r ∧ ((b.part p).row j).pos = o.next + j ∧
      ((b.part p).row j).rawOutLoc ≠ 0
  /-- at least one is accepted -/
  accepted : ∀ p r, p < b.numParts → (b.part p).slot = some r →
    0 < (b.part p).accepted ∧ (b.part p).accepted ≤ b.lens p
  /-- all, but for a verify block -/
  verify : ∀ p r, p < b.numParts → (b.part p).slot = some r →
    (b.part p).accepted = b.lens p ∨
      (pool.isSpeculative = true ∧ b.lens p ≤ pool.numDraftTokens)

end PairBatch

/-- The fused path is for decode rows, and for verify blocks of the draft length. Every row is
written for once. -/
def PairPath.Allowed {V : Type} (pool : PairPool) (b : PairBatch V) : PairPath → Prop
  | .torch => True
  | .fused draftLen before order =>
    (∀ p, p < b.numParts → b.lens p = draftLen) ∧
    (draftLen = 1 ∨ (pool.isSpeculative = true ∧ draftLen = pool.numDraftTokens ∧ 1 < draftLen)) ∧
    (∀ i, ∀ i' ∈ before i, i' < b.numRows) ∧ order.Perm (List.range b.numRows)

/-- What happens to the pair state. -/
inductive PairAction (V : Type) : Type where
  /-- a request comes into a slot, at a position -/
  | enter (slot start : ℕ)
  /-- a batch runs -/
  | forward (path : PairPath) (b : PairBatch V)

/-- The pair state over time. A request comes in at an even position, where it starts or where
its cached prefix, whole pages, ends; what is left in its ring is anything. -/
def pairMachine (V : Type) (pool : PairPool) : Machine (PairState V) (PairAction V) where
  init s := ∀ r, s.request r = none
  step s
    | .enter slot start, s' => slot < pool.numReqSlots ∧ start % 2 = 0 ∧
        s'.request = Function.update s.request slot (some ⟨start, []⟩) ∧
        ∀ loc, loc / pool.ring ≠ slot → s'.rows loc = s.rows loc
    | .forward path b, s' => b.Allowed pool s ∧ path.Allowed pool b ∧
        ∃ out, runPairs pool s.rows b.numRows b.row path = .ok out ∧ s'.rows = out.state ∧
          (∀ p r, p < b.numParts → (b.part p).slot = some r →
            s'.request r = (s.request r).map (·.commit (b.values p))) ∧
          ∀ r, (∀ p, p < b.numParts → (b.part p).slot ≠ some r) → s'.request r = s.request r

end LuzServing

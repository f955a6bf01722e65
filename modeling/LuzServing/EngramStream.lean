import LuzServing.RankRanges
import LuzServing.Simulation

/-!
# Engram lookups on a stream

The `_owned_rows` that the backend gives an embedding looks nothing up when it is called. It puts
five operations on the current stream: the indices to pinned memory, the call of
`row_store_lookup` by the driver, two copies to the device, and the gather. The memory between
them is kept by the number of indices, rounded up to a power of two, and calls with other numbers
share it; what the driver calls is kept by the number itself. Operations may also be captured,
to be put on a stream as often as the graph is launched.

What the calls are for is stated by a second machine without any such memory: a stream reads the
indices, and writes their rows some steps later.

The calls of the streams' kernels and the order in which the streams advance are arbitrary. A
device pointer is the number of a block, which is never freed, for the dictionaries keep it.
-/

namespace LuzServing

universe u

/-! ## What is in memory -/

/-- The tensors on the device that calls read or write, by number. -/
structure EngramTensors (V : Type u) : Type u where
  /-- the indices of a tensor -/
  indices : ℕ → ℕ → ℤ
  /-- the rows of a tensor -/
  rows : ℕ → ℕ → ℕ → V

/-- An entry of `_staging`. -/
structure EngramStaging : Type where
  /-- how many rows each part has -/
  capacity : ℕ
  /-- `ids`, pinned -/
  ids : ℕ → ℤ
  /-- `w`, pinned -/
  weights : ℕ → Bytes
  /-- `s`, pinned -/
  scales : ℕ → Bytes
  /-- `dw` -/
  deviceWeights : ℕ → Bytes
  /-- `ds` -/
  deviceScales : ℕ → Bytes
  /-- `sequential` -/
  sequential : ℕ → ℕ

/-- `Work`: what the driver passes to `row_store_lookup`. -/
structure EngramWork : Type where
  /-- `store`, by its layer -/
  store : ℕ
  /-- the staging that `ids`, `weights` and `scales` point into -/
  block : ℕ
  /-- `count` -/
  count : ℕ

/-- What the operations of the streams work on. -/
structure EngramMemory (V : Type u) : Type u where
  /-- the tensors -/
  tensors : EngramTensors V
  /-- how many blocks there are -/
  allocated : ℕ
  /-- the blocks -/
  staging : ℕ → EngramStaging
  /-- the row stores, by layer -/
  stores : ℕ → Store

/-- `dst[:n].copy_(src[:n])` -/
def copyRows {α : Type u} (n : ℕ) (src dst : ℕ → α) (i : ℕ) : α := if i < n then src i else dst i

/-- `out[:count]` is written. -/
def EngramTensors.write {V : Type u} (t : EngramTensors V) (out count : ℕ) (rows : ℕ → ℕ → V) :
    EngramTensors V :=
  { t with rows := Function.update t.rows out (copyRows count rows (t.rows out)) }

/-- Write a whole staging block, as the operations of a stream do. -/
def EngramMemory.write {V : Type u} (m : EngramMemory V) (b : ℕ) (s : EngramStaging) :
    EngramMemory V :=
  { m with staging := Function.update m.staging b s }

/-- Put a new block behind those that have been allocated. -/
def EngramMemory.allocate {V : Type u} (m : EngramMemory V) (s : EngramStaging) :
    EngramMemory V :=
  { m with
    staging := Function.update m.staging m.allocated s
    allocated := m.allocated + 1 }

/-- The store of a layer after a lookup. -/
def EngramMemory.setStore {V : Type u} (m : EngramMemory V) (layer : ℕ) (store : Store) :
    EngramMemory V :=
  { m with stores := Function.update m.stores layer store }

/-! ## The operations of a stream -/

section

variable {V : Type u}

/-- What may be on a stream. -/
inductive EngramOp (V : Type u) : Type u where
  /-- the engine's own kernels -/
  | kernel (f : EngramTensors V → EngramTensors V)
  /-- `ids[:count].copy_(indices.reshape(-1), non_blocking=True)` -/
  | copyIds (block indices count : ℕ)
  /-- `cudaLaunchHostFunc(stream, row_store_lookup, work)` -/
  | lookup (work : EngramWork)
  /-- `dw[:count].copy_(w[:count], non_blocking=True)` -/
  | copyWeights (block count : ℕ)
  /-- `ds[:count].copy_(s[:count], non_blocking=True)` -/
  | copyScales (block count : ℕ)
  /-- `engram_gather` of the rows `sequential[:count]` -/
  | gather (block count out : ℕ)

/-- The staging that an operation touches. -/
def EngramOp.block : EngramOp V → Option ℕ
  | .kernel _ => none
  | .copyIds b _ _ => some b
  | .lookup work => some work.block
  | .copyWeights b _ => some b
  | .copyScales b _ => some b
  | .gather b _ _ => some b

/-- A stream executes an operation; `none` when it is out of the block's bounds, or when the
lookup aborts the process. -/
def EngramOp.exec (gatherOp : Gather V) (m : EngramMemory V) (how : Schedule) :
    EngramOp V → Option (EngramMemory V)
  | .kernel f => some { m with tensors := f m.tensors }
  | .copyIds b indices count =>
    let s := m.staging b
    if count ≤ s.capacity then
      some (m.write b { s with ids := copyRows count (m.tensors.indices indices) s.ids })
    else none
  | .lookup work =>
    let s := m.staging work.block
    match rowStoreLookup (m.stores work.store) ((List.range work.count).map s.ids) how with
    | none => none
    | some (store, out) =>
      if work.count ≤ s.capacity then
        let s := { s with
          weights := copyRows work.count (fun i => (out.getD i zeroRow).1) s.weights
          scales := copyRows work.count (fun i => (out.getD i zeroRow).2) s.scales }
        some ((m.write work.block s).setStore work.store store)
      else none
  | .copyWeights b count =>
    let s := m.staging b
    if count ≤ s.capacity then
      some (m.write b { s with deviceWeights := copyRows count s.weights s.deviceWeights })
    else none
  | .copyScales b count =>
    let s := m.staging b
    if count ≤ s.capacity then
      some (m.write b { s with deviceScales := copyRows count s.scales s.deviceScales })
    else none
  | .gather b count out =>
    let s := m.staging b
    if count ≤ s.capacity then
      let rows := fun i => gatherOp (fun k => (s.deviceWeights k, s.deviceScales k)) none
        (s.sequential i)
      some { m with tensors := m.tensors.write out count rows }
    else none

/-! ## `owned` -/

/-- A key of `_staging` or of `_works`, and the embedding that they are of. -/
structure EngramKey : Type where
  /-- the layer of the embedding -/
  layer : ℕ
  /-- `indices.device.index` -/
  device : ℕ
  /-- `capacity` or `count` -/
  size : ℕ
  deriving DecidableEq

/-- A call of `_owned_rows`. -/
structure EngramCall : Type where
  /-- the layer of the embedding -/
  layer : ℕ
  /-- `indices.device.index` -/
  device : ℕ
  /-- `indices` -/
  indices : ℕ
  /-- `indices.numel()` -/
  count : ℕ
  /-- the tensor that `_empty` returns -/
  out : ℕ

/-- `1 << (count - 1).bit_length()` -/
def stagingCapacity (count : ℕ) : ℕ := 2 ^ (count - 1).size

/-- The key of a call's staging. -/
def EngramCall.key (c : EngramCall) : EngramKey := ⟨c.layer, c.device, stagingCapacity c.count⟩

/-- The embeddings' dictionaries, the streams and the graphs. -/
structure EngramBackend (V : Type u) : Type u where
  /-- the memory -/
  memory : EngramMemory V
  /-- `_staging` -/
  staging : EngramKey → Option ℕ
  /-- `_works` -/
  works : EngramKey → Option EngramWork
  /-- what is on a stream, in its order -/
  queue : ℕ → List (EngramOp V)
  /-- what a stream that is being captured has captured -/
  capture : ℕ → Option (List (EngramOp V))
  /-- the operations of a graph -/
  graphs : ℕ → List (EngramOp V)

namespace EngramBackend

/-- Put operations on a stream, which may be capturing. -/
def put (st : EngramBackend V) (q : ℕ) (ops : List (EngramOp V)) : EngramBackend V :=
  match st.capture q with
  | none => { st with queue := Function.update st.queue q (st.queue q ++ ops) }
  | some captured => { st with capture := Function.update st.capture q (some (captured ++ ops)) }

/-- A new entry of `_staging`: it holds what new memory holds, on the device what is pinned. -/
def newStaging (capacity : ℕ) (uninit : EngramStaging) : EngramStaging :=
  { uninit with
    capacity := capacity
    deviceWeights := uninit.weights
    deviceScales := uninit.scales
    sequential := fun i => i }

/-- Find the staging block of a key, or allocate one. -/
def stage (st : EngramBackend V) (key : EngramKey) (uninit : EngramStaging) :
    EngramBackend V × ℕ :=
  match st.staging key with
  | some b => (st, b)
  | none =>
    ({ st with
      staging := Function.update st.staging key (some st.memory.allocated)
      memory := st.memory.allocate (newStaging key.size uninit) }, st.memory.allocated)

/-- Find the work of a key, or make it. -/
def work (st : EngramBackend V) (key : EngramKey) (block : ℕ) : EngramBackend V × EngramWork :=
  match st.works key with
  | some w => (st, w)
  | none =>
    let w : EngramWork := ⟨key.layer, block, key.size⟩
    ({ st with works := Function.update st.works key (some w) }, w)

/-- The message for a capture that finds no staging. -/
def mustBeWarmed (device capacity : ℕ) : String :=
  "Engram staging (" ++ toString device ++ ", " ++ toString capacity ++
    ") must be warmed before graph capture"

/-- The message for a host function that was not launched. -/
def callbackFailed (error : ℕ) : String :=
  "CUDA Engram host callback failed: " ++ toString error

/-- What `owned` puts on a stream once it has the staging and the work. `error` is what
`cudaLaunchHostFunc` returns. -/
def submit (st : EngramBackend V) (q b : ℕ) (w : EngramWork) (c : EngramCall) (error : ℕ) :
    EngramBackend V × Option String :=
  let st := st.put q [.copyIds b c.indices c.count]
  if error ≠ 0 then (st, some (callbackFailed error))
  else
    (st.put q [.lookup w, .copyWeights b c.count, .copyScales b c.count,
      .gather b c.count c.out], none)

/-- `owned`, on a stream: the state after it, and what it raises. `uninit` is what new memory
holds. -/
def owned (st : EngramBackend V) (q : ℕ) (c : EngramCall) (uninit : EngramStaging) (error : ℕ) :
    EngramBackend V × Option String :=
  if c.count = 0 then (st, none)
  else if (st.staging c.key).isNone && (st.capture q).isSome then
    (st, some (mustBeWarmed c.device (stagingCapacity c.count)))
  else
    let staged := st.stage c.key uninit
    let worked := staged.1.work ⟨c.layer, c.device, c.count⟩ staged.2
    worked.1.submit q staged.2 worked.2 c error

end EngramBackend

/-- What may happen: a call, a launch of another kernel, an operation that a stream executes, or a
capture. -/
inductive EngramEvent (V : Type u) : Type u where
  /-- `_owned_rows` is called, with a current stream -/
  | call (q : ℕ) (c : EngramCall) (uninit : EngramStaging) (error : ℕ)
  /-- a kernel is launched -/
  | kernel (q : ℕ) (f : EngramTensors V → EngramTensors V)
  /-- a stream executes its next operation -/
  | run (q : ℕ) (how : Schedule)
  /-- a capture begins -/
  | beginCapture (q : ℕ)
  /-- a capture ends, and gives a graph -/
  | endCapture (q graph : ℕ)
  /-- a graph is launched -/
  | launch (graph q : ℕ)

/-- A step, and what is raised. -/
def EngramBackend.step (gatherOp : Gather V) (st : EngramBackend V) :
    EngramEvent V → Option (EngramBackend V × Option String)
  | .call q c uninit error => some (st.owned q c uninit error)
  | .kernel q f => some (st.put q [.kernel f], none)
  | .run q how =>
    match st.queue q with
    | [] => none
    | op :: ops => do
      let m ← op.exec gatherOp st.memory how
      some ({ st with memory := m, queue := Function.update st.queue q ops }, none)
  | .beginCapture q =>
    match st.capture q with
    | none => some ({ st with capture := Function.update st.capture q (some []) }, none)
    | some _ => none
  | .endCapture q graph =>
    match st.capture q with
    | none => none
    | some ops => some ({ st with
        capture := Function.update st.capture q none
        graphs := Function.update st.graphs graph ops }, none)
  | .launch graph q => some (st.put q (st.graphs graph), none)

/-- The process before the first call. -/
def EngramBackend.initial (tensors : EngramTensors V) (staging : ℕ → EngramStaging)
    (stores : ℕ → Store) : EngramBackend V where
  memory := ⟨tensors, 0, staging, stores⟩
  staging _ := none
  works _ := none
  queue _ := []
  capture _ := none
  graphs _ := []

/-- No other stream has operations on a block. -/
def EngramBackend.Exclusive (st : EngramBackend V) (q b : ℕ) : Prop :=
  ∀ q', q' ≠ q → ∀ op ∈ st.queue q', op.block ≠ some b

/-- What is put on a stream has its staging for itself. It may have to wait for its turn on that
stream, but other streams are synchronized with. -/
def EngramBackend.Ordered (st : EngramBackend V) : EngramEvent V → Prop
  | .call q c _ _ => st.capture q = none → ∀ b, st.staging c.key = some b → st.Exclusive q b
  | .launch graph q => st.capture q = none →
    ∀ op ∈ st.graphs graph, ∀ b, op.block = some b → st.Exclusive q b
  | _ => True

/-! ## What it is for -/

/-- What is on a stream without staging. -/
inductive EngramSpecOp (V : Type u) : Type u where
  /-- the engine's own kernels -/
  | kernel (f : EngramTensors V → EngramTensors V)
  /-- the stream reads the indices -/
  | read (indices : ℕ)
  /-- nothing -/
  | wait
  /-- the stream writes the rows of the indices that it has read -/
  | write (layer count out : ℕ)

/-- The backend as it is specified: streams that put rows into tensors, without any staging. -/
structure EngramSpec (V : Type u) : Type u where
  /-- the tensors -/
  tensors : EngramTensors V
  /-- the indices that a stream has read -/
  read : ℕ → ℕ → ℤ
  /-- the keys that calls were made with -/
  warm : EngramKey → Bool
  /-- what is on a stream -/
  queue : ℕ → List (EngramSpecOp V)
  /-- what a stream that is being captured has captured -/
  capture : ℕ → Option (List (EngramSpecOp V))
  /-- the operations of a graph -/
  graphs : ℕ → List (EngramSpecOp V)

namespace EngramSpec

/-- Put operations on a stream, which may be capturing. -/
def put (sp : EngramSpec V) (q : ℕ) (ops : List (EngramSpecOp V)) : EngramSpec V :=
  match sp.capture q with
  | none => { sp with queue := Function.update sp.queue q (sp.queue q ++ ops) }
  | some captured => { sp with capture := Function.update sp.capture q (some (captured ++ ops)) }

/-- What a call puts on a stream. -/
def submit (sp : EngramSpec V) (q : ℕ) (c : EngramCall) (error : ℕ) :
    EngramSpec V × Option String :=
  let sp := sp.put q [.read c.indices]
  if error ≠ 0 then (sp, some (EngramBackend.callbackFailed error))
  else (sp.put q [.wait, .wait, .wait, .write c.layer c.count c.out], none)

/-- A call: it fails where a capture would have to allocate, and where the driver does. -/
def owned (sp : EngramSpec V) (q : ℕ) (c : EngramCall) (error : ℕ) :
    EngramSpec V × Option String :=
  if c.count = 0 then (sp, none)
  else if !sp.warm c.key && (sp.capture q).isSome then
    (sp, some (EngramBackend.mustBeWarmed c.device (stagingCapacity c.count)))
  else { sp with warm := Function.update sp.warm c.key true }.submit q c error

/-- An operation of stream `q`, with the rows that the layers have. -/
def exec (row : ℕ → ℤ → ℕ → V) (sp : EngramSpec V) (q : ℕ) : EngramSpecOp V → EngramSpec V
  | .kernel f => { sp with tensors := f sp.tensors }
  | .read indices => { sp with read := Function.update sp.read q (sp.tensors.indices indices) }
  | .wait => sp
  | .write layer count out =>
    { sp with tensors := sp.tensors.write out count fun i => row layer (sp.read q i) }

/-- A step, and what is raised. -/
def step (row : ℕ → ℤ → ℕ → V) (sp : EngramSpec V) :
    EngramEvent V → Option (EngramSpec V × Option String)
  | .call q c _ error => some (sp.owned q c error)
  | .kernel q f => some (sp.put q [.kernel f], none)
  | .run q _ =>
    match sp.queue q with
    | [] => none
    | op :: ops => some (({ sp with queue := Function.update sp.queue q ops }).exec row q op, none)
  | .beginCapture q =>
    match sp.capture q with
    | none => some ({ sp with capture := Function.update sp.capture q (some []) }, none)
    | some _ => none
  | .endCapture q graph =>
    match sp.capture q with
    | none => none
    | some ops => some ({ sp with
        capture := Function.update sp.capture q none
        graphs := Function.update sp.graphs graph ops }, none)
  | .launch graph q => some (sp.put q (sp.graphs graph), none)

/-- Before the first call. -/
def initial (tensors : EngramTensors V) : EngramSpec V where
  tensors := tensors
  read _ _ := 0
  warm _ := false
  queue _ := []
  capture _ := none
  graphs _ := []

end EngramSpec

end

end LuzServing

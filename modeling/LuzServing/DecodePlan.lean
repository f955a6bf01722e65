import LuzServing.Machine

/-!
# The decode plan

Before a decode step of speculative decoding the scheduler plans it: the committed length of every
request, and the page-aligned lengths between which tokens are allocated. The legacy path writes
them to buffers of the draft input and copies them to the device at every step. The staged path has
one `DecodePlanStaging` a device: a ring of two host slots, and device rows that are copied only
when they are read or the requests are others than those of the last copy.

This file is the code. A tensor of a plan is a view of a buffer, and a buffer is named by a number:
the ring hands out views of buffers that it writes again later, or drops for larger ones.
-/

namespace LuzServing

/-! ## Buffers and views -/

/-- The memory of host and device, by buffer, row and column. The memory of a buffer that views are
left of is not used again; here no buffer's is. -/
structure PlanMemory : Type where
  /-- the number of the next buffer -/
  next : ℕ
  /-- the host's memory -/
  host : ℕ → ℕ → ℕ → ℤ
  /-- the device's memory -/
  device : ℕ → ℕ → ℕ → ℤ

/-- A view of the first entries of a row of a buffer. -/
structure PlanView : Type where
  /-- the buffer -/
  buffer : ℕ
  /-- the row -/
  row : ℕ
  /-- how many entries -/
  len : ℕ

/-- The entries of a view of host memory. -/
def PlanView.host (v : PlanView) (m : PlanMemory) : List ℤ :=
  (List.range v.len).map (m.host v.buffer v.row)

/-- The entries of a view of device memory. -/
def PlanView.device (v : PlanView) (m : PlanMemory) : List ℤ :=
  (List.range v.len).map (m.device v.buffer v.row)

namespace PlanMemory

variable (m : PlanMemory)

/-- `buffer[row, i] = value` -/
def writeAt (buffer row i : ℕ) (value : ℤ) : PlanMemory :=
  { m with
    host := Function.update m.host buffer (Function.update (m.host buffer) row
      (Function.update (m.host buffer row) i value)) }

/-- `buffer[row, :len(values)].copy_(torch.tensor(values))` -/
def writeRow (buffer row : ℕ) (values : List ℤ) : PlanMemory :=
  { m with
    host := Function.update m.host buffer (Function.update (m.host buffer) row fun i =>
      if i < values.length then values.getD i 0 else m.host buffer row i) }

/-- `torch.zeros`, on the host. -/
def zeroHost (buffer : ℕ) : PlanMemory :=
  { m with host := Function.update m.host buffer fun _ _ => 0 }

/-- `torch.zeros`, on the device. -/
def zeroDevice (buffer : ℕ) : PlanMemory :=
  { m with device := Function.update m.device buffer fun _ _ => 0 }

/-- `dst[:rows, :cols].copy_(src[:rows, :cols], non_blocking=True)`, from host to device. -/
def copyToDevice (src dst rows cols : ℕ) : PlanMemory :=
  { m with
    device := Function.update m.device dst fun row i =>
      if row < rows ∧ i < cols then m.host src row i else m.device dst row i }

end PlanMemory

/-! ## The staging -/

/-- `_PLAN_ROW_CUR_KV_LENS` -/
def planRowCurKvLens : ℕ := 0

/-- `_PLAN_ROW_NXT_KV_LENS` -/
def planRowNxtKvLens : ℕ := 1

/-- `_PLAN_ROWS` -/
def planRows : ℕ := 2

/-- `DecodePlanHostRows` -/
structure DecodePlanHostRows : Type where
  /-- `seq_lens`: the committed lengths -/
  seqLens : PlanView
  /-- `cur_kv_lens` -/
  curKvLens : PlanView
  /-- `nxt_kv_lens` -/
  nxtKvLens : PlanView

/-- `DecodePlanDeviceRows` -/
structure DecodePlanDeviceRows : Type where
  /-- `cur_kv_lens` -/
  curKvLens : PlanView
  /-- `nxt_kv_lens` -/
  nxtKvLens : PlanView

/-- `DecodePlanStaging` -/
structure DecodePlanStaging : Type where
  /-- `capacity` -/
  capacity : ℕ
  /-- `_slot` -/
  slot : ℕ
  /-- `_host_seq_lens`, by slot -/
  hostSeqLens : ℕ → ℕ
  /-- `_host_lens`, by slot -/
  hostLens : ℕ → ℕ
  /-- `_slot_copied`: the slots that an event is recorded for -/
  slotCopied : ℕ → Bool
  /-- `lens_gpu` -/
  lensGpu : Option ℕ
  /-- `_device_stale` -/
  deviceStale : Bool
  /-- `_shipped_req_ids` -/
  shippedReqIds : Option (List String)
  /-- `stage_ct` -/
  stageCt : ℕ
  /-- `h2d_copy_ct` -/
  h2dCopyCt : ℕ

namespace DecodePlanStaging

/-- `RING_DEPTH` -/
def ringDepth : ℕ := 2

/-- `__init__` -/
def create : DecodePlanStaging where
  capacity := 0
  slot := 0
  hostSeqLens _ := 0
  hostLens _ := 0
  slotCopied _ := false
  lensGpu := none
  deviceStale := true
  shippedReqIds := none
  stageCt := 0
  h2dCopyCt := 0

variable (st : DecodePlanStaging) (m : PlanMemory)

/-- `_grow` -/
def grow (bs : ℕ) : DecodePlanStaging × PlanMemory :=
  let hostLens slot := m.next + ringDepth + slot
  let lensGpu := m.next + 2 * ringDepth
  ({ st with
      capacity := max bs (max 32 (st.capacity * 2))
      hostSeqLens := fun slot => m.next + slot
      hostLens := hostLens
      slotCopied := fun _ => false
      lensGpu := some lensGpu
      deviceStale := true },
    { ((List.range ringDepth).foldl (fun m slot => m.zeroHost (hostLens slot)) m).zeroDevice lensGpu
        with next := m.next + 2 * ringDepth + 1 })

/-- `acquire`. `drained`: the copy of the slot has, by its event. -/
def acquire (bs : ℕ) (drained : Bool) :
    Except String (DecodePlanHostRows × DecodePlanStaging × PlanMemory) :=
  let (st, m) := if st.capacity < bs then st.grow m bs else (st, m)
  let slot := (st.slot + 1) % ringDepth
  if st.slotCopied slot && !drained then
    .error (s!"plan slot {slot} reacquired before its H2D drained: the ring assumes " ++
      "copy_done(N-1) is synchronized before step N+1 is prepared")
  else
    .ok (⟨⟨st.hostSeqLens slot, 0, bs⟩, ⟨st.hostLens slot, planRowCurKvLens, bs⟩,
      ⟨st.hostLens slot, planRowNxtKvLens, bs⟩⟩, { st with slot := slot }, m)

/-- `ship`. `checking`: the level of the invariant checks is `WARN` or above; `useEvents`: the
device is not the CPU. -/
def ship (bs : ℕ) (numNeededTokens : ℤ) (reqIds : List String) (checking useEvents : Bool) :
    Except String (DecodePlanDeviceRows × DecodePlanStaging × PlanMemory) :=
  match st.lensGpu with
  | none => .error "acquire() must precede ship()"
  | some lensGpu =>
    let rows : DecodePlanDeviceRows :=
      ⟨⟨lensGpu, planRowCurKvLens, bs⟩, ⟨lensGpu, planRowNxtKvLens, bs⟩⟩
    let st := { st with stageCt := st.stageCt + 1 }
    let dirty := st.deviceStale || decide (0 < numNeededTokens) || some reqIds != st.shippedReqIds
    if dirty || checking then
      .ok (rows,
        { st with
          slotCopied :=
            if checking && useEvents then Function.update st.slotCopied st.slot true
            else st.slotCopied
          h2dCopyCt := st.h2dCopyCt + 1
          deviceStale := false
          shippedReqIds := some reqIds },
        m.copyToDevice (st.hostLens st.slot) lensGpu planRows st.capacity)
    else .ok (rows, st, m)

end DecodePlanStaging

/-! ## A step -/

/-- What a step reads of a request. -/
structure DecodeReq : Type where
  /-- `rid` -/
  rid : String
  /-- `kv.kv_committed_len` -/
  committedLen : ℤ
  /-- the length that tokens are allocated up to -/
  allocatedLen : ℤ
  /-- `sampling_params.top_k` -/
  topK : ℤ
  /-- `decode_batch_idx` -/
  decodeBatchIdx : ℕ

/-- The configuration. `page_aligned_decode_alloc_lens` is a function of the engine that is not part
of the repository: it has a current and a next length for every request, and the number of tokens
that are needed. -/
structure PlanConfig : Type where
  /-- `page_aligned_decode_alloc_lens`, by requests, reserve and page size -/
  allocLens : List DecodeReq → ℤ → ℕ → List ℤ × List ℤ × ℤ
  /-- a current length a request -/
  length_cur : ∀ reqs reserve pageSize, (allocLens reqs reserve pageSize).1.length = reqs.length
  /-- a next length a request -/
  length_nxt : ∀ reqs reserve pageSize, (allocLens reqs reserve pageSize).2.1.length = reqs.length
  /-- `speculative_num_draft_tokens` -/
  blockSize : ℤ
  /-- `page_size` -/
  pageSize : ℕ
  /-- `_use_events` -/
  useEvents : Bool

/-- A decode step: its batch, and what its environment decides. -/
structure DecodeStep : Type where
  /-- `batch.reqs` -/
  reqs : List DecodeReq
  /-- the level of the invariant checks is `WARN` or above -/
  checking : Bool
  /-- the copy of the slot that is acquired has drained -/
  drained : Bool

/-- What `alloc_for_spec_decode` is called with. -/
structure SpecDecodeAlloc : Type where
  /-- `cur_kv_lens` and `nxt_kv_lens`, on the device -/
  deviceRows : DecodePlanDeviceRows
  /-- `cur_kv_lens_cpu` -/
  curKvLensCpu : PlanView
  /-- `nxt_kv_lens_cpu` -/
  nxtKvLensCpu : PlanView
  /-- `num_needed_tokens` -/
  numNeededTokens : ℤ

/-- What a step of a batch that is not empty leaves in the batch and the draft input. -/
structure PreparedDecode : Type where
  /-- the call of `alloc_for_spec_decode` -/
  alloc : SpecDecodeAlloc
  /-- `batch.reqs` -/
  reqs : List DecodeReq
  /-- `batch.seq_lens_cpu` -/
  seqLensCpu : PlanView
  /-- `batch.seq_lens_sum` -/
  seqLensSum : ℤ
  /-- `nxt_kv_lens_cpu` -/
  nxtKvLensCpu : PlanView
  /-- `nxt_kv_lens_sum` -/
  nxtKvLensSum : ℤ
  /-- `max_top_k` -/
  maxTopK : ℤ
  /-- `uniform_top_k_value` -/
  uniformTopKValue : Option ℤ

/-- The error of a block size that is not positive. -/
def blockSizeError (blockSize : ℤ) : String :=
  s!"DFLASH invalid speculative_num_draft_tokens={blockSize}."

/-- The lengths of a step, and the number of tokens that are needed. -/
def PlanConfig.lens (cfg : PlanConfig) (reqs : List DecodeReq) : List ℤ × List ℤ × ℤ :=
  cfg.allocLens reqs (2 * cfg.blockSize) cfg.pageSize

/-- The loop variables that follow the `top_k` of the requests. -/
structure TopKScan : Type where
  /-- `max_top_k` -/
  maxTopK : ℤ
  /-- `uniform_top_k_value` -/
  uniformTopKValue : Option ℤ
  /-- `uniform_top_k` -/
  uniformTopK : Bool

namespace TopKScan

/-- The scan before its first request: no `top_k` has been seen. -/
def start : TopKScan := ⟨1, none, true⟩

/-- A round of the loop: the scan takes in the `top_k` of one more request. -/
def step (s : TopKScan) (i : ℕ) (topK : ℤ) : TopKScan where
  maxTopK := if s.maxTopK < topK then topK else s.maxTopK
  uniformTopKValue := if i = 0 then some topK else s.uniformTopKValue
  uniformTopK :=
    if i = 0 then s.uniformTopK
    else if s.uniformTopK = true ∧ some topK ≠ s.uniformTopKValue then false
    else s.uniformTopK

/-- `self.max_top_k` -/
def resultMax (s : TopKScan) : ℤ := max s.maxTopK 1

/-- `self.uniform_top_k_value` -/
def resultUniform (s : TopKScan) : Option ℤ := if s.uniformTopK then s.uniformTopKValue else none

end TopKScan

/-- `req.decode_batch_idx += 1` -/
def DecodeReq.advance (req : DecodeReq) : DecodeReq :=
  { req with decodeBatchIdx := req.decodeBatchIdx + 1 }

/-! ## The staged path -/

/-- The memory, and the staging of the device, once there is one. -/
structure StagedState : Type where
  /-- the memory -/
  mem : PlanMemory
  /-- `_DECODE_PLAN_STAGINGS`, at the device -/
  staging : Option DecodePlanStaging

/-- The loop of the staged path over the requests: `committed_lens`, and the `top_k`s. -/
def stagedScan (reqs : List DecodeReq) : List ℤ × TopKScan :=
  reqs.zipIdx.foldl (fun s p => (s.1 ++ [p.1.committedLen], s.2.step p.2 p.1.topK))
    ([], TopKScan.start)

/-- `_prepare_for_decode_staged`; an empty batch is left as it is. -/
def prepareForDecodeStaged (cfg : PlanConfig) (s : StagedState) (a : DecodeStep) :
    Except String (StagedState × Option PreparedDecode) :=
  let bs := a.reqs.length
  if bs = 0 then .ok (s, none)
  else if cfg.blockSize ≤ 0 then .error (blockSizeError cfg.blockSize)
  else
    let (curKvLens, nxtKvLens, numNeededTokens) := cfg.lens a.reqs
    let (committedLens, topK) := stagedScan a.reqs
    let staging := s.staging.getD DecodePlanStaging.create
    (staging.acquire s.mem bs a.drained).bind fun (host, staging, mem) =>
      let mem := mem.writeRow host.seqLens.buffer host.seqLens.row committedLens
      let mem := mem.writeRow host.curKvLens.buffer host.curKvLens.row curKvLens
      let mem := mem.writeRow host.nxtKvLens.buffer host.nxtKvLens.row nxtKvLens
      (staging.ship mem bs numNeededTokens (a.reqs.map DecodeReq.rid) a.checking
        cfg.useEvents).bind fun (deviceRows, staging, mem) =>
          .ok (⟨mem, some staging⟩, some
            { alloc := ⟨deviceRows, host.curKvLens, host.nxtKvLens, numNeededTokens⟩
              reqs := a.reqs.map DecodeReq.advance
              seqLensCpu := host.seqLens
              seqLensSum := committedLens.sum
              nxtKvLensCpu := host.nxtKvLens
              nxtKvLensSum := nxtKvLens.sum
              maxTopK := topK.resultMax
              uniformTopKValue := topK.resultUniform })

/-! ## The legacy path -/

/-- The host buffers of a draft input, which grow together. -/
structure PrepareCpuBuffers : Type where
  /-- `numel()` of each -/
  capacity : ℕ
  /-- `_prepare_batch_seq_lens_cpu_buf` -/
  seqLens : ℕ
  /-- `_prepare_cur_kv_lens_cpu_buf` -/
  curKvLens : ℕ
  /-- `_prepare_nxt_kv_lens_cpu_buf` -/
  nxtKvLens : ℕ
  /-- they are three -/
  distinct : seqLens ≠ curKvLens ∧ seqLens ≠ nxtKvLens ∧ curKvLens ≠ nxtKvLens

/-- The device buffers that the legacy path keeps from step to step. -/
structure PrepareGpuBuffers : Type where
  /-- `numel()` of each -/
  capacity : ℕ
  /-- `_prepare_cur_kv_lens_gpu_buf` -/
  curKvLens : ℕ
  /-- `_prepare_nxt_kv_lens_gpu_buf` -/
  nxtKvLens : ℕ

/-- The memory, and the buffers of the draft input. -/
structure LegacyState : Type where
  /-- the memory -/
  mem : PlanMemory
  /-- its host buffers -/
  cpu : Option PrepareCpuBuffers
  /-- its device buffers -/
  gpu : Option PrepareGpuBuffers

/-- `grown_capacity` -/
def grownCapacity (bs : ℕ) (current : Option ℕ) : ℕ := max bs (max 32 (2 * current.getD 0))

/-- `_ensure_prepare_length_buffers`: the buffers, the memory, and the buffers that are kept. -/
def ensurePrepareLengthBuffers (s : LegacyState) (bs : ℕ) :
    PrepareCpuBuffers × PrepareGpuBuffers × PlanMemory :=
  let next := s.mem.next
  let newCpu : PrepareCpuBuffers :=
    ⟨grownCapacity bs (s.cpu.map PrepareCpuBuffers.capacity), next, next + 1, next + 2,
      by omega, by omega, by omega⟩
  let cpu :=
    match s.cpu with
    | some cpu => if cpu.capacity < bs then newCpu else cpu
    | none => newCpu
  let newGpu : PrepareGpuBuffers :=
    ⟨grownCapacity bs (s.gpu.map PrepareGpuBuffers.capacity), next + 3, next + 4⟩
  let gpu :=
    match s.gpu with
    | some gpu => if gpu.capacity < bs then newGpu else gpu
    | none => newGpu
  (cpu, gpu, { s.mem with next := next + 5 })

/-- The loop variables of the legacy path. -/
structure LegacyScan : Type where
  /-- the memory that it writes -/
  mem : PlanMemory
  /-- `nxt_kv_lens_sum` -/
  nxtKvLensSum : ℤ
  /-- `committed_seq_lens_sum` -/
  committedSeqLensSum : ℤ
  /-- the `top_k`s -/
  topK : TopKScan

/-- A round of its loop: a request, its current and next lengths, and its number. -/
def LegacyScan.step (cpu : PrepareCpuBuffers) (s : LegacyScan)
    (p : (DecodeReq × ℤ × ℤ) × ℕ) : LegacyScan :=
  let ((req, cur, nxt), i) := p
  { mem := ((s.mem.writeAt cpu.seqLens 0 i req.committedLen).writeAt cpu.curKvLens 0 i cur).writeAt
      cpu.nxtKvLens 0 i nxt
    nxtKvLensSum := s.nxtKvLensSum + nxt
    committedSeqLensSum := s.committedSeqLensSum + req.committedLen
    topK := s.topK.step i req.topK }

/-- `_prepare_for_decode_legacy` -/
def prepareForDecodeLegacy (cfg : PlanConfig) (s : LegacyState) (a : DecodeStep) :
    Except String (LegacyState × Option PreparedDecode) :=
  let bs := a.reqs.length
  if bs = 0 then .ok (s, none)
  else
    let (cpu, gpu, mem) := ensurePrepareLengthBuffers s bs
    if cfg.blockSize ≤ 0 then .error (blockSizeError cfg.blockSize)
    else
      let (curKvLens, nxtKvLens, numNeededTokens) := cfg.lens a.reqs
      let scan := (a.reqs.zip (curKvLens.zip nxtKvLens)).zipIdx.foldl (LegacyScan.step cpu)
        ⟨mem, 0, 0, TopKScan.start⟩
      let mem := scan.mem.copyToDevice cpu.curKvLens gpu.curKvLens 1 bs
      let mem := mem.copyToDevice cpu.nxtKvLens gpu.nxtKvLens 1 bs
      .ok (⟨mem, some cpu, some gpu⟩, some
        { alloc :=
            { deviceRows := ⟨⟨gpu.curKvLens, 0, bs⟩, ⟨gpu.nxtKvLens, 0, bs⟩⟩
              curKvLensCpu := ⟨cpu.curKvLens, 0, bs⟩
              nxtKvLensCpu := ⟨cpu.nxtKvLens, 0, bs⟩
              numNeededTokens := numNeededTokens }
          reqs := a.reqs.map DecodeReq.advance
          seqLensCpu := ⟨cpu.seqLens, 0, bs⟩
          seqLensSum := scan.committedSeqLensSum
          nxtKvLensCpu := ⟨cpu.nxtKvLens, 0, bs⟩
          nxtKvLensSum := scan.nxtKvLensSum
          maxTopK := scan.topK.resultMax
          uniformTopKValue := scan.topK.resultUniform })

end LuzServing

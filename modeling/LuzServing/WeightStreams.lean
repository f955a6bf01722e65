import LuzServing.Dictionaries
import LuzServing.StreamJoin
import LuzServing.WeightNames

/-!
# Loading the weights of a checkpoint

A checkpoint is read as a stream of tensors, in whatever order its files give them. Three things
come in halves: an fp8 weight of `wo_a` and its scale, the `wkv` and `wgate` of a compressor, and
the two projections that `wqkv_a` is made of. The loader keeps the half that came first until the
other one comes, and loads the pair as one tensor; at the end no half may be left. `loadWeights` is
the whole of it: the stream of dequantised tensors goes into the loop tensor by tensor.
-/

namespace LuzServing

open TensorName

/-- The types of numbers that the loader asks for. -/
inductive DType : Type where
  /-- `torch.float8_e4m3fn` -/
  | float8E4m3fn
  /-- `torch.float8_e8m0fnu` -/
  | float8E8m0fnu
  /-- `torch.float32` -/
  | float32
  /-- `torch.bfloat16` -/
  | bfloat16
  /-- another one -/
  | other
  deriving DecidableEq

/-- A matrix of numbers. -/
structure WeightTensor (R : Type) : Type where
  /-- `dtype` -/
  dtype : DType
  /-- `shape[1]` -/
  width : ℕ
  /-- its rows -/
  rows : List (List R)
  /-- they are of that width -/
  rect : ∀ row ∈ rows, row.length = width
  deriving DecidableEq

/-- `shape[0]` -/
def WeightTensor.height {R : Type} (t : WeightTensor R) : ℕ := t.rows.length

/-- What torch does with numbers, as far as the loaders use it. -/
structure TorchOps (R : Type) : Type where
  /-- a product in `float32` -/
  mul : R → R → R
  /-- `.to(torch.bfloat16)` -/
  bf16 : R → R
  /-- the type of two tensors that are put together -/
  promote : DType → DType → DType

/-- A tensor and its name. -/
abbrev NamedTensor (R : Type) : Type := TensorName × WeightTensor R

section Tensors

variable {R : Type} (ops : TorchOps R)

/-- `torch.cat([a, b], dim=0)` -/
def catRows (a b : WeightTensor R) : Except LoadError (WeightTensor R) :=
  if h : b.width = a.width then
    .ok {
      dtype := ops.promote a.dtype b.dtype
      width := a.width
      rows := a.rows ++ b.rows
      rect := fun row hrow => (List.mem_append.mp hrow).elim (a.rect row)
        fun hrow => (b.rect row hrow).trans h }
  else .error .shapes

/-- A row of a weight, with the row of scales of its block. -/
def scaleRow (bk : ℕ) (scales row : List R) : List R :=
  row.mapIdx fun j x => (scales[j / bk]?).elim x fun s => ops.bf16 (ops.mul x s)

/-- `_dequant_fp8`. The blocks divide the weight as `rearrange` asks for, and there are as many of
them as there are scales. -/
def dequantFp8 (weight scale : WeightTensor R) : Except LoadError (WeightTensor R) :=
  if weight.dtype ≠ .float8E4m3fn then .error (.assertion "expected fp8_e4m3fn")
  else if scale.dtype ≠ .float8E8m0fnu ∧ scale.dtype ≠ .float32 then
    .error (.assertion "expected fp8_e8m0fnu or float32")
  else
    let bn := weight.height / scale.height
    let bk := weight.width / scale.width
    if bn = 0 ∨ bk = 0 ∨ weight.height ≠ bn * scale.height ∨ weight.width ≠ bk * scale.width then
      .error .shapes
    else
      .ok {
        dtype := .bfloat16
        width := weight.width
        rows := weight.rows.mapIdx fun i row =>
          scaleRow ops bk ((scale.rows[i / bn]?).getD []) row
        rect := by
          intro row hrow
          obtain ⟨i, hi, rfl⟩ := List.mem_mapIdx.mp hrow
          rw [scaleRow, List.length_mapIdx]
          exact weight.rect _ (List.getElem_mem hi) }

/-- `_fuse_deepseek_v4_wqkv_a_pair` -/
def fuseWqkvAPair [DecidableEq R] (paramName : TensorName) (q kv : WeightTensor R) :
    Except LoadError (WeightTensor R) :=
  if endsWith ".qweight_type".toList paramName then
    if q.rows.flatten.length ≠ 1 ∨ kv.rows.flatten.length ≠ 1 ∨
        q.rows.flatten ≠ kv.rows.flatten then
      .error (.qweightTypes paramName)
    else .ok q
  else catRows ops q kv

end Tensors

/-! ## The scales of `wo_a` -/

/-- The halves that are kept under a name. -/
structure Bucket (R : Type) : Type where
  /-- `"weight"`, or `"q"` -/
  first : Option (WeightTensor R)
  /-- `"scale"`, or `"kv"` -/
  second : Option (WeightTensor R)
  deriving DecidableEq

/-- `{}` -/
def Bucket.empty {R : Type} : Bucket R where
  first := none
  second := none

/-- What `_dequant_fp8_wo_a_streaming` remembers. -/
structure WoAState (R : Type) : Type where
  /-- `pending` -/
  pending : Dict TensorName (Bucket R)
  /-- `saw_wo_a_scale` -/
  sawWoAScale : Bool

/-- The state of the generator before anything has come. -/
def WoAState.start {R : Type} : WoAState R where
  pending := .empty
  sawWoAScale := false

section WoA

variable {R : Type} (ops : TorchOps R)

/-- `pending.setdefault(key, {})` -/
def bucketOf (pending : Dict TensorName (Bucket R)) (key : TensorName) : Bucket R :=
  (pending.get? key).getD .empty

/-- One tensor of the stream, and what is yielded for it. -/
def woAStep (s : WoAState R) (x : NamedTensor R) :
    Except LoadError (WoAState R × List (NamedTensor R)) :=
  if endsWith ".wo_a.weight".toList x.1 then
    let stem := dropEnd ".weight".toList x.1
    let bucket := bucketOf s.pending stem
    match bucket.second with
    | some scale => do
      let t ← dequantFp8 ops x.2 scale
      pure ({ s with pending := s.pending.pop stem }, [(x.1, t)])
    | none =>
      pure ({ s with pending := s.pending.set stem { bucket with first := some x.2 } }, [])
  else if endsWith ".wo_a.scale".toList x.1 then
    let stem := dropEnd ".scale".toList x.1
    let bucket := bucketOf s.pending stem
    match bucket.first with
    | some weight => do
      let t ← dequantFp8 ops weight x.2
      pure ({ pending := s.pending.pop stem, sawWoAScale := true },
        [(stem ++ ".weight".toList, t)])
    | none =>
      pure ({ pending := s.pending.set stem { bucket with second := some x.2 },
              sawWoAScale := true }, [])
  else pure (s, [x])

/-- What is yielded at the end for what is still kept: a weight goes through as it is when the
stream had no scale at all. -/
def woALeftover (sawWoAScale : Bool) (e : TensorName × Bucket R) :
    Except LoadError (List (NamedTensor R)) :=
  if e.2.first.isSome && sawWoAScale then
    .error (.assertion (String.ofList e.1 ++ ".scale is missing"))
  else
    .ok ((e.2.first.map fun t => (e.1 ++ ".weight".toList, t)).toList ++
      (e.2.second.map fun t => (e.1 ++ ".scale".toList, t)).toList)

/-- `_dequant_fp8_wo_a_streaming`, read to its end. -/
def dequantFp8WoAStreaming (weights : List (NamedTensor R)) :
    Except LoadError (List (NamedTensor R)) := do
  let (s, yielded) ← weights.foldlM (StreamJoin.gatherStep (woAStep ops)) (.start, [])
  let left ← s.pending.entries.mapM (woALeftover s.sawWoAScale)
  pure (yielded ++ left.flatten)

/-- The loop of `_dequant_fp8_wo_a` over the names, given how the scale of a weight is named. -/
def dequantNames (scaleName : TensorName → TensorName) : List TensorName →
    Dict TensorName (WeightTensor R) → List (NamedTensor R) →
    Except LoadError (List (NamedTensor R))
  | [], weights, yielded => .ok (yielded ++ weights.entries)
  | name :: names, weights, yielded =>
    match weights.get? name with
    | none => dequantNames scaleName names weights yielded
    | some weight =>
      if !endsWith ".wo_a.weight".toList name then dequantNames scaleName names weights yielded
      else
        match weights.get? (scaleName name) with
        | none => .error (.assertion "scale_name in weights_dict")
        | some scale => do
          let t ← dequantFp8 ops weight scale
          dequantNames scaleName names ((weights.pop name).pop (scaleName name))
            (yielded ++ [(name, t)])

/-- `_dequant_fp8_wo_a`: all the weights are read first. -/
def dequantFp8WoA (weights : List (NamedTensor R)) : Except LoadError (List (NamedTensor R)) :=
  dequantNames ops (replace ".wo_a.weight".toList ".wo_a.scale".toList) (Dict.ofList weights).keys
    (Dict.ofList weights) []

end WoA

/-! ## The loader -/

/-- A tensor that is given to the loader of a parameter. -/
structure Load (R : Type) : Type where
  /-- the name of the parameter -/
  param : TensorName
  /-- which part of it -/
  shard : Shard
  /-- the tensor -/
  tensor : WeightTensor R
  deriving DecidableEq

/-- What the loop of `load_weights` remembers. -/
structure LoadState (R : Type) : Type where
  /-- what has been given to the loaders of the parameters -/
  loads : List (Load R)
  /-- `cache_compressor_weight`: whether it is the `wkv`, and the tensor -/
  cacheCompressorWeight : Dict TensorName (Bool × WeightTensor R)
  /-- `cache_wqkv_a_weight` -/
  cacheWqkvAWeight : Dict TensorName (Bucket R)

/-- The state of the loader before anything has come. -/
def LoadState.start {R : Type} : LoadState R where
  loads := []
  cacheCompressorWeight := .empty
  cacheWqkvAWeight := .empty

namespace LoaderConfig

variable {R : Type} [DecidableEq R] (cfg : LoaderConfig) (ops : TorchOps R)

/-- A half of a compressor. -/
def compressorStep (s : LoadState R) (key : TensorName) (isKv : Bool) (tensor : WeightTensor R) :
    Except LoadError (LoadState R) :=
  match s.cacheCompressorWeight.get? key with
  | none =>
    .ok { s with cacheCompressorWeight := s.cacheCompressorWeight.set key (isKv, tensor) }
  | some (cachedIsKv, cached) =>
    if cachedIsKv = isKv then .error (.assertion "cached_is_kv != is_kv")
    else do
      let fused ← catRows ops (if isKv then tensor else cached) (if isKv then cached else tensor)
      pure { s with
        loads := s.loads ++ [⟨key ++ ".wkv_gate.weight".toList, .whole, fused⟩]
        cacheCompressorWeight := s.cacheCompressorWeight.pop key }

/-- A half of a `wqkv_a`. -/
def wqkvAStep (s : LoadState R) (paramName : TensorName) (isQ : Bool) (tensor : WeightTensor R) :
    Except LoadError (LoadState R) :=
  let bucket := bucketOf s.cacheWqkvAWeight paramName
  if (if isQ then bucket.first else bucket.second).isSome then
    .error (.assertion
      ("duplicate shard " ++ (if isQ then "q" else "kv") ++ " for " ++ String.ofList paramName))
  else
    let bucket : Bucket R :=
      if isQ then { bucket with first := some tensor } else { bucket with second := some tensor }
    match bucket.first, bucket.second with
    | some q, some kv => do
      let fused ← fuseWqkvAPair ops paramName q kv
      if cfg.hasParam paramName then
        pure { s with
          loads := s.loads ++ [⟨paramName, .whole, fused⟩]
          cacheWqkvAWeight := s.cacheWqkvAWeight.pop paramName }
      else .error (.keyError paramName)
    | _, _ => .ok { s with cacheWqkvAWeight := s.cacheWqkvAWeight.set paramName bucket }

/-- One tensor of the loop of `load_weights`. -/
def loadStep (s : LoadState R) (x : NamedTensor R) : Except LoadError (LoadState R) :=
  if cfg.woAFp8 && endsWith ".wo_a.weight".toList x.1 &&
      decide (x.2.dtype ≠ .float8E4m3fn) then
    .error (.woANotFp8 x.1)
  else do
    match ← cfg.route x.1 with
    | .skip => pure s
    | .load param shard => pure { s with loads := s.loads ++ [⟨param, shard, x.2⟩] }
    | .compressor key isKv => compressorStep ops s key isKv x.2
    | .wqkvA paramName isQ => cfg.wqkvAStep ops s paramName isQ x.2

/-- What is asserted before anything is loaded. -/
def checkLayers : Except LoadError Unit :=
  if cfg.isNextn && cfg.numNextnPredictLayers.isNone then
    .error (.valueError "num_nextn_predict_layers is not in the config")
  else if cfg.isNextn && decide (cfg.numNextnPredictLayers ≠ some 1) then
    .error (.assertion "Only 1 nextn layer is supported")
  else if 1 < cfg.numFusedSharedExperts then
    .error (.assertion "num_fused_shared_experts == 1")
  else .ok ()

/-- What is asserted at the end: no half is left. -/
def finishLoad (s : LoadState R) : Except LoadError (List (Load R)) :=
  if s.cacheCompressorWeight.entries = [] then
    if s.cacheWqkvAWeight.entries = [] then .ok s.loads
    else .error (.assertion "len(cache_wqkv_a_weight) == 0")
  else .error (.assertion "len(cache_compressor_weight) == 0")

/-- `load_weights`: what is given to the loaders of the parameters. -/
def loadWeights (weights : List (NamedTensor R)) : Except LoadError (List (Load R)) := do
  cfg.checkLayers
  if cfg.woAFp8 || cfg.expertPack then
    finishLoad (← weights.foldlM (cfg.loadStep ops) .start)
  else
    let (t, s) ← weights.foldlM (StreamJoin.pipeStep (woAStep ops) (cfg.loadStep ops))
      (.start, .start)
    let s ← t.pending.entries.foldlM
      (fun s e => do (← woALeftover t.sawWoAScale e).foldlM (cfg.loadStep ops) s) s
    finishLoad s

end LoaderConfig

end LuzServing

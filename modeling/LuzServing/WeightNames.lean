import Mathlib.Tactic
import Mathlib.Data.List.DropRight

/-!
# The names of a checkpoint's tensors

A checkpoint names its tensors as they were trained, and the loader finds out by the name alone
where a tensor goes: it is renamed (`remapWeightNameToDpskHfFormat`), passed over when its layer is
not on this rank, taken for a shard of a stacked or of an expert parameter, or kept until its other
half comes. `LoaderConfig.route` is that decision, in the order in which the loader makes it.
-/

namespace LuzServing

/-- The name of a tensor. -/
abbrev TensorName : Type := List Char

namespace TensorName

/-- `name.startswith(part)` -/
def startsWith (part name : TensorName) : Bool := part.isPrefixOf name

/-- `name.endswith(part)` -/
def endsWith (part name : TensorName) : Bool := part.isSuffixOf name

/-- `part in name` -/
def contains (part name : TensorName) : Bool := decide (part <:+: name)

/-- What is left to replace, after characters that are part of a match. -/
def replaceFrom (old new : TensorName) : ℕ → TensorName → TensorName
  | _, [] => []
  | skip + 1, _ :: rest => replaceFrom old new skip rest
  | 0, c :: rest =>
    if old.isPrefixOf (c :: rest) then new ++ replaceFrom old new (old.length - 1) rest
    else c :: replaceFrom old new 0 rest

/-- `name.replace(old, new)`, for an `old` that is not empty. -/
def replace (old new name : TensorName) : TensorName := replaceFrom old new 0 name

/-- `name.removeprefix(part)` -/
def removePrefix (part name : TensorName) : TensorName :=
  if startsWith part name then name.drop part.length else name

/-- `name[: -len(part)]` -/
def dropEnd (part name : TensorName) : TensorName := name.take (name.length - part.length)

/-- `name.removesuffix(part)` -/
def removeSuffix (part name : TensorName) : TensorName :=
  if endsWith part name then dropEnd part name else name

/-- What follows the first dot. -/
def afterDot (name : TensorName) : Option TensorName :=
  match name.dropWhile (· != '.') with
  | [] => none
  | _ :: rest => some rest

/-- What comes before the last dot: all of the name where there is none. -/
def beforeLastDot (name : TensorName) : TensorName :=
  if '.' ∈ name then (name.rdropWhile (· != '.')).dropLast else name

/-- `name.rsplit(".", 2)[0]` -/
def rsplitTwo (name : TensorName) : TensorName := beforeLastDot (beforeLastDot name)

end TensorName

open TensorName

/-- The white space that `int` takes off. -/
def isAsciiSpace (c : Char) : Bool := c == ' ' || decide (9 ≤ c.toNat ∧ c.toNat ≤ 13)

/-- The digits of a number, with single underscores between them. -/
def pyDigits : ℕ → List Char → Option ℕ
  | n, [] => some n
  | n, c :: rest =>
    if c.isDigit then pyDigits (10 * n + (c.toNat - 48)) rest
    else if c == '_' then
      match rest with
      | [] => none
      | d :: rest => if d.isDigit then pyDigits (10 * n + (d.toNat - 48)) rest else none
    else none

/-- A number that starts with a digit. -/
def pyNat : List Char → Option ℕ
  | [] => none
  | c :: rest => if c.isDigit then pyDigits (c.toNat - 48) rest else none

/-- `int(text)` for ASCII text; `none` where it raises. -/
def pyInt (text : List Char) : Option ℤ :=
  match (text.dropWhile isAsciiSpace).rdropWhile isAsciiSpace with
  | '-' :: digits => (pyNat digits).map fun n => -(n : ℤ)
  | '+' :: digits => (pyNat digits).map fun n => (n : ℤ)
  | digits => (pyNat digits).map fun n => (n : ℤ)

/-! ## The names of the model -/

/-- `nextn_spec_prefixes` -/
def nextnSpecPrefixes : List TensorName :=
  ["e_proj".toList, "h_proj".toList, "emb".toList, "enorm".toList, "hnorm".toList, "norm".toList,
    "head".toList, "hc_head".toList]

/-- What follows the stage of a tensor of the draft layer. -/
def remapNextnRest (rest : TensorName) : TensorName :=
  if nextnSpecPrefixes.any (startsWith · rest) then
    if startsWith "emb.tok_emb".toList rest then
      replace "emb.tok_emb".toList "embed_tokens".toList rest
    else if rest = "norm.weight".toList then "shared_head.norm.weight".toList
    else if startsWith "head.".toList rest then "shared_head.head.weight".toList
    else if rest = "e_proj.scale".toList then "e_proj.weight_scale_inv".toList
    else if rest = "h_proj.scale".toList then "h_proj.weight_scale_inv".toList
    else rest
  else rest

/-- A scale of a quantised weight takes the name that the model has for it. -/
def scaleInv (here : Bool) (name : TensorName) : TensorName :=
  if here && endsWith ".scale".toList name then
    removeSuffix ".scale".toList name ++ ".weight_scale_inv".toList
  else name

/-- The names of the parts of a layer. -/
def remapLayerName (name : TensorName) : TensorName :=
  let name := if startsWith "layers.".toList name then "model.".toList ++ name else name
  let name := replace ".attn.".toList ".self_attn.".toList name
  let name := replace ".ffn.".toList ".mlp.".toList name
  let name := replace ".attn_norm.".toList ".input_layernorm.".toList name
  let name := replace ".ffn_norm.".toList ".post_attention_layernorm.".toList name
  let name := scaleInv (contains "self_attn".toList name) name
  let name := scaleInv (contains ".engram.wkv.".toList name) name
  let name := replace ".gate.tid2eid".toList ".topk.tid2eid".toList name
  let name := replace ".gate.bias".toList ".gate.e_score_correction_bias".toList name
  let name := replace ".w1.".toList ".gate_proj.".toList name
  let name := replace ".w2.".toList ".down_proj.".toList name
  let name := replace ".w3.".toList ".up_proj.".toList name
  scaleInv (contains "mlp".toList name) name

/-- `remap_weight_name_to_dpsk_hf_format` -/
def remapWeightNameToDpskHfFormat (name : TensorName) (isNextn : Bool) (numHiddenLayers : ℕ) :
    TensorName :=
  if startsWith "vision.".toList name then
    replace ".attn.wo.".toList ".attn.proj.".toList
      (replace ".attn.wqkv.".toList ".attn.qkv_proj.".toList name)
  else if startsWith "aligner.".toList name || startsWith "image_".toList name then name
  else if startsWith "embed.".toList name then
    "model.embed_tokens.".toList ++ removePrefix "embed.".toList name
  else if startsWith "head.".toList name then
    "lm_head.".toList ++ removePrefix "head.".toList name
  else if name = "norm.weight".toList then "model.norm.weight".toList
  else if startsWith "hc_head_".toList name then "model.".toList ++ name
  else if isNextn && startsWith "mtp.".toList name then
    -- `name.split(".", 2)` has three parts when there are two dots
    match (afterDot name).bind afterDot with
    | none => remapLayerName name
    | some rest =>
      remapLayerName ("model.layers.".toList ++ (toString numHiddenLayers).toList ++ ['.'] ++
        remapNextnRest rest)
  else remapLayerName name

/-! ## Where a tensor goes -/

/-- What may go wrong while weights are loaded. -/
inductive LoadError : Type where
  /-- `assert`, with its message -/
  | assertion (message : String)
  /-- `ValueError`, with its message -/
  | valueError (message : String)
  /-- `params_dict[name]` -/
  | keyError (name : TensorName)
  /-- `int(name_list[2])` -/
  | notANumber (text : TensorName)
  /-- the `ValueError` of a `wo_a` weight that is not of `float8_e4m3fn` -/
  | woANotFp8 (name : TensorName)
  /-- the `ValueError` of two GGUF types that differ -/
  | qweightTypes (paramName : TensorName)
  /-- what a tensor operation raises for shapes that do not fit -/
  | shapes
  deriving DecidableEq

/-- Which part of a parameter a tensor is. -/
inductive Shard : Type where
  /-- all of it -/
  | whole
  /-- `shard_id` of a stacked parameter -/
  | stacked (shardId : ℕ)
  /-- `shard_id` of an expert -/
  | expert (expertId : ℕ) (shardId : String)
  deriving DecidableEq

/-- What the loader knows of the model, the rank and the environment. -/
structure LoaderConfig : Type where
  /-- the names of `params_dict` -/
  params : List TensorName
  /-- `is_nextn` -/
  isNextn : Bool
  /-- `config.num_nextn_predict_layers`, where the configuration has it -/
  numNextnPredictLayers : Option ℕ
  /-- `config.num_hidden_layers` -/
  numHiddenLayers : ℕ
  /-- `config.n_routed_experts` -/
  nRoutedExperts : ℕ
  /-- `num_fused_shared_experts` -/
  numFusedSharedExperts : ℕ
  /-- `expert_params_mapping`: parameter, weight, expert and shard -/
  expertParamsMapping : List (TensorName × TensorName × ℕ × String)
  /-- `config.model_type` is `deepseek_v41` -/
  isDsv41 : Bool
  /-- `self.vision` is there -/
  hasVision : Bool
  /-- `get_layer_id`, which is not part of the repository -/
  getLayerId : TensorName → Option ℕ
  /-- `start_layer` and `end_layer`, where the model has them -/
  layers : Option (ℕ × ℕ)
  /-- `pp_group.is_first_rank` -/
  isFirstRank : Bool
  /-- `pp_group.is_last_rank` -/
  isLastRank : Bool
  /-- `SGLANG_OPT_FUSE_WQA_WKV` -/
  fuseWqaWkv : Bool
  /-- `_is_npu` -/
  isNpu : Bool
  /-- `wo_a_fp8` -/
  woAFp8 : Bool
  /-- the quantisation is `expert_pack` -/
  expertPack : Bool

/-- `DEEPSEEK_V4_STACKED_PARAMS_MAPPING` -/
def stackedParamsMapping : List (TensorName × TensorName × ℕ) :=
  [("gate_up_proj".toList, "gate_proj".toList, 0), ("gate_up_proj".toList, "up_proj".toList, 1)]

/-- `nextn_spec_weight_names_out_of_layer` -/
def nextnSpecWeightNamesOutOfLayer : List TensorName :=
  ["shared_head.norm".toList, "shared_head.head".toList, "embed_tokens".toList, ".e_proj".toList,
    "h_proj".toList, "enorm".toList, "hnorm".toList, "hc_head_base".toList, "hc_head_fn".toList,
    "hc_head_scale".toList]

/-- What becomes of a tensor of the checkpoint. -/
inductive Route : Type where
  /-- it is passed over -/
  | skip
  /-- it goes into a parameter as it is -/
  | load (param : TensorName) (shard : Shard)
  /-- it is a half of a compressor's `wkv_gate` -/
  | compressor (key : TensorName) (isKv : Bool)
  /-- it is a half of a `wqkv_a` -/
  | wqkvA (paramName : TensorName) (isQ : Bool)
  deriving DecidableEq

namespace LoaderConfig

variable (cfg : LoaderConfig)

/-- `name in params_dict` -/
def hasParam (name : TensorName) : Bool := cfg.params.elem name

/-- `nextn_layer_prefix` -/
def nextnLayerPrefix : TensorName :=
  "model.layers.".toList ++
    (toString (if cfg.numHiddenLayers = 1 then 0 else cfg.numHiddenLayers)).toList

/-- `skip_group is not None` -/
def skipsGroup (name : TensorName) : Bool :=
  cfg.isDsv41 && !cfg.hasVision &&
    (startsWith "vision.".toList name || startsWith "aligner.".toList name ||
      startsWith "image_".toList name ||
      endsWith ".gate.e_score_correction_bias_vl".toList name)

/-- The layer of the tensor is on another rank. -/
def offRank (name : TensorName) : Bool :=
  match cfg.getLayerId name, cfg.layers with
  | some layerId, some (startLayer, endLayer) =>
    decide (layerId < startLayer) || decide (endLayer ≤ layerId)
  | _, _ => false

/-- The shared experts are one more expert. -/
def fuseSharedExperts (name : TensorName) : TensorName :=
  if 0 < cfg.numFusedSharedExperts ∧ contains "mlp.shared_experts".toList name then
    replace "mlp.shared_experts".toList
      ("mlp.experts.".toList ++ (toString cfg.nRoutedExperts).toList) name
  else name

/-- A tensor of the draft layers, for a model that is not the draft. -/
def isDraftTensor (name : TensorName) : Except LoadError Bool :=
  match cfg.numNextnPredictLayers with
  | none => .ok false
  | some numNextnLayers => do
    let behind ←
      if 0 < numNextnLayers ∧ startsWith "model.layers".toList name then
        match name.splitOn '.' with
        | _ :: _ :: layer :: _ =>
          match pyInt layer with
          | none => .error (.notANumber layer)
          | some layer => .ok (decide ((cfg.numHiddenLayers : ℤ) ≤ layer))
        | _ => .ok false
      else .ok false
    pure (behind || startsWith "mtp".toList name)

/-- The name of a tensor of the draft layer within the draft; `none` where it is passed over. -/
def nextnName (name : TensorName) : Option TensorName :=
  if contains "shared_head.head".toList name || contains "embed_tokens".toList name then none
  else if !startsWith cfg.nextnLayerPrefix name then none
  else if nextnSpecWeightNamesOutOfLayer.any (contains · name) then
    some (replace cfg.nextnLayerPrefix "model".toList name)
  else some (replace cfg.nextnLayerPrefix "model.decoder".toList name)

/-- The name that is looked for among the parameters; `none` where the tensor is passed over. -/
def modelName (name : TensorName) : Except LoadError (Option TensorName) :=
  let name := remapWeightNameToDpskHfFormat name cfg.isNextn cfg.numHiddenLayers
  if cfg.skipsGroup name || cfg.offRank name then .ok none
  else
    let name := cfg.fuseSharedExperts name
    if cfg.isNextn then .ok (cfg.nextnName name)
    else do
      if ← cfg.isDraftTensor name then pure none else pure (some name)

/-- What an NPU calls the packed weights. -/
def npuName (name : TensorName) : TensorName :=
  if cfg.isNpu then replace "weight_packed".toList "weight".toList name else name

/-- The stacked parameters, one after the other; where none takes the tensor, its name as the loop
leaves it. -/
def stackedRoute :
    List (TensorName × TensorName × ℕ) → TensorName → Except LoadError (Route ⊕ TensorName)
  | [], name => .ok (.inr name)
  | (paramName, weightName, shardId) :: mapping, name =>
    if !contains weightName name then stackedRoute mapping name
    else
      let name := cfg.npuName name
      if contains "mlp.experts.".toList name && !cfg.hasParam name then
        stackedRoute mapping name
      else
        let name := replace weightName paramName name
        if endsWith ".bias".toList name && !cfg.hasParam name then
          stackedRoute mapping name
        else if !cfg.hasParam name && startsWith "mtp".toList name then .ok (.inl .skip)
        else if cfg.hasParam name then .ok (.inl (.load name (.stacked shardId)))
        else .error (.keyError name)

/-- The parameters of the experts, one after the other; where none takes the tensor, its name, and
whether a parameter that it would go into is not there. -/
def expertRoute : List (TensorName × TensorName × ℕ × String) → TensorName → Bool →
    Route ⊕ TensorName × Bool
  | [], name, skipped => .inr (name, skipped)
  | (paramName, weightName, expertId, shardId) :: mapping, name, skipped =>
    if !contains weightName name then expertRoute mapping name skipped
    else
      let name := cfg.npuName name
      let resolved := replace weightName paramName name
      if cfg.hasParam resolved then .inl (.load resolved (.expert expertId shardId))
      else expertRoute mapping name true

/-- The name is that of a parameter of another rank. -/
def otherRank (name : TensorName) : Bool :=
  contains ".embed_tokens.".toList name && !cfg.isFirstRank ||
  name == "model.norm.weight".toList && !cfg.isLastRank ||
  (startsWith "model.hc_head_".toList name || name == "lm_head.weight".toList) && !cfg.isLastRank

/-- A half of a compressor, where the model owns the two in one. -/
def isCompressorPart (name : TensorName) : Bool :=
  contains ".compressor.w".toList name && !contains ".wkv_gate.".toList name &&
    cfg.hasParam (rsplitTwo name ++ ".wkv_gate.weight".toList)

/-- The tensors that `wqkv_a` is made of. -/
def isWqkvAPart (name : TensorName) : Bool :=
  cfg.fuseWqaWkv && !contains ".compressor.".toList name && !contains ".engram.".toList name &&
    (endsWith ".wq_a.weight".toList name || endsWith ".wq_a.weight_scale_inv".toList name ||
      endsWith ".wkv.weight".toList name || endsWith ".wkv.weight_scale_inv".toList name ||
      endsWith ".wq_a.qweight".toList name || endsWith ".wkv.qweight".toList name ||
      endsWith ".wq_a.qweight_type".toList name || endsWith ".wkv.qweight_type".toList name)

/-- The scales of keys and values, in the attention that has them. -/
def scaleName (name : TensorName) : TensorName :=
  if !cfg.hasParam name then
    if contains "k_scale".toList name then replace "k_proj".toList "attn_mqa".toList name
    else if contains "v_scale".toList name then replace "v_proj".toList "attn_mqa".toList name
    else name
  else name

/-- A tensor that neither mapping takes. -/
def plainRoute (name : TensorName) (skipped : Bool) : Except LoadError Route :=
  if skipped then .ok .skip
  else if endsWith ".bias".toList name && !cfg.hasParam name then .ok .skip
  else if cfg.otherRank name then .ok .skip
  else if cfg.isCompressorPart name then
    if endsWith ".wkv.weight".toList name = endsWith ".wgate.weight".toList name then
      .error (.assertion "is_kv != is_wgate")
    else if !endsWith ".compressor".toList (rsplitTwo name) then
      .error (.assertion "key.endswith(\".compressor\")")
    else .ok (.compressor (rsplitTwo name) (endsWith ".wkv.weight".toList name))
  else if cfg.isWqkvAPart name then
    let isQ := contains ".wq_a.".toList name
    .ok (.wqkvA (replace (if isQ then ".wq_a.".toList else ".wkv.".toList) ".wqkv_a.".toList name)
      isQ)
  else
    let name := cfg.scaleName name
    if cfg.hasParam name then .ok (.load name .whole) else .ok .skip

/-- What becomes of a tensor, by its name in the checkpoint. -/
def route (name : TensorName) : Except LoadError Route := do
  match ← cfg.modelName name with
  | none => pure .skip
  | some name =>
    if contains "rotary_emb.inv_freq".toList name then pure .skip
    else
      match ← cfg.stackedRoute stackedParamsMapping name with
      | .inl found => pure found
      | .inr name =>
        match cfg.expertRoute cfg.expertParamsMapping name false with
        | .inl found => pure found
        | .inr (name, skipped) => cfg.plainRoute name skipped

end LoaderConfig

end LuzServing

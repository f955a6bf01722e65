import LuzServing.DecodeVariants
import LuzServing.PartialMaps
import LuzServing.SlotPages
import LuzServing.WindowBudget

/-!
# The pools of the compressed ratios

The latents of a compress ratio are in two pools, the KV pool and the indexer's K pool, and a token
of the full pool at `loc` has its slot `loc // ratio` in both. The low ratios cut the index pool
into pages of 64 slots, so a page of the full pool is one page of the KV pool and a run of index
pages. The transfer between servers relies on this: it addresses every buffer by pages of the full
pool (`getContiguousBufInfos`).

It moves a page's own slots and no others exactly when the ratio divides the page size
(`linesUp_iff`). An odd page size passes the assertion of the transfer and does not line up
(`not_linesUp`).
-/

namespace LuzServing

/-! ## Buffers -/

/-- A buffer of a compressed ratio: what a `data_ptr` points to. -/
inductive CompressedBuffer : Type where
  /-- `kv_buffer` of a layer -/
  | kv (ratio layer : ℕ)
  /-- `index_k_with_scale_buffer` of a layer -/
  | indexK (ratio layer : ℕ)
  /-- `index_k_payload_buffer` of a layer -/
  | indexPayload (ratio layer : ℕ)
  /-- `index_k_scale_buffer` of a layer -/
  | indexScale (ratio layer : ℕ)
  deriving DecidableEq

/-- The ratio of a buffer's pool. -/
def CompressedBuffer.ratio : CompressedBuffer → ℕ
  | kv ratio _ | indexK ratio _ | indexPayload ratio _ | indexScale ratio _ => ratio

/-- A buffer of page rows: `num_pages` rows of bytes. -/
structure PageRows : Type where
  /-- `data_ptr` -/
  buffer : CompressedBuffer
  /-- `buf.shape[0]` -/
  numPages : ℕ
  /-- `buf[0].nbytes` -/
  rowBytes : ℕ

/-- `buf.nbytes` -/
def PageRows.nbytes (buf : PageRows) : ℕ := buf.numPages * buf.rowBytes

/-- What is reported of a buffer: an entry of `data_ptrs`, of `data_lens` and of `item_lens`. -/
structure BufInfo : Type where
  /-- `data_ptr` -/
  buffer : CompressedBuffer
  /-- `data_len` -/
  dataLen : ℕ
  /-- `item_len` -/
  itemLen : ℕ

/-! ## The pools -/

/-- `DeepSeekV4SingleKVPool` -/
structure SingleKVPool : Type where
  /-- `size` -/
  size : ℕ
  /-- `page_size` -/
  pageSize : ℕ
  /-- no page count divides by zero -/
  pageSize_pos : 0 < pageSize
  /-- `layer_num` -/
  layerNum : ℕ
  /-- `kv_layout` -/
  kvLayout : KVLayout

/-- `DeepSeekV4IndexerPool` -/
structure IndexerPool : Type where
  /-- `size` -/
  size : ℕ
  /-- `page_size` -/
  pageSize : ℕ
  /-- no page count divides by zero -/
  pageSize_pos : 0 < pageSize
  /-- `index_head_dim` -/
  indexHeadDim : ℕ
  /-- `layer_num` -/
  layerNum : ℕ
  /-- `use_fp4_indexer` -/
  useFp4Indexer : Bool
  /-- `uses_aiter_fp4_layout` -/
  usesAiterFp4Layout : Bool

/-- `_make_kv_pool` -/
def makeKvPool (size pageSize layerNum : ℕ) (kvLayout : KVLayout) : Option SingleKVPool :=
  if h : 0 < pageSize then some ⟨size, pageSize, h, layerNum, kvLayout⟩ else none

/-- `_make_indexer_pool` -/
def makeIndexerPool (isHip deploymentFp4 : Bool) (size pageSize indexHeadDim layerNum : ℕ)
    (forceFp4 : Bool) : Option IndexerPool :=
  let useFp4 := forceFp4 || deploymentFp4
  if h : 0 < pageSize then
    some ⟨size, pageSize, h, indexHeadDim, layerNum, useFp4, isHip && useFp4⟩
  else none

/-- `get_dsv4_indexer_bytes_per_token`: the payload and the scales. -/
def indexerBytesPerToken (indexHeadDim : ℕ) (useFp4Indexer : Bool) : ℕ :=
  if useFp4Indexer then indexHeadDim / 2 + indexHeadDim / 32
  else indexHeadDim + indexHeadDim / 128 * 4

/-- `kv_buffer` of the pool of a ratio, from `_create_buffers`. -/
def SingleKVPool.kvBuffer (pool : SingleKVPool) (ratio : ℕ) : List PageRows :=
  (List.range pool.layerNum).map fun layer =>
    ⟨.kv ratio layer, poolPages pool.size pool.pageSize,
      (pool.kvLayout.pageBytes pool.pageSize).toNat⟩

namespace IndexerPool

variable (pool : IndexerPool)

/-- `num_pages` of `_create_buffer` -/
def numPages : ℕ := poolPages pool.size pool.pageSize

/-- `page_bytes` of `_create_buffer` -/
def pageBytes : ℕ := pool.pageSize * indexerBytesPerToken pool.indexHeadDim pool.useFp4Indexer

/-- `contiguous_page_row_buffers`, of the buffers that `_create_buffer` makes: payload and scale
fused, or all payloads and then all scales. -/
def contiguousPageRowBuffers (ratio : ℕ) : List PageRows :=
  if !pool.usesAiterFp4Layout then
    (List.range pool.layerNum).map fun layer => ⟨.indexK ratio layer, pool.numPages, pool.pageBytes⟩
  else
    ((List.range pool.layerNum).map fun layer =>
      ⟨.indexPayload ratio layer, pool.numPages, 1 * 4 * pool.pageSize * 16⟩) ++
    (List.range pool.layerNum).map fun layer =>
      ⟨.indexScale ratio layer, pool.numPages, 1 * 4 * pool.pageSize⟩

end IndexerPool

/-- What `_init_compressed_pools` builds from. -/
structure CompressedConfig : Type where
  /-- how many layers own storage of a ratio, `len(sources_by_ratio[ratio])` -/
  sources : ℕ → ℕ
  /-- `c4_size` -/
  c4Size : ℕ
  /-- `c128_size` -/
  c128Size : ℕ
  /-- `c4_logical_size` -/
  c4LogicalSize : ℕ
  /-- `full_size` -/
  fullSize : Option ℕ
  /-- `page_size` -/
  pageSize : ℕ
  /-- `compressed_kv_layout`, where its assertion holds -/
  compressedKvLayout : ℕ → Option KVLayout
  /-- `indexer_head_dim` -/
  indexerHeadDim : ℕ
  /-- `enable_deepseek_v4_fp4_indexer` -/
  enableFp4Indexer : Bool
  /-- `_is_hip` -/
  isHip : Bool

/-- The registries of the pools, by ratio. -/
structure CompressedPools : Type where
  /-- `page_size` -/
  pageSize : ℕ
  /-- `kv_pools` -/
  kvPools : List (ℕ × SingleKVPool)
  /-- `index_pools` -/
  indexPools : List (ℕ × IndexerPool)

namespace CompressedConfig

variable (c : CompressedConfig)

/-- The ratios of `sources_by_ratio`, in its order. -/
def ratios : List ℕ := [4, 128, 1, 2].filter fun ratio => 0 < c.sources ratio

/-- The KV pool of a ratio. -/
def kvPool (ratio : ℕ) : Option SingleKVPool := do
  let size ←
    if ratio = 4 then some c.c4Size
    else if ratio = 128 then some c.c128Size
    else c.fullSize.map (· / ratio)
  let kvLayout ← c.compressedKvLayout ratio
  makeKvPool size (c.pageSize / ratio) (c.sources ratio) kvLayout

/-- The index pool of a ratio. -/
def indexPool (ratio : ℕ) : Option IndexerPool :=
  if ratio = 4 then
    makeIndexerPool c.isHip c.enableFp4Indexer c.c4LogicalSize (c.pageSize / 4) c.indexerHeadDim
      (c.sources ratio) false
  else do
    let fullSize ← c.fullSize
    makeIndexerPool c.isHip c.enableFp4Indexer ((fullSize + c.pageSize) / ratio) indexPageSize
      c.indexerHeadDim (c.sources ratio) true

/-- `_init_compressed_pools`, `none` if an assertion fails or a page count divides by zero. -/
def initCompressedPools : Option CompressedPools :=
  if c.ratios.any (fun ratio => ratio = 1 || ratio = 2) && c.fullSize.isNone then none
  else do
    let kvPools ← c.ratios.mapM fun ratio => (c.kvPool ratio).map (Prod.mk ratio)
    let indexPools ←
      (c.ratios.filter (· ≠ 128)).mapM fun ratio => (c.indexPool ratio).map (Prod.mk ratio)
    pure ⟨c.pageSize, kvPools, indexPools⟩

end CompressedConfig

/-! ## What is reported for the transfer -/

namespace CompressedPools

variable (pools : CompressedPools)

/-- The buffers of a ratio in `get_contiguous_buf_infos`. -/
def ratioBufInfos (ratio : ℕ) : Option (List BufInfo) :=
  match pools.kvPools.lookup ratio with
  | none => some []
  | some kvPool =>
    let kvInfos := (kvPool.kvBuffer ratio).map fun buf => ⟨buf.buffer, buf.nbytes, buf.rowBytes⟩
    match pools.indexPools.lookup ratio with
    | none => some kvInfos
    | some indexPool =>
      let slotsPerFullPage := pools.pageSize / ratio
      if slotsPerFullPage % indexPool.pageSize ≠ 0 then none
      else
        let indexPagesPerFullPage := slotsPerFullPage / indexPool.pageSize
        some (kvInfos ++ (indexPool.contiguousPageRowBuffers ratio).map fun buf =>
          ⟨buf.buffer, buf.nbytes, buf.rowBytes * indexPagesPerFullPage⟩)

/-- `get_contiguous_buf_infos`, `none` if the index pages of a ratio do not tile its pages. -/
def getContiguousBufInfos : Option (List BufInfo) :=
  ([4, 128, 1, 2].mapM pools.ratioBufInfos).map List.flatten

end CompressedPools

/-! ## Where the bytes of a slot are -/

/-- The pages of a KV pool. -/
def SingleKVPool.slotPages (pool : SingleKVPool) : SlotPages :=
  (pool.kvLayout.pages pool.pageSize_pos).slotPages

namespace IndexerPool

variable (pool : IndexerPool)

/-- The payload and the scales of an index slot in a fused page. -/
def width : Region → ℕ
  | .data => if pool.useFp4Indexer then pool.indexHeadDim / 2 else pool.indexHeadDim
  | .scale => if pool.useFp4Indexer then pool.indexHeadDim / 32 else pool.indexHeadDim / 128 * 4

theorem width_add : pool.width .data + pool.width .scale =
    indexerBytesPerToken pool.indexHeadDim pool.useFp4Indexer := by
  simp only [width, indexerBytesPerToken]
  cases pool.useFp4Indexer <;> rfl

/-- A fused page: the payloads of its slots, then their scales. -/
def fusedPages : FooterPages where
  slots := pool.pageSize
  slots_pos := pool.pageSize_pos
  width := pool.width
  stride := pool.pageBytes
  fits := (congrArg (pool.pageSize * ·) pool.width_add).le

/-- A page of payloads: 16 bytes of a slot in each of 4 groups. -/
def payloadPages : SlotPages := groupedPages pool.pageSize 4 16 pool.pageSize_pos

/-- A page of scales: a byte of a slot in each of 4 groups. -/
def scalePages : SlotPages := groupedPages pool.pageSize 4 1 pool.pageSize_pos

/-- `get_index_k_fp4`: the row and the first columns of a slot's payload and scales. -/
def getIndexKFp4Columns (slot : ℕ) : ℕ × ℕ × ℕ :=
  let off := slot % pool.pageSize
  (slot / pool.pageSize, off * 64, pool.pageSize * 64 + off * 4)

/-- What `get_index_k_fp4` reads, 64 bytes and 4, are the slot's rows in the fused pages. -/
theorem getIndexKFp4Columns_eq (hdim : pool.indexHeadDim = 128) (hfp4 : pool.useFp4Indexer = true)
    (slot : ℕ) : ∃ page payload scale, pool.getIndexKFp4Columns slot = (page, payload, scale) ∧
      pool.fusedPages.row .data slot =
        Set.Ico (page * pool.pageBytes + payload) (page * pool.pageBytes + payload + 64) ∧
      pool.fusedPages.row .scale slot =
        Set.Ico (page * pool.pageBytes + scale) (page * pool.pageBytes + scale + 4) := by
  have hdata : pool.width .data = 64 := by
    rw [width.eq_def, hdim, hfp4]
    rfl
  have hscale : pool.width .scale = 4 := by
    rw [width.eq_def, hdim, hfp4]
    rfl
  refine ⟨_, _, _, rfl, ?_, ?_⟩
  · simp only [FooterPages.row, FooterPages.rowStart, FooterPages.inPage, FooterPages.base_data,
      fusedPages, hdata, Nat.zero_add]
  · simp only [FooterPages.row, FooterPages.rowStart, FooterPages.inPage, FooterPages.base_scale,
      fusedPages, hdata, hscale]

end IndexerPool

/-- The pages of a buffer. -/
def CompressedPools.slotPages (pools : CompressedPools) : CompressedBuffer → Option SlotPages
  | .kv ratio _ => (pools.kvPools.lookup ratio).map SingleKVPool.slotPages
  | .indexK ratio _ => (pools.indexPools.lookup ratio).map fun pool => pool.fusedPages.slotPages
  | .indexPayload ratio _ => (pools.indexPools.lookup ratio).map IndexerPool.payloadPages
  | .indexScale ratio _ => (pools.indexPools.lookup ratio).map IndexerPool.scalePages

/-! ## Lining up -/

namespace BufInfo

variable (info : BufInfo)

/-- The bytes that the transfer moves for page `g` of the full pool. -/
def item (g : ℕ) : Set ℕ := Set.Ico (g * info.itemLen) ((g + 1) * info.itemLen)

/-- The bytes that the transfer moves for a set of pages. -/
def moved (full : Set ℕ) : Set ℕ := ⋃ g ∈ full, info.item g

/-- The items of a buffer line up with the pages of the full pool: locations are tokens of the full
pool, whose page `loc / pageSize` is, and whose slot in the buffer is `loc / ratio`. -/
structure LinesUp (pages : SlotPages) (pageSize fullSize ratio : ℕ) : Prop where
  /-- the item of a page is in the buffer -/
  inside : ∀ g, g ≤ fullSize / pageSize → info.item g ⊆ Set.Ico 0 info.dataLen
  /-- it is the bytes of the page's locations and page padding -/
  holds : ∀ g, g ≤ fullSize / pageSize → info.item g =
    (⋃ loc, ⋃ (_ : loc / pageSize = g), pages.bytes (loc / ratio)) ∪
      info.item g ∩ ⋃ p, pages.padding p
  /-- and nothing of another location -/
  others : ∀ g, g ≤ fullSize / pageSize → ∀ loc, loc / pageSize ≠ g →
    Disjoint (pages.bytes (loc / ratio)) (info.item g)
  /-- the items of two pages do not meet -/
  disjoint : ∀ g g', g ≠ g' → Disjoint (info.item g) (info.item g')
  /-- so a location moves with its page, whole or not at all -/
  moves : ∀ full : Set ℕ, (∀ g ∈ full, g ≤ fullSize / pageSize) → ∀ loc,
    (loc / pageSize ∈ full → pages.bytes (loc / ratio) ⊆ info.moved full) ∧
      (loc / pageSize ∉ full → Disjoint (pages.bytes (loc / ratio)) (info.moved full))

end BufInfo

/-- The pools of a ratio hold all locations, and their buffers line up with the full pool. -/
structure CompressedPools.LinesUp (pools : CompressedPools) (infos : List BufInfo)
    (fullSize ratio : ℕ) : Prop where
  /-- every location has a KV slot in an allocated page -/
  kv : ∀ loc, loc < fullSize + pools.pageSize → ∃ pool, pools.kvPools.lookup ratio = some pool ∧
    loc / ratio / pool.pageSize < poolPages pool.size pool.pageSize
  /-- and an index slot -/
  index : ∀ loc, loc < fullSize + pools.pageSize →
    ∃ pool, pools.indexPools.lookup ratio = some pool ∧ loc / ratio / pool.pageSize < pool.numPages
  /-- all reported buffers line up -/
  buffers : ∀ info ∈ infos, info.buffer.ratio = ratio →
    ∃ pages, pools.slotPages info.buffer = some pages ∧
      info.LinesUp pages pools.pageSize fullSize ratio

/-! ## What is built -/

/-- The two pools of a low ratio. -/
structure CompressedPools.Low (pools : CompressedPools) (fullSize ratio : ℕ) (kv : SingleKVPool)
    (index : IndexerPool) : Prop where
  /-- the KV pool -/
  kv_lookup : pools.kvPools.lookup ratio = some kv
  /-- its slots -/
  kv_size : kv.size = fullSize / ratio
  /-- its pages -/
  kv_pageSize : kv.pageSize = pools.pageSize / ratio
  /-- the index pool -/
  index_lookup : pools.indexPools.lookup ratio = some index
  /-- its slots, those of the reserved page too -/
  index_size : index.size = (fullSize + pools.pageSize) / ratio
  /-- its pages -/
  index_pageSize : index.pageSize = indexPageSize

namespace CompressedConfig

variable {c : CompressedConfig} {pools : CompressedPools} {fullSize ratio : ℕ}

theorem makeKvPool_eq_some {size pageSize layerNum : ℕ} {kvLayout : KVLayout}
    {pool : SingleKVPool} (h : makeKvPool size pageSize layerNum kvLayout = some pool) :
    pool.size = size ∧ pool.pageSize = pageSize ∧ pool.layerNum = layerNum := by
  rw [makeKvPool] at h
  split at h
  · obtain rfl := Option.some.inj h
    exact ⟨rfl, rfl, rfl⟩
  · cases h

theorem makeIndexerPool_eq_some {isHip deploymentFp4 forceFp4 : Bool}
    {size pageSize indexHeadDim layerNum : ℕ} {pool : IndexerPool}
    (h : makeIndexerPool isHip deploymentFp4 size pageSize indexHeadDim layerNum forceFp4 =
      some pool) : pool.size = size ∧ pool.pageSize = pageSize := by
  rw [makeIndexerPool] at h
  split at h
  · obtain rfl := Option.some.inj h
    exact ⟨rfl, rfl⟩
  · cases h

/-- The pools of a low ratio are built with the full pool's size. -/
theorem initCompressedPools_low (h : c.initCompressedPools = some pools)
    (hfull : c.fullSize = some fullSize) (hlow : ratio = 1 ∨ ratio = 2)
    (hsources : 0 < c.sources ratio) :
    pools.pageSize = c.pageSize ∧
      ∃ kv index, pools.Low fullSize ratio kv index ∧ kv.layerNum = c.sources ratio := by
  rw [initCompressedPools] at h
  split at h
  · cases h
  obtain ⟨kvPools, hkv, h⟩ := Option.bind_eq_some_iff.mp h
  obtain ⟨indexPools, hindex, h⟩ := Option.bind_eq_some_iff.mp h
  obtain rfl := Option.some.inj h
  have hmem : ratio ∈ c.ratios := by
    refine List.mem_filter.mpr ⟨?_, decide_eq_true hsources⟩
    rcases hlow with rfl | rfl <;> decide
  have hne : ratio ≠ 4 ∧ ratio ≠ 128 := by omega
  obtain ⟨kv, hkvPool, hkvLookup⟩ := lookup_mapM hkv hmem
  obtain ⟨index, hindexPool, hindexLookup⟩ :=
    lookup_mapM hindex (List.mem_filter.mpr ⟨hmem, decide_eq_true hne.2⟩)
  rw [kvPool, if_neg hne.1, if_neg hne.2, hfull] at hkvPool
  obtain ⟨size, hsize, hkvPool⟩ := Option.bind_eq_some_iff.mp hkvPool
  obtain rfl : fullSize / ratio = size := Option.some.inj hsize
  obtain ⟨kvLayout, -, hkvMade⟩ := Option.bind_eq_some_iff.mp hkvPool
  obtain ⟨hkvSize, hkvPage, hlayers⟩ := makeKvPool_eq_some hkvMade
  rw [indexPool, if_neg hne.1, hfull, Option.bind_eq_bind, Option.bind_some] at hindexPool
  obtain ⟨hindexSize, hindexPage⟩ := makeIndexerPool_eq_some hindexPool
  exact ⟨rfl, kv, index,
    ⟨hkvLookup, hkvSize, hkvPage, hindexLookup, hindexSize, hindexPage⟩, hlayers⟩

end CompressedConfig

/-! ## What is reported -/

/-- A run of `k` pages for each page of the full pool, and enough pages. -/
theorem BufInfo.linesUp {info : BufInfo} {pages : SlotPages} {pageSize fullSize ratio k n : ℕ}
    (hratio : 0 < ratio) (hk : 0 < k) (hpage : pageSize = ratio * (pages.slots * k))
    (hlen : info.dataLen = n * pages.stride) (hitem : info.itemLen = pages.stride * k)
    (hroom : (fullSize / pageSize + 1) * k ≤ n) : info.LinesUp pages pageSize fullSize ratio := by
  have hrun : ∀ g, info.item g = pages.run k g := fun g => by
    rw [BufInfo.item, SlotPages.run, hitem]
  have hslot : ∀ loc, loc / pageSize = loc / ratio / (pages.slots * k) := fun loc => by
    rw [hpage, Nat.div_div_eq_div_mul]
  have hin : ∀ loc, pages.bytes (loc / ratio) ⊆ info.item (loc / pageSize) := fun loc => by
    rw [hrun, hslot]
    exact SlotPages.bytes_subset_run hk _
  have hout : ∀ loc g, loc / pageSize ≠ g → Disjoint (pages.bytes (loc / ratio)) (info.item g) :=
    fun loc g hne => by
      rw [hrun]
      exact SlotPages.disjoint_run hk (hslot loc ▸ hne)
  refine ⟨fun g hg => ?_, fun g _ => ?_, fun g _ loc => hout loc g, fun g g' hne => ?_,
    fun full _ loc => ⟨fun hmem => ?_, fun hmem => ?_⟩⟩
  · rw [hrun, hlen]
    exact SlotPages.run_subset ((Nat.mul_le_mul_right k (Nat.succ_le_succ hg)).trans hroom)
  · refine Set.Subset.antisymm (fun a ha => ?_) ?_
    · have hparts := ha
      rw [hrun, SlotPages.run_eq hk] at hparts
      rcases hparts with hbyte | hpad
      · -- every slot of the run is that of a location of the page
        obtain ⟨s, hs, hbyte⟩ := Set.mem_iUnion₂.mp hbyte
        have hloc : s * ratio / ratio = s := Nat.mul_div_cancel _ hratio
        refine .inl (Set.mem_iUnion₂.mpr ⟨s * ratio, ?_, ?_⟩)
        · rw [hslot, hloc, hs]
        · rwa [hloc]
      · obtain ⟨p, -, hpad⟩ := Set.mem_iUnion₂.mp hpad
        exact .inr ⟨ha, Set.mem_iUnion.mpr ⟨p, hpad⟩⟩
    · refine Set.union_subset (Set.iUnion₂_subset ?_) Set.inter_subset_left
      rintro loc rfl
      exact hin loc
  · rw [hrun, hrun]
    exact SlotPages.run_disjoint k hne
  · exact (hin loc).trans (Set.subset_biUnion_of_mem (u := info.item) hmem)
  · refine Set.disjoint_iUnion₂_right.mpr fun g hg => hout loc g ?_
    rintro rfl
    exact hmem hg

namespace CompressedPools

variable {pools : CompressedPools} {m fullSize ratio : ℕ} {kv : SingleKVPool} {index : IndexerPool}
  {part infos : List BufInfo}

/-- What is reported of a buffer of a KV pool: a row is a page of the full pool. -/
def kvInfo (buf : PageRows) : BufInfo := ⟨buf.buffer, buf.nbytes, buf.rowBytes⟩

/-- What is reported of a buffer of an index pool with `k` pages for a page of the full pool. -/
def indexInfo (k : ℕ) (buf : PageRows) : BufInfo := ⟨buf.buffer, buf.nbytes, buf.rowBytes * k⟩

/-- Each buffer that is listed for a ratio belongs to the KV pool or to the index pool of the
ratio. -/
theorem mem_ratioBufInfos (h : pools.ratioBufInfos ratio = some part) {info : BufInfo}
    (hinfo : info ∈ part) :
    (∃ kv, pools.kvPools.lookup ratio = some kv ∧ ∃ buf ∈ kv.kvBuffer ratio, info = kvInfo buf) ∨
      ∃ index, pools.indexPools.lookup ratio = some index ∧
        ∃ buf ∈ index.contiguousPageRowBuffers ratio,
          info = indexInfo (pools.pageSize / ratio / index.pageSize) buf := by
  rw [ratioBufInfos] at h
  cases hkv : pools.kvPools.lookup ratio with
  | none =>
    rw [hkv] at h
    obtain rfl := Option.some.inj h
    cases hinfo
  | some kv =>
    rw [hkv] at h
    cases hindex : pools.indexPools.lookup ratio with
    | none =>
      rw [hindex] at h
      obtain rfl := Option.some.inj h
      obtain ⟨buf, hbuf, rfl⟩ := List.mem_map.mp hinfo
      exact .inl ⟨kv, rfl, buf, hbuf, rfl⟩
    | some index =>
      simp only [hindex] at h
      split at h
      · cases h
      · obtain rfl := Option.some.inj h
        rcases List.mem_append.mp hinfo with hinfo | hinfo
        · obtain ⟨buf, hbuf, rfl⟩ := List.mem_map.mp hinfo
          exact .inl ⟨kv, rfl, buf, hbuf, rfl⟩
        · obtain ⟨buf, hbuf, rfl⟩ := List.mem_map.mp hinfo
          exact .inr ⟨index, rfl, buf, hbuf, rfl⟩

/-- The pools of a low ratio pass the assertion, and its KV buffers are reported. -/
theorem Low.ratioBufInfos (hlow : pools.Low fullSize ratio kv index)
    (h : pools.ratioBufInfos ratio = some part) :
    indexPageSize ∣ pools.pageSize / ratio ∧ ∀ buf ∈ kv.kvBuffer ratio, kvInfo buf ∈ part := by
  simp only [CompressedPools.ratioBufInfos, hlow.kv_lookup, hlow.index_lookup] at h
  split at h
  · cases h
  next htile =>
    obtain rfl := Option.some.inj h
    rw [hlow.index_pageSize, not_not] at htile
    refine ⟨Nat.dvd_of_mod_eq_zero htile, fun buf hbuf => List.mem_append_left _ ?_⟩
    exact List.mem_map.mpr ⟨buf, hbuf, rfl⟩

theorem mem_kvBuffer {buf : PageRows} : buf ∈ kv.kvBuffer ratio ↔ ∃ layer, layer < kv.layerNum ∧
    buf = ⟨.kv ratio layer, poolPages kv.size kv.pageSize, kv.slotPages.stride⟩ := by
  rw [SingleKVPool.kvBuffer, List.mem_map]
  simp only [List.mem_range, KVLayout.pageBytes_eq, Int.toNat_natCast]
  exact ⟨fun ⟨layer, hlt, h⟩ => ⟨layer, hlt, h.symm⟩, fun ⟨layer, hlt, h⟩ => ⟨layer, hlt, h.symm⟩⟩

/-- A buffer of an index pool is the fused one, or one of the payloads, or one of the scales. -/
theorem mem_contiguousPageRowBuffers {buf : PageRows}
    (h : buf ∈ index.contiguousPageRowBuffers ratio) : ∃ layer,
      buf = ⟨.indexK ratio layer, index.numPages, index.fusedPages.slotPages.stride⟩ ∨
      buf = ⟨.indexPayload ratio layer, index.numPages, index.payloadPages.stride⟩ ∨
      buf = ⟨.indexScale ratio layer, index.numPages, index.scalePages.stride⟩ := by
  rw [IndexerPool.contiguousPageRowBuffers] at h
  split at h
  · obtain ⟨layer, -, rfl⟩ := List.mem_map.mp h
    exact ⟨layer, .inl rfl⟩
  · rcases List.mem_append.mp h with h | h
    · obtain ⟨layer, -, rfl⟩ := List.mem_map.mp h
      exact ⟨layer, .inr (.inl (by rw [Nat.one_mul]; rfl))⟩
    · obtain ⟨layer, -, rfl⟩ := List.mem_map.mp h
      have hstride : index.scalePages.stride = 4 * index.pageSize := Nat.mul_one _
      exact ⟨layer, .inr (.inr (by rw [hstride, Nat.one_mul]))⟩

theorem ratio_of_mem_ratioBufInfos (h : pools.ratioBufInfos ratio = some part) {info : BufInfo}
    (hinfo : info ∈ part) : info.buffer.ratio = ratio := by
  rcases mem_ratioBufInfos h hinfo with ⟨kv, -, buf, hbuf, rfl⟩ | ⟨index, -, buf, hbuf, rfl⟩
  · obtain ⟨layer, -, rfl⟩ := mem_kvBuffer.mp hbuf
    rfl
  · obtain ⟨layer, rfl | rfl | rfl⟩ := mem_contiguousPageRowBuffers hbuf
    all_goals rfl

/-- What is reported of a ratio is what its pools have. -/
theorem getContiguousBufInfos_spec (h : pools.getContiguousBufInfos = some infos)
    (hlow : ratio = 1 ∨ ratio = 2) : ∃ part, pools.ratioBufInfos ratio = some part ∧
      ∀ info, (info ∈ infos ∧ info.buffer.ratio = ratio) ↔ info ∈ part := by
  obtain ⟨parts, hparts, rfl⟩ := Option.map_eq_some_iff.mp h
  have hkey : ratio ∈ [4, 128, 1, 2] := by
    rcases hlow with rfl | rfl <;> decide
  obtain ⟨part, hpart, hratio⟩ := exists_mem_mapM hparts hkey
  refine ⟨part, hratio, fun info => ⟨?_, fun hinfo => ⟨?_, ?_⟩⟩⟩
  · rintro ⟨hmem, rfl⟩
    obtain ⟨part', hpart', hinfo⟩ := List.mem_flatten.mp hmem
    obtain ⟨r, -, hr⟩ := exists_of_mem_mapM hparts hpart'
    rw [ratio_of_mem_ratioBufInfos hr hinfo, hr] at hratio
    rwa [Option.some.inj hratio] at hinfo
  · exact List.mem_flatten.mpr ⟨part, hpart, hinfo⟩
  · exact ratio_of_mem_ratioBufInfos hratio hinfo

/-! ## Lining up, exactly -/

/-- With whole slots in a page, the KV pool has a page for each page of the full pool, and the index
pool a run of `k`. -/
theorem Low.room (hlow : pools.Low (m * pools.pageSize) ratio kv index) {k : ℕ}
    (hratio : 0 < ratio) (hk : 0 < k) (hpage : pools.pageSize = ratio * (indexPageSize * k)) :
    kv.pageSize = indexPageSize * k ∧ poolPages kv.size kv.pageSize = m + 1 ∧
      index.numPages = (m + 1) * k + 1 := by
  have hslots : pools.pageSize / ratio = indexPageSize * k := by
    rw [hpage, Nat.mul_div_cancel_left _ hratio]
  have hkv : kv.size = m * (indexPageSize * k) := by
    rw [hlow.kv_size, hpage, Nat.mul_left_comm, Nat.mul_div_cancel_left _ hratio]
  have hindex : index.size = (m + 1) * k * indexPageSize := by
    rw [hlow.index_size, ← Nat.add_one_mul, hpage, Nat.mul_left_comm,
      Nat.mul_div_cancel_left _ hratio]
    ring
  have htwo : 2 ≤ indexPageSize * k := by
    rw [indexPageSize]
    omega
  refine ⟨hlow.kv_pageSize.trans hslots, ?_, ?_⟩
  · rw [hlow.kv_pageSize, hslots, hkv, poolPages_mul _ htwo]
  · rw [IndexerPool.numPages, hlow.index_pageSize, hindex, poolPages_mul _ (by decide)]

/-- **The pools line up** where the ratio divides the page size. -/
theorem Low.linesUp (hlow : pools.Low (m * pools.pageSize) ratio kv index)
    (hpart : pools.ratioBufInfos ratio = some part)
    (hinfos : ∀ info, (info ∈ infos ∧ info.buffer.ratio = ratio) ↔ info ∈ part)
    (hdvd : ratio ∣ pools.pageSize) : pools.LinesUp infos (m * pools.pageSize) ratio := by
  obtain ⟨⟨k, hslots⟩, -⟩ := hlow.ratioBufInfos hpart
  have hsize := kv.pageSize_pos
  rw [hlow.kv_pageSize, hslots] at hsize
  have hk : 0 < k := Nat.pos_of_mul_pos_left hsize
  have hratio : 0 < ratio := by
    refine Nat.pos_of_ne_zero fun h => ?_
    rw [h, Nat.div_zero] at hslots
    omega
  have hpage : pools.pageSize = ratio * (indexPageSize * k) := by
    rw [← hslots, Nat.mul_div_cancel' hdvd]
  obtain ⟨hkvPage, hkvRoom, hindexRoom⟩ := hlow.room hratio hk hpage
  have hpos : 0 < pools.pageSize := by
    rw [hpage]
    exact Nat.mul_pos hratio hsize
  have hlast : m * pools.pageSize / pools.pageSize = m := Nat.mul_div_cancel _ hpos
  have hslot : ∀ loc, loc < m * pools.pageSize + pools.pageSize →
      loc / ratio / (indexPageSize * k) < m + 1 := fun loc hloc => by
    rw [Nat.div_div_eq_div_mul, ← hpage, Nat.div_lt_iff_lt_mul hpos, Nat.add_one_mul]
    exact hloc
  refine ⟨fun loc hloc => ⟨kv, hlow.kv_lookup, ?_⟩, fun loc hloc => ⟨index, hlow.index_lookup, ?_⟩,
    fun info hinfo hof => ?_⟩
  · rw [hkvRoom, hkvPage]
    exact hslot loc hloc
  · have h := hslot loc hloc
    rw [← Nat.div_div_eq_div_mul, Nat.div_lt_iff_lt_mul hk] at h
    rw [hindexRoom, hlow.index_pageSize]
    omega
  · have hitems : pools.pageSize / ratio / index.pageSize = k := by
      rw [hslots, hlow.index_pageSize, Nat.mul_div_cancel_left _ (by decide)]
    rcases mem_ratioBufInfos hpart ((hinfos info).mp ⟨hinfo, hof⟩) with
      ⟨kv', hkv', buf, hbuf, rfl⟩ | ⟨index', hindex', buf, hbuf, rfl⟩
    · obtain rfl := Option.some.inj (hlow.kv_lookup.symm.trans hkv')
      obtain ⟨layer, -, rfl⟩ := mem_kvBuffer.mp hbuf
      have hone : pools.pageSize = ratio * (kv.slotPages.slots * 1) := by
        rw [Nat.mul_one, hpage]
        exact congrArg (ratio * ·) hkvPage.symm
      have hroom : (m * pools.pageSize / pools.pageSize + 1) * 1 ≤ m + 1 := by
        rw [hlast, Nat.mul_one]
      refine ⟨kv.slotPages, by rw [kvInfo, slotPages, hlow.kv_lookup]; rfl, ?_⟩
      exact BufInfo.linesUp hratio Nat.one_pos hone (congrArg (· * _) hkvRoom)
        (Nat.mul_one _).symm hroom
    · obtain rfl := Option.some.inj (hlow.index_lookup.symm.trans hindex')
      have hroom : (m * pools.pageSize / pools.pageSize + 1) * k ≤ (m + 1) * k + 1 := by
        rw [hlast]
        exact Nat.le_succ _
      have hrun : pools.pageSize = ratio * (index.pageSize * k) := by
        rw [hlow.index_pageSize, hpage]
      rw [hitems]
      obtain ⟨layer, rfl | rfl | rfl⟩ := mem_contiguousPageRowBuffers hbuf
      all_goals
        refine ⟨_, by rw [indexInfo, slotPages, hlow.index_lookup]; rfl, ?_⟩
        exact BufInfo.linesUp hratio hk hrun (congrArg (· * _) hindexRoom) rfl hroom

/-- Every slot of a KV pool has bytes, so that two slots which share one are not disjoint. -/
theorem nonempty_bytes (kv : SingleKVPool) (s : ℕ) : (kv.slotPages.bytes s).Nonempty := by
  have hwidth : 0 < kv.kvLayout.width .data := by
    cases kv.kvLayout <;> decide
  exact ⟨_, .inl (FooterPages.mem_row.mpr ⟨0, hwidth, rfl⟩)⟩

/-- Where the ratio does not divide the page size, the last location of page 0 has its slot in the
item of page 1. -/
theorem Low.dvd_of_linesUp (hlow : pools.Low fullSize ratio kv index)
    (hpart : pools.ratioBufInfos ratio = some part)
    (hinfos : ∀ info, (info ∈ infos ∧ info.buffer.ratio = ratio) ↔ info ∈ part)
    (hlayer : 0 < kv.layerNum) (h : pools.LinesUp infos fullSize ratio) :
    ratio ∣ pools.pageSize := by
  by_contra hdvd
  have hsize := kv.pageSize_pos
  have hpageSize := hlow.kv_pageSize
  have hmod : 0 < pools.pageSize % ratio :=
    Nat.pos_of_ne_zero fun h => hdvd (Nat.dvd_of_mod_eq_zero h)
  have hsplit := Nat.div_add_mod pools.pageSize ratio
  have hratio : 0 < ratio := by
    refine Nat.pos_of_ne_zero fun h => ?_
    rw [h, Nat.div_zero] at hpageSize
    omega
  have hbuf : ⟨.kv ratio 0, poolPages kv.size kv.pageSize, kv.slotPages.stride⟩ ∈
      kv.kvBuffer ratio := mem_kvBuffer.mpr ⟨0, hlayer, rfl⟩
  have hmem := (hinfos _).mpr ((hlow.ratioBufInfos hpart).2 _ hbuf)
  obtain ⟨pages, hpages, hlines⟩ := h.buffers _ hmem.1 hmem.2
  rw [kvInfo, slotPages, hlow.kv_lookup] at hpages
  obtain rfl := Option.some.inj hpages
  -- the slot behind the whole ones of page 0
  have hloc : ratio * (pools.pageSize / ratio) / pools.pageSize = 0 :=
    Nat.div_eq_of_lt (by omega)
  obtain ⟨a, ha⟩ := nonempty_bytes kv (ratio * (pools.pageSize / ratio) / ratio)
  have hitem : a ∈ (kvInfo ⟨.kv ratio 0, poolPages kv.size kv.pageSize,
      kv.slotPages.stride⟩).item 0 := by
    rw [hlines.holds 0 (Nat.zero_le _)]
    exact .inl (Set.mem_iUnion₂.mpr ⟨_, hloc, ha⟩)
  have hpage := SlotPages.bytes_subset_page _ ha
  rw [Nat.mul_div_cancel_left _ hratio, ← hpageSize] at hpage
  have hone : kv.pageSize / kv.slotPages.slots = 1 := Nat.div_self hsize
  rw [hone] at hpage
  have hlt := hitem.2
  have hle := hpage.1
  simp only [kvInfo] at hlt
  omega

end CompressedPools

/-- **The transfer moves a page's own slots and no others exactly where the ratio divides the page
size**: whatever the page size and the full pool of whole pages, and for either low ratio whose
index pages tile. -/
theorem linesUp_iff {c : CompressedConfig} {pools : CompressedPools} {infos : List BufInfo}
    {fullSize ratio : ℕ} (hpools : c.initCompressedPools = some pools)
    (hinfos : pools.getContiguousBufInfos = some infos) (hfull : c.fullSize = some fullSize)
    (hwhole : c.pageSize ∣ fullSize) (hratio : ratio = 1 ∨ ratio = 2)
    (hsources : 0 < c.sources ratio) :
    pools.LinesUp infos fullSize ratio ↔ ratio ∣ c.pageSize := by
  obtain ⟨hsize, kv, index, hlow, hlayers⟩ :=
    CompressedConfig.initCompressedPools_low hpools hfull hratio hsources
  obtain ⟨part, hpart, hmem⟩ := CompressedPools.getContiguousBufInfos_spec hinfos hratio
  rw [← hsize] at hwhole ⊢
  refine ⟨?_, ?_⟩
  · exact hlow.dvd_of_linesUp hpart hmem (hlayers ▸ hsources)
  · obtain ⟨m, rfl⟩ := hwhole
    rw [Nat.mul_comm] at hlow ⊢
    exact hlow.linesUp hpart hmem

/-- One layer of a low ratio, with latents in FP4. -/
def lowConfig (ratio pageSize fullSize : ℕ) : CompressedConfig where
  sources r := if r = ratio then 1 else 0
  c4Size := 0
  c128Size := 0
  c4LogicalSize := 0
  fullSize := some fullSize
  pageSize := pageSize
  compressedKvLayout _ := some .v41Fp4
  indexerHeadDim := 128
  enableFp4Indexer := false
  isHip := false

theorem linesUp_pages256 : ∃ pools infos, (lowConfig 2 256 512).initCompressedPools = some pools ∧
    pools.getContiguousBufInfos = some infos ∧ pools.LinesUp infos 512 2 :=
  ⟨_, _, rfl, rfl,
    (linesUp_iff (c := lowConfig 2 256 512) rfl rfl rfl (by decide) (.inr rfl) (by decide)).mpr
      (by decide)⟩

/-- Pages of 129 tokens have 64 slots of ratio 2, which an index page tiles: the assertion passes,
but the last token of the pool has a slot behind the last page. -/
theorem not_linesUp : ¬ ∀ (c : CompressedConfig) (pools : CompressedPools) (infos : List BufInfo)
    (fullSize ratio : ℕ), c.initCompressedPools = some pools →
      pools.getContiguousBufInfos = some infos → c.fullSize = some fullSize →
      c.pageSize ∣ fullSize → (ratio = 1 ∨ ratio = 2) → 0 < c.sources ratio →
      pools.LinesUp infos fullSize ratio := by
  intro h
  obtain ⟨pool, hpool, hroom⟩ :=
    (h (lowConfig 2 129 129) _ _ 129 2 rfl rfl rfl (by decide) (.inr rfl) (by decide)).kv 257
      (by decide)
  obtain rfl := Option.some.inj hpool
  exact absurd hroom (by decide)

end LuzServing

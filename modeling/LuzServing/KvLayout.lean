import LuzServing.FooterPages
import LuzServing.Fp4Codec

/-!
# The layouts of the packed KV cache

A page of the cache holds the data rows of its tokens, then their scale rows. Where a token's rows
are is computed at three places: by the kernels that store a token, with shifts and masks, for pages
of a power of two of tokens (`PagedKV`); by the copies of the request window; and by the kernels
that dequantize tokens (`DequantArgs`), both with divisions. All mean the rows of `KVLayout.pages`
(`PagedKV.dataOffset_eq`, `PagedKV.scaleOffset_eq`, `DequantArgs.tokenBase_eq`).
-/

namespace LuzServing

/-! ## Layouts -/

/-- `KVLayout` -/
inductive KVLayout : Type where
  /-- 448 fp8 and 64 bf16 values, 7 scales and a pad -/
  | v4
  /-- 512 fp8 values, 16 scales -/
  | v41
  /-- 512 e2m1 values, two a byte, 32 scales -/
  | v41Fp4
  deriving DecidableEq

namespace KVLayout

/-- `data_bytes` -/
def dataBytes : KVLayout → ℕ
  | v4 => 576
  | v41 => 512
  | v41Fp4 => 256

/-- `scale_bytes` -/
def scaleBytes : KVLayout → ℕ
  | v4 => 8
  | v41 => 16
  | v41Fp4 => 32

/-- `tile_size`: the values that share one scale. -/
def tileSize : KVLayout → ℕ
  | v4 => 64
  | v41 => 32
  | v41Fp4 => 16

/-- `bytes_per_token` -/
def bytesPerToken (layout : KVLayout) : ℕ := layout.dataBytes + layout.scaleBytes

/-- `page_align`: what the stride of the pages is a multiple of. -/
def pageAlign : KVLayout → ℕ
  | v4 => 576
  | v41 => 512
  | v41Fp4 => 256

/-- `page_bytes` -/
def pageBytes (layout : KVLayout) (pageSize : ℕ) : ℤ :=
  let raw : ℤ := (pageSize * layout.bytesPerToken : ℕ)
  (-(-raw / layout.pageAlign)) * layout.pageAlign

/-- `scale_offset` -/
def scaleOffset (layout : KVLayout) (pageSize : ℕ) : ℕ := pageSize * layout.dataBytes

end KVLayout

/-! ## The addressing of the kernels that store -/

/-- `KVLayoutTraits` -/
structure KVLayoutTraits : Type where
  /-- `kDataBytes` -/
  kDataBytes : ℕ
  /-- `kScaleBytes` -/
  kScaleBytes : ℕ
  /-- `kTileSize` -/
  kTileSize : ℕ
  /-- `kPageAlign` -/
  kPageAlign : ℕ

/-- `kBytesPerToken` -/
def KVLayoutTraits.kBytesPerToken (traits : KVLayoutTraits) : ℕ :=
  traits.kDataBytes + traits.kScaleBytes

/-- `KVLayoutTraits<kLayout>` -/
def KVLayout.traits : KVLayout → KVLayoutTraits
  | v4 => ⟨576, 8, 64, 576⟩
  | v41 => ⟨512, 16, 32, 512⟩
  | v41Fp4 => ⟨256, 32, 16, 256⟩

/-- `kv_page_bytes` -/
def KVLayout.kvPageBytes (layout : KVLayout) (pageSize : ℕ) : ℕ :=
  (pageSize * layout.traits.kBytesPerToken + layout.traits.kPageAlign - 1) /
    layout.traits.kPageAlign * layout.traits.kPageAlign

/-! `PagedKV<kLayout, kPageBits>` -/

namespace PagedKV

variable (layout : KVLayout) (kPageBits : ℕ)

/-- `kPageSize` -/
def kPageSize : ℕ := 1 <<< kPageBits

/-- `kPageBytes` -/
def kPageBytes : ℕ := layout.kvPageBytes (kPageSize kPageBits)

/-- `kScaleBase` -/
def kScaleBase : ℕ := layout.traits.kDataBytes <<< kPageBits

/-- `page_of` -/
def pageOf (loc : ℕ) : ℕ := loc >>> kPageBits

/-- `slot_of` -/
def slotOf (loc : ℕ) : ℕ := loc &&& (kPageSize kPageBits - 1)

/-- `data_offset` -/
def dataOffset (loc : ℕ) : ℕ :=
  pageOf kPageBits loc * kPageBytes layout kPageBits +
    slotOf kPageBits loc * layout.traits.kDataBytes

/-- `scale_offset` -/
def scaleOffset (loc : ℕ) : ℕ :=
  pageOf kPageBits loc * kPageBytes layout kPageBits + kScaleBase layout kPageBits +
    slotOf kPageBits loc * layout.traits.kScaleBytes

/-- `row`: the pointers to a token's data row and scale row. -/
def row (cache loc : ℕ) : ℕ × ℕ :=
  let page := cache + pageOf kPageBits loc * kPageBytes layout kPageBits
  (page + slotOf kPageBits loc * layout.traits.kDataBytes,
    page + kScaleBase layout kPageBits + slotOf kPageBits loc * layout.traits.kScaleBytes)

end PagedKV

/-! ## The addressing of the kernels that dequantize -/

/-- What a dequantization kernel is launched with. -/
structure DequantArgs : Type where
  /-- `BYTES_PER_PAGE` -/
  bytesPerPage : ℕ
  /-- `PAGE_SIZE` -/
  pageSize : ℕ
  /-- `DATA_BYTES`, or `NOPE_ROPE_BYTES` -/
  dataBytes : ℕ
  /-- `SCALE_BYTES`, or `PADDED_SCALE_PER_TOKEN` -/
  scaleBytes : ℕ
  /-- `TILE_SIZE` -/
  tileSize : ℕ
  /-- `S_OFFSET_BYTES` -/
  sOffsetBytes : ℕ

/-- The launch of `dequantize_k_cache_paged`, if its assertion holds; the layouts of V4.1 go through
`dequantize_k_cache_paged_v41`. -/
def KVLayout.dequantArgs (layout : KVLayout) (bytesPerPage pageSize : ℕ) : Option DequantArgs :=
  if layout = .v4 then some ⟨bytesPerPage, pageSize, 576, 8, 64, pageSize * 576⟩
  else if pageSize * layout.bytesPerToken ≤ bytesPerPage then
    some ⟨bytesPerPage, pageSize, layout.dataBytes, layout.scaleBytes, layout.tileSize,
      layout.scaleOffset pageSize⟩
  else none

namespace DequantArgs

variable (args : DequantArgs)

/-- `token_data_base` -/
def tokenDataBase (loc : ℕ) : ℕ :=
  loc / args.pageSize * args.bytesPerPage + loc % args.pageSize * args.dataBytes

/-- `token_scale_base` -/
def tokenScaleBase (loc : ℕ) : ℕ :=
  loc / args.pageSize * args.bytesPerPage + args.sOffsetBytes +
    loc % args.pageSize * args.scaleBytes

/-- The bytes of data and of scales that the program of a token loads. -/
def loads (layout : KVLayout) (loc : ℕ) : Region → List ℕ
  | .data =>
    match layout with
    | .v4 =>
      -- 7 tiles of bytes, then elements of two bytes
      ((List.range 7).flatMap fun tile =>
        (List.range args.tileSize).map fun off =>
          args.tokenDataBase loc + tile * args.tileSize + off) ++
      (List.range 64).flatMap fun off =>
        let element := (args.tokenDataBase loc + 448) / 2 + off
        [2 * element, 2 * element + 1]
    | _ => (List.range args.dataBytes).map fun off => args.tokenDataBase loc + off
  | .scale =>
    match layout with
    | .v4 => (List.range 7).map fun tile => args.tokenScaleBase loc + tile
    | .v41 =>
      (List.range args.dataBytes).map fun off => args.tokenScaleBase loc + off / args.tileSize
    | .v41Fp4 =>
      (List.range args.dataBytes).map fun off => args.tokenScaleBase loc + 2 * off / args.tileSize

end DequantArgs

/-! ## Page sizes -/

namespace KVLayout

variable (layout : KVLayout)

/-- The traits of the layout's C++ template are the four numbers that the layout names. -/
theorem traits_eq :
    layout.traits = ⟨layout.dataBytes, layout.scaleBytes, layout.tileSize, layout.pageAlign⟩ := by
  cases layout <;> rfl

theorem kBytesPerToken_eq : layout.traits.kBytesPerToken = layout.bytesPerToken := by
  rw [traits_eq]
  rfl

theorem pageAlign_pos : 0 < layout.pageAlign := by
  cases layout <;> decide

/-- The `kv_page_bytes` of the C++ source, written with the numbers of the layout. -/
theorem kvPageBytes_eq (pageSize : ℕ) : layout.kvPageBytes pageSize =
    (pageSize * layout.bytesPerToken + layout.pageAlign - 1) / layout.pageAlign *
      layout.pageAlign := by
  rw [kvPageBytes, kBytesPerToken_eq, traits_eq]

/-- A page has room for the data and the scales of all its tokens. -/
theorem le_kvPageBytes (pageSize : ℕ) :
    pageSize * layout.bytesPerToken ≤ layout.kvPageBytes pageSize := by
  have halign := layout.pageAlign_pos
  have hdiv := Nat.div_add_mod' (pageSize * layout.bytesPerToken + layout.pageAlign - 1)
    layout.pageAlign
  have hmod := Nat.mod_lt (pageSize * layout.bytesPerToken + layout.pageAlign - 1) halign
  rw [kvPageBytes_eq]
  omega

/-- Rounding up by a quotient of minus the number, or by a sum, is the same. -/
theorem neg_ediv_neg (n : ℕ) {d : ℕ} (hd : 0 < d) : -(-(n : ℤ) / d) = ((n + d - 1) / d : ℕ) := by
  have hdiv := Nat.div_add_mod (n + d - 1) d
  have hmod := Nat.mod_lt (n + d - 1) hd
  rw [neg_eq_iff_eq_neg, Int.ediv_eq_iff_of_pos (by exact_mod_cast hd)]
  have hcast : ((d * ((n + d - 1) / d) + (n + d - 1) % d : ℕ) : ℤ) = n + d - 1 := by
    rw [hdiv]
    omega
  push_cast at hcast
  constructor
  · have hlt : (((n + d - 1) % d : ℕ) : ℤ) < d := by exact_mod_cast hmod
    push_cast at hlt ⊢
    linarith
  · have hnonneg : (0 : ℤ) ≤ ((n + d - 1) % d : ℕ) := Int.natCast_nonneg _
    push_cast at hnonneg ⊢
    linarith

/-- **One page size**: the Python formula and the C++ formula give the same number of bytes. -/
theorem pageBytes_eq (pageSize : ℕ) : layout.pageBytes pageSize = layout.kvPageBytes pageSize := by
  rw [kvPageBytes_eq, pageBytes, neg_ediv_neg _ layout.pageAlign_pos, Nat.cast_mul]

/-- The bytes of a token's row, by region. -/
def width : Region → ℕ
  | .data => layout.dataBytes
  | .scale => layout.scaleBytes

/-- The pages of a cache. -/
def pages {pageSize : ℕ} (hsize : 0 < pageSize) : FooterPages where
  slots := pageSize
  slots_pos := hsize
  width := layout.width
  stride := layout.kvPageBytes pageSize
  fits := layout.le_kvPageBytes pageSize

end KVLayout

/-! ## One place for a token -/

namespace PagedKV

variable (layout : KVLayout) (bits loc : ℕ)

theorem kPageSize_eq : kPageSize bits = 2 ^ bits := by
  rw [kPageSize, Nat.shiftLeft_eq, Nat.one_mul]

theorem pageOf_eq : pageOf bits loc = loc / 2 ^ bits := Nat.shiftRight_eq_div_pow ..

theorem slotOf_eq : slotOf bits loc = loc % 2 ^ bits := by
  rw [slotOf, kPageSize_eq, Nat.and_two_pow_sub_one_eq_mod]

theorem kScaleBase_eq : kScaleBase layout bits = 2 ^ bits * layout.dataBytes := by
  rw [kScaleBase, layout.traits_eq, Nat.shiftLeft_eq, Nat.mul_comm]

/-- **The data row by bits**, as the kernels compute it, begins where division by the page size puts
it. -/
theorem dataOffset_eq :
    dataOffset layout bits loc = (layout.pages (Nat.two_pow_pos bits)).rowStart .data loc := by
  rw [dataOffset, pageOf_eq, slotOf_eq, kPageBytes, kPageSize_eq, layout.traits_eq,
    FooterPages.rowStart, FooterPages.inPage, FooterPages.base_data, Nat.zero_add]
  rfl

/-- **The scale row by bits**, as the kernels compute it, begins where division by the page size
puts it. -/
theorem scaleOffset_eq :
    scaleOffset layout bits loc = (layout.pages (Nat.two_pow_pos bits)).rowStart .scale loc := by
  rw [scaleOffset, pageOf_eq, slotOf_eq, kPageBytes, kPageSize_eq, kScaleBase_eq, layout.traits_eq,
    FooterPages.rowStart, FooterPages.inPage, FooterPages.base_scale, Nat.add_assoc]
  rfl

/-- The pointers of a token are its offsets from the cache. -/
theorem row_eq (cache : ℕ) :
    row layout bits cache loc = (cache + dataOffset layout bits loc,
      cache + scaleOffset layout bits loc) := by
  rw [row, dataOffset, scaleOffset]
  simp only [Nat.add_assoc]

/-- The store kernels of the packed layout of FP4 use these rows. -/
theorem pagedRow_eq_row : Fp4Encoder.pagedRow bits loc = row .v41Fp4 bits 0 loc := by
  rw [row_eq, Nat.zero_add, Nat.zero_add]
  rfl

end PagedKV

namespace DequantArgs

variable {layout : KVLayout} {pageSize : ℕ} {args : DequantArgs}

/-- The dequantization of a cache is launched, with the numbers of the layout. -/
theorem of_pages (layout : KVLayout) (pageSize : ℕ) :
    layout.dequantArgs (layout.kvPageBytes pageSize) pageSize =
      some ⟨layout.kvPageBytes pageSize, pageSize, layout.dataBytes, layout.scaleBytes,
        layout.tileSize, pageSize * layout.dataBytes⟩ := by
  have hfits := layout.le_kvPageBytes pageSize
  rw [KVLayout.dequantArgs]
  by_cases hv4 : layout = .v4
  · subst hv4
    rfl
  · rw [if_neg hv4, if_pos hfits, KVLayout.scaleOffset]

/-- **The rows of the kernels that dequantize** are those of the pages. -/
theorem tokenBase_eq (hsize : 0 < pageSize)
    (h : layout.dequantArgs (layout.kvPageBytes pageSize) pageSize = some args) (loc : ℕ) :
    args.tokenDataBase loc = (layout.pages hsize).rowStart .data loc ∧
      args.tokenScaleBase loc = (layout.pages hsize).rowStart .scale loc := by
  rw [of_pages] at h
  obtain rfl := Option.some.inj h
  refine ⟨?_, ?_⟩
  · rw [FooterPages.rowStart, FooterPages.inPage, FooterPages.base_data, Nat.zero_add]
    rfl
  · rw [FooterPages.rowStart, FooterPages.inPage, FooterPages.base_scale, ← Nat.add_assoc]
    rfl

/-- The data rows of V4 start at an even byte, so an element of two bytes is two bytes of a row. -/
theorem two_dvd_rowStart (hsize : 0 < pageSize) (loc : ℕ) :
    2 ∣ (KVLayout.v4.pages hsize).rowStart .data loc := by
  have hpage : 2 ∣ KVLayout.v4.kvPageBytes pageSize :=
    Dvd.dvd.mul_left (by decide : 2 ∣ KVLayout.v4.traits.kPageAlign) _
  have hrow : 2 ∣ loc % pageSize * 576 := Dvd.dvd.mul_left (by decide) _
  rw [FooterPages.rowStart, FooterPages.inPage, FooterPages.base_data, Nat.zero_add]
  exact Nat.dvd_add (Dvd.dvd.mul_left hpage _) hrow

/-- The program of a token loads bytes of the token's rows only. -/
theorem loads_mem_row (hsize : 0 < pageSize)
    (h : layout.dequantArgs (layout.kvPageBytes pageSize) pageSize = some args) (loc : ℕ)
    (r : Region) {a : ℕ} (ha : a ∈ args.loads layout loc r) :
    a ∈ (layout.pages hsize).row r loc := by
  obtain ⟨hdata, hscale⟩ := tokenBase_eq hsize h loc
  rw [of_pages] at h
  rw [FooterPages.mem_row]
  cases r with
  | data =>
    rw [loads.eq_def, hdata] at ha
    cases layout with
    | v4 =>
      obtain rfl := Option.some.inj h
      rcases List.mem_append.mp ha with ha | ha
      · obtain ⟨tile, htile, ha⟩ := List.mem_flatMap.mp ha
        obtain ⟨off, hoff, rfl⟩ := List.mem_map.mp ha
        have htile : tile < 7 := List.mem_range.mp htile
        have hoff : off < 64 := List.mem_range.mp hoff
        refine ⟨tile * 64 + off, ?_, Nat.add_assoc ..⟩
        change tile * 64 + off < 576
        omega
      · obtain ⟨off, hoff, ha⟩ := List.mem_flatMap.mp ha
        have hoff : off < 64 := List.mem_range.mp hoff
        obtain ⟨half, heven⟩ := two_dvd_rowStart hsize loc
        have helement : ((KVLayout.v4.pages hsize).rowStart .data loc + 448) / 2 = half + 224 := by
          omega
        rw [helement] at ha
        have ha : a = 2 * (half + 224 + off) ∨ a = 2 * (half + 224 + off) + 1 := by
          simpa using ha
        refine ⟨a - (KVLayout.v4.pages hsize).rowStart .data loc, ?_, by omega⟩
        change a - (KVLayout.v4.pages hsize).rowStart .data loc < 576
        omega
    | v41 | v41Fp4 =>
      obtain rfl := Option.some.inj h
      obtain ⟨off, hoff, rfl⟩ := List.mem_map.mp ha
      exact ⟨off, List.mem_range.mp hoff, rfl⟩
  | scale =>
    rw [loads.eq_def, hscale] at ha
    obtain rfl := Option.some.inj h
    cases layout with
    | v4 =>
      obtain ⟨tile, htile, rfl⟩ := List.mem_map.mp ha
      exact ⟨tile, Nat.lt_succ_of_lt (List.mem_range.mp htile), rfl⟩
    | v41 =>
      obtain ⟨off, hoff, rfl⟩ := List.mem_map.mp ha
      exact ⟨off / 32, Nat.div_lt_of_lt_mul (List.mem_range.mp hoff), rfl⟩
    | v41Fp4 =>
      obtain ⟨off, hoff, rfl⟩ := List.mem_map.mp ha
      have hoff : off < 256 := List.mem_range.mp hoff
      refine ⟨2 * off / 16, ?_, rfl⟩
      change 2 * off / 16 < 32
      omega

end DequantArgs

end LuzServing

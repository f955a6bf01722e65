import LuzServing.KvLayout
import LuzServing.RequestWindow
import LuzServing.Stores

/-!
# Copies of packed tokens

`copy_packed_tokens` moves tokens between two paged buffers of one layout, the data rows first, then
the scale rows: it reads the rows of the source tokens at their page and columns and writes them at
those of the destination tokens. Rows of distinct tokens do not meet, so each destination token has
the bytes of its source, and nothing else changes (`copyPackedTokens_eq`), whatever the numbers of
pages of the two buffers. So what the copy does to the bytes is what the request window takes it to
do to the rows (`tokenRows_copyPackedTokens`).
-/

namespace LuzServing

/-- A contiguous tensor of bytes by page and column. -/
structure PackedBuffer : Type where
  /-- `shape[0]` -/
  numPages : ℕ
  /-- the bytes, by address -/
  bytes : ℕ → UInt8

namespace PackedBuffer

variable (layout : KVLayout) (pageSize : ℕ)

/-! ## The copy -/

/-- The pages and columns of a region of tokens: so many bytes a token, from `base` on. -/
def places (width base : ℕ) (loc : List ℕ) : List (List (ℕ × ℕ)) :=
  loc.map fun t => (List.range width).map fun col =>
    (t / pageSize, base + t % pageSize * width + col)

/-- The addresses of pages and columns. An index that is out of range is an error. -/
def addresses (b : PackedBuffer) (places : List (List (ℕ × ℕ))) : Option (List (List ℕ)) :=
  if ∀ place ∈ places.flatten, place.1 < b.numPages ∧ place.2 < layout.kvPageBytes pageSize then
    some (places.map (List.map fun place => place.1 * layout.kvPageBytes pageSize + place.2))
  else none

/-- `src[..]`, by rows of bytes. -/
def gather (b : PackedBuffer) (places : List (List (ℕ × ℕ))) : Option (List (List UInt8)) :=
  (b.addresses layout pageSize places).map (List.map (List.map b.bytes))

/-- The rows for so many places: as many, or one for all. -/
def broadcastRows (values : List (List UInt8)) (n : ℕ) : Option (List (List UInt8)) :=
  if values.length = n then some values
  else
    match values with
    | [row] => some (List.replicate n row)
    | _ => none

/-- `dst[..] = values` -/
def scatter (b : PackedBuffer) (places : List (List (ℕ × ℕ))) (values : List (List UInt8)) :
    Option PackedBuffer :=
  (b.addresses layout pageSize places).bind fun addrs =>
    (broadcastRows values places.length).map fun rows =>
      { b with bytes := storeAll b.bytes ((addrs.zip rows).flatMap fun p => p.1.zip p.2) }

/-- A round of the loop of `copy_packed_tokens`: the region from `base` on. -/
def copyRegion (src : PackedBuffer) (srcLoc dstLoc : List ℕ) (dst : PackedBuffer)
    (width base : ℕ) : Option PackedBuffer :=
  (src.gather layout pageSize (places pageSize width base srcLoc)).bind fun values =>
    dst.scatter layout pageSize (places pageSize width base dstLoc) values

/-- `copy_packed_tokens`: what `dst` is then. -/
def copyPackedTokens (src dst : PackedBuffer) (srcLoc dstLoc : List ℕ) : Option PackedBuffer :=
  if srcLoc.length = 0 then some dst
  else
    [(layout.dataBytes, 0), (layout.scaleBytes, pageSize * layout.dataBytes)].foldlM
      (fun dst region => copyRegion layout pageSize src srcLoc dstLoc dst region.1 region.2) dst

/-! ## A region -/

/-- The bytes of a token's row. -/
def rowBytes (g : FooterPages) (b : PackedBuffer) (r : Region) (t : ℕ) : List UInt8 :=
  (List.range (g.width r)).map fun col => b.bytes (g.rowStart r t + col)

/-- What the copy of a region stores. -/
def regionStores (g : FooterPages) (src : PackedBuffer) (r : Region) (srcLoc dstLoc : List ℕ) :
    List (ℕ × UInt8) :=
  (dstLoc.zip srcLoc).flatMap fun p => (List.range (g.width r)).map fun col =>
    (g.rowStart r p.1 + col, src.bytes (g.rowStart r p.2 + col))

/-- As many rows as places are stored as they are. -/
theorem broadcastRows_of_length {values : List (List UInt8)} {n : ℕ} (h : values.length = n) :
    broadcastRows values n = some values := if_pos h

variable {layout pageSize} (hsize : 0 < pageSize)

include hsize in
/-- The addresses of the rows of tokens that a buffer has. -/
theorem addresses_places (b : PackedBuffer) (r : Region) {loc : List ℕ}
    (hloc : ∀ t ∈ loc, t < b.numPages * pageSize) :
    b.addresses layout pageSize
        (places pageSize (layout.width r) ((layout.pages hsize).base r) loc) =
      some (loc.map fun t => (List.range (layout.width r)).map fun col =>
        (layout.pages hsize).rowStart r t + col) := by
  rw [addresses, if_pos]
  · refine congrArg some ?_
    rw [places, List.map_map]
    refine List.map_congr_left fun t _ => ?_
    rw [Function.comp_apply, List.map_map]
    refine List.map_congr_left fun col _ => ?_
    exact (Nat.add_assoc ..).symm
  · intro place hplace
    obtain ⟨row, hrow, hplace⟩ := List.mem_flatten.mp hplace
    obtain ⟨t, ht, rfl⟩ := List.mem_map.mp hrow
    obtain ⟨col, hcol, rfl⟩ := List.mem_map.mp hplace
    exact ⟨Nat.div_lt_of_lt_mul (by rw [Nat.mul_comm]; exact hloc t ht),
      (layout.pages hsize).inPage_lt_stride r t (List.mem_range.mp hcol)⟩

/-- The copy of a region, between lists of tokens of one length. -/
theorem copyRegion_eq (src dst : PackedBuffer) (r : Region) {srcLoc dstLoc : List ℕ}
    (hlen : srcLoc.length = dstLoc.length)
    (hsrc : ∀ t ∈ srcLoc, t < src.numPages * pageSize)
    (hdst : ∀ t ∈ dstLoc, t < dst.numPages * pageSize) :
    copyRegion layout pageSize src srcLoc dstLoc dst (layout.width r)
        ((layout.pages hsize).base r) =
      some { dst with
        bytes := storeAll dst.bytes
          (regionStores (layout.pages hsize) src r srcLoc dstLoc) } := by
  rw [copyRegion, gather, src.addresses_places hsize r hsrc, Option.map_some, Option.bind_some,
    scatter, dst.addresses_places hsize r hdst, Option.bind_some, broadcastRows_of_length,
    Option.map_some]
  · rw [List.map_map, List.zip_map, List.flatMap_map, regionStores]
    refine congrArg some (congrArg (fun stores => PackedBuffer.mk _ (storeAll _ stores)) ?_)
    refine congrArg (fun f => List.flatMap f _) (funext fun p => ?_)
    rw [Prod.map_fst, Prod.map_snd, Function.comp_apply, List.map_map, List.zip_map']
    rfl
  · rw [List.length_map, List.length_map, places, List.length_map, hlen]

/-! ## What a copy leaves -/

variable {g : FooterPages}

/-- The stores of a region are of the rows of the destination tokens. -/
theorem mem_regionStores {src : PackedBuffer} {r : Region} {srcLoc dstLoc : List ℕ}
    {s : ℕ × UInt8} : s ∈ regionStores g src r srcLoc dstLoc ↔
      ∃ p ∈ dstLoc.zip srcLoc, ∃ col, col < g.width r ∧
        s = (g.rowStart r p.1 + col, src.bytes (g.rowStart r p.2 + col)) := by
  constructor
  · intro hs
    obtain ⟨p, hp, hs⟩ := List.mem_flatMap.mp hs
    obtain ⟨col, hcol, rfl⟩ := List.mem_map.mp hs
    exact ⟨p, hp, col, List.mem_range.mp hcol, rfl⟩
  · rintro ⟨p, hp, col, hcol, rfl⟩
    exact List.mem_flatMap.mpr ⟨p, hp, List.mem_map.mpr ⟨col, List.mem_range.mpr hcol, rfl⟩⟩

/-- The bytes of no destination token's row in the region stay. -/
theorem storeAll_regionStores_of_notMem {src : PackedBuffer} {r : Region} {srcLoc dstLoc : List ℕ}
    {m : ℕ → UInt8} {a : ℕ} (ha : ∀ t ∈ dstLoc, a ∉ g.row r t) :
    storeAll m (regionStores g src r srcLoc dstLoc) a = m a := by
  refine storeAll_of_ne fun s hs hsa => ?_
  obtain ⟨p, hp, col, hcol, rfl⟩ := mem_regionStores.mp hs
  exact ha p.1 (List.of_mem_zip hp).1 (FooterPages.mem_row.mpr ⟨col, hcol, hsa.symm⟩)

/-- A token is paired once, where the tokens are distinct. -/
theorem zip_snd_eq {l m : List ℕ} (hl : l.Nodup) {a b b' : ℕ} (h : (a, b) ∈ l.zip m)
    (h' : (a, b') ∈ l.zip m) : b = b' := by
  obtain ⟨i, hi, hib⟩ := List.mem_iff_getElem.mp h
  obtain ⟨j, hj, hjb⟩ := List.mem_iff_getElem.mp h'
  rw [List.getElem_zip, Prod.mk.injEq] at hib hjb
  have hij : i = j := (hl.getElem_inj_iff).mp (hib.1.trans hjb.1.symm)
  subst hij
  exact hib.2.symm.trans hjb.2

/-- The bytes of a destination token's row are those of its source. -/
theorem storeAll_regionStores {src : PackedBuffer} {r : Region} {srcLoc dstLoc : List ℕ}
    (hnodup : dstLoc.Nodup) {t t' : ℕ} (hp : (t, t') ∈ dstLoc.zip srcLoc) {col : ℕ}
    (hcol : col < g.width r) (m : ℕ → UInt8) :
    storeAll m (regionStores g src r srcLoc dstLoc) (g.rowStart r t + col) =
      src.bytes (g.rowStart r t' + col) := by
  refine storeAll_eq (fun s hs hsa => ?_) ⟨_, mem_regionStores.mpr ⟨_, hp, col, hcol, rfl⟩, rfl⟩
  obtain ⟨p, hp', col', hcol', rfl⟩ := mem_regionStores.mp hs
  obtain ⟨-, htoken, rfl⟩ := FooterPages.rowStart_inj hcol' hcol hsa
  obtain ⟨a, b⟩ := p
  dsimp only at htoken ⊢
  subst htoken
  rw [zip_snd_eq hnodup hp hp']

/-- **A copy of tokens**: the destination tokens have the bytes of their sources, and no other byte
is changed. -/
theorem copyPackedTokens_eq (hsize : 0 < pageSize) (src dst : PackedBuffer) {srcLoc dstLoc : List ℕ}
    (hlen : srcLoc.length = dstLoc.length)
    (hsrc : ∀ t ∈ srcLoc, t < src.numPages * pageSize)
    (hdst : ∀ t ∈ dstLoc, t < dst.numPages * pageSize) (hnodup : dstLoc.Nodup) :
    ∃ out, copyPackedTokens layout pageSize src dst srcLoc dstLoc = some out ∧
      out.numPages = dst.numPages ∧
      (∀ p ∈ dstLoc.zip srcLoc, ∀ r, rowBytes (layout.pages hsize) out r p.1 =
        rowBytes (layout.pages hsize) src r p.2) ∧
      ∀ a, (∀ t ∈ dstLoc, ∀ r, a ∉ (layout.pages hsize).row r t) → out.bytes a = dst.bytes a := by
  by_cases hempty : srcLoc.length = 0
  · obtain rfl := List.length_eq_zero_iff.mp hempty
    obtain rfl := List.length_eq_zero_iff.mp (hlen.symm.trans hempty)
    exact ⟨dst, if_pos rfl, rfl, fun p hp => absurd hp List.not_mem_nil, fun _ _ => rfl⟩
  · -- the data rows, then the scale rows over them
    let g := layout.pages hsize
    let data := regionStores g src .data srcLoc dstLoc
    let scale := regionStores g src .scale srcLoc dstLoc
    have hcopy : copyPackedTokens layout pageSize src dst srcLoc dstLoc =
        some { dst with bytes := storeAll (storeAll dst.bytes data) scale } := by
      have hdata : copyRegion layout pageSize src srcLoc dstLoc dst layout.dataBytes 0 =
          some { dst with bytes := storeAll dst.bytes data } :=
        copyRegion_eq hsize src dst .data hlen hsrc hdst
      have hscale : copyRegion layout pageSize src srcLoc dstLoc
            { dst with bytes := storeAll dst.bytes data } layout.scaleBytes
            (pageSize * layout.dataBytes) =
          some { dst with bytes := storeAll (storeAll dst.bytes data) scale } :=
        copyRegion_eq hsize src _ .scale hlen hsrc hdst
      rw [copyPackedTokens, if_neg hempty]
      change (copyRegion layout pageSize src srcLoc dstLoc dst layout.dataBytes 0).bind (fun dst =>
        (copyRegion layout pageSize src srcLoc dstLoc dst layout.scaleBytes
          (pageSize * layout.dataBytes)).bind some) = _
      rw [hdata, Option.bind_some, hscale, Option.bind_some]
    refine ⟨_, hcopy, rfl, fun p hp r => List.map_congr_left fun col hcol => ?_, fun a ha => ?_⟩
    · have hcol := List.mem_range.mp hcol
      cases r with
      | scale => exact storeAll_regionStores hnodup hp hcol _
      | data =>
        -- no scale row has a byte of a data row
        refine (storeAll_regionStores_of_notMem fun t _ hmem => ?_).trans
          (storeAll_regionStores hnodup hp hcol _)
        obtain ⟨col', hcol', h⟩ := FooterPages.mem_row.mp hmem
        cases (FooterPages.rowStart_inj hcol hcol' h).1
    · exact (storeAll_regionStores_of_notMem fun t ht => ha t ht .scale).trans
        (storeAll_regionStores_of_notMem fun t ht => ha t ht .data)

/-- Buffers that agree outside of the rows of some tokens have the same rows of any other. -/
theorem rowBytes_congr {b b' : PackedBuffer} {t : ℕ} {tokens : List ℕ} (ht : t ∉ tokens)
    (h : ∀ a, (∀ t ∈ tokens, ∀ r, a ∉ g.row r t) → b.bytes a = b'.bytes a) (r : Region) :
    rowBytes g b r t = rowBytes g b' r t := by
  refine List.map_congr_left fun col hcol => h _ fun t' ht' r' hmem => ?_
  obtain ⟨col', hcol', heq⟩ := FooterPages.mem_row.mp hmem
  obtain ⟨-, rfl, -⟩ := FooterPages.rowStart_inj (List.mem_range.mp hcol) hcol' heq
  exact ht ht'

/-- The rows of the tokens, by location. -/
def tokenRows (g : FooterPages) (b : PackedBuffer) (t : ℤ) (r : Region) : List UInt8 :=
  rowBytes g b r t.toNat

/-- **The copy of the bytes is the copy of the rows** that the request window makes. -/
theorem tokenRows_copyPackedTokens (hsize : 0 < pageSize) (src dst : PackedBuffer) {n : ℕ}
    {srcLoc dstLoc : ℕ → ℕ} (hsrc : ∀ i, i < n → srcLoc i < src.numPages * pageSize)
    (hdst : ∀ i, i < n → dstLoc i < dst.numPages * pageSize)
    (hinj : ∀ i j, i < n → j < n → dstLoc i = dstLoc j → i = j) :
    ∃ out, copyPackedTokens layout pageSize src dst ((List.range n).map srcLoc)
        ((List.range n).map dstLoc) = some out ∧
      ∀ t : ℕ, tokenRows (layout.pages hsize) out t =
        RequestWindow.copyPackedTokens (tokenRows (layout.pages hsize) src)
          (tokenRows (layout.pages hsize) dst) n (fun i => srcLoc i) (fun i => dstLoc i) t := by
  have hnodup : ((List.range n).map dstLoc).Nodup :=
    List.nodup_range.map_on fun i hi j hj =>
      hinj i j (List.mem_range.mp hi) (List.mem_range.mp hj)
  obtain ⟨out, hout, -, hcopied, hframe⟩ := @copyPackedTokens_eq layout _ hsize src dst _ _
    (by simp) (List.forall_mem_map.mpr fun i hi => hsrc i (List.mem_range.mp hi))
    (List.forall_mem_map.mpr fun i hi => hdst i (List.mem_range.mp hi)) hnodup
  refine ⟨out, hout, fun t => funext fun r => ?_⟩
  by_cases ht : t ∈ (List.range n).map dstLoc
  · obtain ⟨i, hi, rfl⟩ := List.mem_map.mp ht
    have hpair : (dstLoc i, srcLoc i) ∈
        ((List.range n).map dstLoc).zip ((List.range n).map srcLoc) := by
      rw [List.zip_map']
      exact List.mem_map.mpr ⟨i, hi, rfl⟩
    have hrow := storeAll_map_eq (m := tokenRows (layout.pages hsize) dst)
      (fun i => (dstLoc i : ℤ)) (fun i => tokenRows (layout.pages hsize) src (srcLoc i)) hi
      fun j hj heq => by
        rw [hinj j i (List.mem_range.mp hj) (List.mem_range.mp hi) (Nat.cast_injective heq)]
    rw [RequestWindow.copyPackedTokens, hrow]
    exact hcopied _ hpair r
  · rw [RequestWindow.copyPackedTokens, storeAll_map_of_ne fun i hi heq => ht ?_]
    · exact rowBytes_congr ht hframe r
    · exact List.mem_map.mpr ⟨i, hi, Nat.cast_injective heq⟩

end PackedBuffer

/-! ## Every layout and page size -/

open PackedBuffer in
/-- **Where the tokens of a packed cache are, and how they are copied.** For every layout and page
size: the two formulas of the size of a page agree; a row of a token is in the token's page, and no
two rows meet; the kernels that store, those that dequantize and the copies use these rows, whatever
the location; and a copy between lists of tokens, the destinations distinct, gives each destination
the bytes of its source and changes no byte of another token, nor any byte outside of the rows. -/
theorem KVLayout.kv_rows (layout : KVLayout) {pageSize : ℕ} (hsize : 0 < pageSize) :
    layout.pageBytes pageSize = layout.kvPageBytes pageSize ∧
      (∀ r t, (layout.pages hsize).row r t ⊆ (layout.pages hsize).page (t / pageSize)) ∧
      Pairwise (Function.onFun Disjoint fun k : Region × ℕ => (layout.pages hsize).row k.1 k.2) ∧
      (∀ bits, pageSize = 2 ^ bits → ∀ t,
        PagedKV.dataOffset layout bits t = (layout.pages hsize).rowStart .data t ∧
          PagedKV.scaleOffset layout bits t = (layout.pages hsize).rowStart .scale t) ∧
      (∃ args, layout.dequantArgs (layout.kvPageBytes pageSize) pageSize = some args ∧ ∀ t,
        args.tokenDataBase t = (layout.pages hsize).rowStart .data t ∧
          args.tokenScaleBase t = (layout.pages hsize).rowStart .scale t ∧
          ∀ r, ∀ a ∈ args.loads layout t r, a ∈ (layout.pages hsize).row r t) ∧
      ∀ (src dst : PackedBuffer) (srcLoc dstLoc : List ℕ), srcLoc.length = dstLoc.length →
        (∀ t ∈ srcLoc, t < src.numPages * pageSize) →
        (∀ t ∈ dstLoc, t < dst.numPages * pageSize) → dstLoc.Nodup →
        ∃ out, copyPackedTokens layout pageSize src dst srcLoc dstLoc = some out ∧
          out.numPages = dst.numPages ∧
          (∀ p ∈ dstLoc.zip srcLoc, ∀ r, rowBytes (layout.pages hsize) out r p.1 =
            rowBytes (layout.pages hsize) src r p.2) ∧
          (∀ t, t ∉ dstLoc → ∀ r, rowBytes (layout.pages hsize) out r t =
            rowBytes (layout.pages hsize) dst r t) ∧
          ∀ a, (∀ t ∈ dstLoc, ∀ r, a ∉ (layout.pages hsize).row r t) →
            out.bytes a = dst.bytes a := by
  refine ⟨layout.pageBytes_eq pageSize, FooterPages.row_subset_page, FooterPages.rows_disjoint,
    ?_, ?_, ?_⟩
  · rintro bits rfl t
    exact ⟨PagedKV.dataOffset_eq layout bits t, PagedKV.scaleOffset_eq layout bits t⟩
  · have hargs := DequantArgs.of_pages layout pageSize
    refine ⟨_, hargs, fun t => ?_⟩
    obtain ⟨hdata, hscale⟩ := DequantArgs.tokenBase_eq hsize hargs t
    exact ⟨hdata, hscale, fun r a ha => DequantArgs.loads_mem_row hsize hargs t r ha⟩
  · intro src dst srcLoc dstLoc hlen hsrc hdst hnodup
    obtain ⟨out, hout, hpages, hcopied, hframe⟩ :=
      copyPackedTokens_eq hsize src dst hlen hsrc hdst hnodup
    exact ⟨out, hout, hpages, hcopied, fun t ht => rowBytes_congr ht hframe, hframe⟩

/-- Token 5 of three pages of two, copied to the place of token 2 of two pages. -/
theorem KVLayout.kv_rows_copied :
    ∃ out, PackedBuffer.copyPackedTokens .v41Fp4 2 ⟨3, UInt8.ofNat⟩ ⟨2, fun _ => 0⟩ [5] [2] =
        some out ∧
      PackedBuffer.rowBytes (KVLayout.v41Fp4.pages Nat.two_pos) out .scale 2 =
        PackedBuffer.rowBytes (KVLayout.v41Fp4.pages Nat.two_pos) ⟨3, UInt8.ofNat⟩ .scale 5 := by
  obtain ⟨-, -, -, -, -, hcopy⟩ := KVLayout.kv_rows .v41Fp4 Nat.two_pos
  obtain ⟨out, hout, -, hrows, -⟩ := hcopy ⟨3, UInt8.ofNat⟩ ⟨2, fun _ => 0⟩ [5] [2] rfl (by decide)
    (by decide) (by decide)
  exact ⟨out, hout, hrows (2, 5) (by decide) .scale⟩

end LuzServing

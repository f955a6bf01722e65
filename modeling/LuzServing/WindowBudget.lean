import LuzServing.KvLayout
import LuzServing.RequestWindow
import LuzServing.Tp3Pad

/-!
# The budget of the request window

When the server boots, `DSV4PoolConfigurator` subtracts `request_window_bytes` from the memory that
is left and turns the rest into KV pages. Later the pool builder makes the `RequestWindow`. The two
are in different files and compute the bytes by different formulas: the first counts rows of
`kv_bytes + 16` bytes, the second allocates whole pages, and every pool has one page more than its
rows need.

**The reserved bytes are not always enough** (`reservedBytes_enough_iff`). A page has 256 rows, for
which 600 bytes each are reserved and 593 are used, so each page of the rings leaves 1792 bytes.
But each layer has a page more than the estimate counts, and only 83 pages of rings pay for it.
With fewer, what is missing in every layer comes out of the scratch rows, of which four times as
many are reserved as are needed; these do not grow with the layers.
-/

namespace LuzServing

/-! ## Pools -/

/-- The pages of a layer in `_create_buffers`. -/
def poolPages (size pageSize : ℕ) : ℕ := (size + pageSize + 1) / pageSize

/-- The bytes of the buffers that `_create_buffers` makes. -/
def poolBytes (layout : KVLayout) (size pageSize layerNum : ℕ) : ℤ :=
  layerNum * (poolPages size pageSize * layout.pageBytes pageSize)

/-- A pool of whole pages has one page more, and of the spare row of the sum nothing is left. -/
theorem poolPages_mul (pages : ℕ) {pageSize : ℕ} (h : 2 ≤ pageSize) :
    poolPages (pages * pageSize) pageSize = pages + 1 := by
  have hsum : pages * pageSize + pageSize + 1 = 1 + (pages + 1) * pageSize := by ring
  rw [poolPages, hsum, Nat.add_mul_div_right _ _ (by omega), Nat.div_eq_of_lt h, Nat.zero_add]

/-- The bytes that `RequestWindow.__init__` allocates: the rings, the tags and the workspace. -/
def WindowConfig.allocatedBytes (c : WindowConfig) (layout : KVLayout) (workspaceRows : ℕ) : ℤ :=
  poolBytes layout (c.rows + c.pageSize) c.pageSize c.layers +
    (c.layers * (c.rows + c.pageSize) * 8 : ℕ) +
    if workspaceRows = 0 then 0
    else poolBytes layout (c.wholePages workspaceRows) c.pageSize 1

/-! ## The two computations -/

/-- The sizes that the budget and the window are both computed from. -/
structure WindowSizes : Type where
  /-- the request slots, `requested_max_running_requests_per_worker + 1` -/
  slots : ℕ
  /-- `num_layers_total` -/
  layers : ℕ
  /-- `chunked_prefill_size` -/
  chunk : ℕ
  /-- `max_speculative_num_draft_tokens() or 0` -/
  draft : ℕ
  /-- one slot is for padding -/
  two_le_slots : 2 ≤ slots
  /-- there is a layer -/
  one_le_layers : 1 ≤ layers
  /-- prefill is chunked -/
  one_le_chunk : 1 ≤ chunk

namespace WindowSizes

variable (p : WindowSizes)

/-- `page_size` of the configurator and `swa_page_size` of the pool builder. -/
def pageSize : ℕ := 256

/-- `kv_bytes`: the bytes of a token in the configurator. -/
def kvBytes : ℕ := 448 + 64 * 2 + 8

/-- `scratch` -/
def scratch : ℕ := max p.chunk (p.slots * max 128 p.draft) + p.slots * 128 + pageSize

/-- The first two summands of `request_window_bytes`. The third is for the compressor states. -/
def reservedBytes : ℕ :=
  (p.slots * ceilTo (swaWindow + p.draft) pageSize + pageSize) * p.layers * (kvBytes + 16) +
    4 * p.scratch * (kvBytes + 16)

/-- The arguments of `RequestWindow`. -/
def config : WindowConfig where
  numSlots := p.slots
  layers := p.layers
  pageSize := pageSize
  two_le_pageSize := Nat.le_of_ble_eq_true rfl
  askedCapacity := swaWindow + p.draft
  window_le := Nat.le_add_right _ _

/-- `workspace_rows` -/
def workspaceRows : ℕ :=
  (p.slots + 1) * swaWindow + max p.chunk ((p.slots + 1) * (1 + p.draft))

/-- The bytes that the window takes when it is allocated. -/
def allocatedBytes : ℤ := p.config.allocatedBytes .v4 p.workspaceRows

/-! ## Their difference -/

/-- The pages of the rings of one layer. -/
def ringPages : ℕ := p.slots * ((swaWindow + p.draft + 255) / 256)

/-- The pages of the workspace that have its rows. -/
def workspacePages : ℕ := (p.workspaceRows + 255) / 256

/-- What the estimate of the scratch rows leaves over, in bytes. -/
def scratchSlack : ℤ := 2400 * p.scratch - 149760 * (p.workspacePages + 1)

theorem pageBytes_v4 : KVLayout.v4.pageBytes pageSize = 149760 := by decide +kernel

/-- The rings of the pool are whole pages, so their rows are a multiple of the page size. -/
theorem config_rows : p.config.rows = p.ringPages * 256 := by
  rw [ringPages, Nat.mul_assoc]
  rfl

/-- The bytes that are reserved, written with the pages of a ring: the estimate has its capacity
right. -/
theorem reservedBytes_eq :
    p.reservedBytes = (p.ringPages + 1) * 256 * p.layers * 600 + 2400 * p.scratch := by
  have hrows : p.slots * ceilTo (swaWindow + p.draft) pageSize = p.ringPages * 256 := p.config_rows
  have hkv : kvBytes + 16 = 600 := rfl
  rw [reservedBytes, hrows, hkv, show pageSize = 256 from rfl]
  ring

/-- The pool has two pages more than the rings, one that the window asks for and its own. -/
theorem allocatedBytes_eq :
    p.allocatedBytes =
      p.layers * ((p.ringPages + 2) * 149760) + p.layers * ((p.ringPages + 1) * 256) * 8 +
        (p.workspacePages + 1) * 149760 := by
  have hpage : p.config.pageSize = pageSize := rfl
  have hlayers : p.config.layers = p.layers := rfl
  have htwo : 2 ≤ pageSize := p.config.two_le_pageSize
  have hrows : p.config.rows + pageSize = (p.ringPages + 1) * pageSize := by
    rw [config_rows, show pageSize = 256 from rfl]
    ring
  have hwork : p.config.wholePages p.workspaceRows = p.workspacePages * pageSize := rfl
  have hne : p.workspaceRows ≠ 0 := by
    have hmax : p.chunk ≤ max p.chunk ((p.slots + 1) * (1 + p.draft)) := le_max_left ..
    have hchunk := p.one_le_chunk
    rw [workspaceRows]
    omega
  rw [allocatedBytes, WindowConfig.allocatedBytes, if_neg hne, hpage, hlayers, hrows, hwork,
    poolBytes, poolBytes, poolPages_mul _ htwo, poolPages_mul _ htwo, pageBytes_v4,
    show pageSize = 256 from rfl]
  push_cast
  ring

/-- The comparison of the two totals comes down to what one layer lacks, times the layers. -/
theorem allocatedBytes_le_iff :
    p.allocatedBytes ≤ p.reservedBytes ↔
      (p.layers : ℤ) * (147968 - 1792 * p.ringPages) ≤ p.scratchSlack := by
  have hdiff : p.allocatedBytes - p.reservedBytes =
      p.layers * (147968 - 1792 * p.ringPages) - p.scratchSlack := by
    rw [allocatedBytes_eq, reservedBytes_eq, scratchSlack]
    push_cast
    ring
  rw [← sub_nonpos, hdiff, sub_nonpos]

/-- The workspace is never more than the scratch rows pay for: its rows are at most twice the
larger part of `scratch`, and a row of each slot. -/
theorem scratchSlack_nonneg : 0 ≤ p.scratchSlack := by
  have hslots := p.two_le_slots
  rw [scratchSlack, scratch, workspacePages, workspaceRows, swaWindow, pageSize]
  -- `m` bounds the rows of a chunk and those of all drafts
  generalize hm : max p.chunk (p.slots * max 128 p.draft) = m
  have hcm : p.chunk ≤ m := hm ▸ le_max_left ..
  have hdm : p.slots * p.draft ≤ m :=
    hm ▸ (Nat.mul_le_mul_left _ (le_max_right ..)).trans (le_max_right ..)
  have hdraft : p.draft ≤ p.slots * p.draft := Nat.le_mul_of_pos_left _ (by omega)
  have hrows : (p.slots + 1) * (1 + p.draft) = p.slots * p.draft + p.draft + p.slots + 1 := by ring
  have hmax : max p.chunk ((p.slots + 1) * (1 + p.draft)) ≤ 2 * m + p.slots + 1 := by
    rw [hrows]
    omega
  omega

/-- **The bytes that the configurator reserves for the request window cover what it allocates
exactly when the rings of a layer have 83 pages, or the layers are so few that the scratch rows pay
for the page that each of them has too many.** -/
theorem reservedBytes_enough_iff :
    p.allocatedBytes ≤ p.reservedBytes ↔
      83 ≤ p.ringPages ∨
        (p.layers : ℤ) ≤ p.scratchSlack / (147968 - 1792 * p.ringPages) := by
  rw [allocatedBytes_le_iff]
  rcases Nat.lt_or_ge p.ringPages 83 with hfew | hmany
  · have hlack : (0 : ℤ) < 147968 - 1792 * p.ringPages := by omega
    rw [Int.le_ediv_iff_mul_le hlack]
    exact ⟨Or.inr, fun h => h.resolve_left (by omega)⟩
  · have hlack : (147968 - 1792 * p.ringPages : ℤ) ≤ 0 := by omega
    refine ⟨fun _ => Or.inl hmany, fun _ => ?_⟩
    exact (mul_nonpos_of_nonneg_of_nonpos (Int.natCast_nonneg _) hlack).trans p.scratchSlack_nonneg

/-- **One request on 61 layers, with prefill in chunks of 2048 tokens: the scratch rows pay for half
of the pages that are not reserved.** -/
theorem not_reservedBytes_enough :
    ¬ ∀ p : WindowSizes, p.allocatedBytes ≤ p.reservedBytes := by
  intro hclaim
  have h := hclaim ⟨2, 61, 2048, 0, by decide, by decide, by decide⟩
  revert h
  decide +kernel

end WindowSizes

end LuzServing

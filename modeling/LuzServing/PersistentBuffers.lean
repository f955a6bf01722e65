import LuzServing.Fp4BridgeRuns

/-!
# The persistent buffers of the bridge

The bridge keeps its scratch and its identity indices in buffers that only grow. CUDA graphs hold
on to the addresses of a buffer, so one that is replaced is retired, not freed, and the indices are
filled in once, where a mark says how far.

`Fp4Bridge` has the buffers of a device as values. Here they are in a heap of blocks, of all devices
together, with an allocator that takes any block that nobody holds and finds in it what was left
there, and with the rest of the process writing wherever it may between two calls. The indices are
`int32` in the bytes of their block.

**Every index that was ever handed out stays what it was** (`bridgeHeap_handed`): the mark is the
length of the buffer in use, so what is filled is a fresh block, and a scratch is never a block of
indices. A call does to the values of its device what `Fp4Bridge` says
(`BridgeHeap.repackFp4ExtraToV4_buffers`).
-/

namespace LuzServing

/-! ## Buffers that grow -/

/-- A block of device memory. -/
abbrev Block : Type := ℕ

/-- A tensor at the start of a block, by its first dimension. -/
structure Buf : Type where
  /-- its storage -/
  block : Block
  /-- `shape[0]` -/
  rows : ℕ
  deriving DecidableEq

/-- The entries of a key: `buffers[key]` and `buffers[key + ":retired"]`. -/
structure Grown : Type where
  /-- the buffer in use -/
  current : Option Buf
  /-- those that it replaced -/
  retired : List Buf

namespace Grown

/-- The entry of a key that holds no buffer. -/
def empty : Grown := ⟨none, []⟩

/-- The buffers that the entries refer to. -/
def held (g : Grown) : List Buf := g.current.toList ++ g.retired

end Grown

section
variable {K : Type} [DecidableEq K]

/-- `_persistent_buffer`, where `torch.empty` takes the block `fresh`. -/
def Grown.persistentBuffer (buffers : K → Grown) (key : K) (fresh : Block) (rows : ℕ) :
    (K → Grown) × Buf :=
  match (buffers key).current with
  | some buf =>
    if rows ≤ buf.rows then (buffers, ⟨buf.block, rows⟩)
    else (Function.update buffers key ⟨some ⟨fresh, rows⟩, (buffers key).retired ++ [buf]⟩,
      ⟨fresh, rows⟩)
  | none =>
    (Function.update buffers key ⟨some ⟨fresh, rows⟩, (buffers key).retired⟩, ⟨fresh, rows⟩)

end

/-! ## The indices in their bytes -/

/-- The `int32` at place `i` of a block. -/
def int32At (m : Memory) (i : ℕ) : ℤ :=
  toInt32 ((m (4 * i)).toNat + 256 * (m (4 * i + 1)).toNat + 65536 * (m (4 * i + 2)).toNat +
    16777216 * (m (4 * i + 3)).toNat : ℕ)

/-- `torch.arange(n, dtype=torch.int32, out=ids)` -/
def arangeInt32 (n : ℕ) (m : Memory) : Memory := fun a =>
  if a / 4 < n then UInt8.ofNat (a / 4 / 256 ^ (a % 4)) else m a

/-! ## The bridge over a heap -/

/-- The keys of the bridge, of a device each. -/
inductive BufferKey (D : Type) : Type where
  /-- `dsv4_fp4_bridge_scratch:{dev}` -/
  | scratch (dev : D)
  /-- `dsv4_fp4_bridge_ids:{dev}` -/
  | ids (dev : D)
  deriving DecidableEq

/-- Device memory and the registry of the buffers in it. -/
structure BridgeHeap (D : Type) : Type where
  /-- the bytes of each block -/
  memory : Block → Memory
  /-- the entries of the buffers -/
  buffers : BufferKey D → Grown
  /-- `buffers[ids_key + ":filled"]` -/
  filled : D → ℕ

/-- How many programs a launch may have: their ids are `int32`. -/
structure LaunchLimit : Type where
  /-- the greatest grid -/
  max : ℕ
  /-- which an `int32` counts -/
  lt : max < 2 ^ 31

/-- A call of the bridge. -/
structure HeapCall (D : Type) : Type where
  /-- the device -/
  dev : D
  /-- the pool -/
  pool : Fp4Pool
  /-- the slots -/
  flatIdx : ℕ → ℤ
  /-- how many -/
  n : ℕ
  /-- the block that a new scratch would get -/
  freshScratch : Block
  /-- and a new buffer of indices -/
  freshIds : Block
  /-- in which order the programs of the launch run -/
  order : List ℕ
  /-- each once -/
  order_perm : order.Perm (List.range n)

/-- What a call returns: views of a scratch and of indices. -/
structure Handed (D : Type) : Type where
  /-- the device -/
  dev : D
  /-- the rows that were asked for -/
  n : ℕ
  /-- the scratch, in pages -/
  scratch : Buf
  /-- the indices -/
  ids : Buf

section
variable {D F : Type} [DecidableEq D] (o : FloatOps F) (limit : LaunchLimit)

/-- The scratch of a call. -/
def BridgeHeap.scratchBuffer (h : BridgeHeap D) (dev : D) (fresh : Block) (numDstPages : ℕ) :
    BridgeHeap D × Buf :=
  let (buffers, scratch) :=
    Grown.persistentBuffer h.buffers (.scratch dev) fresh numDstPages
  ({ h with buffers := buffers }, scratch)

/-- The indices of a call: a prefix of a buffer that was filled in, or they are filled in now. -/
def BridgeHeap.idsBuffer (h : BridgeHeap D) (dev : D) (fresh : Block) (n : ℕ) :
    BridgeHeap D × Buf :=
  let (buffers, ids) := Grown.persistentBuffer h.buffers (.ids dev) fresh n
  if h.filled dev < n then
    (⟨Function.update h.memory ids.block (arangeInt32 n (h.memory ids.block)), buffers,
      Function.update h.filled dev n⟩, ids)
  else ({ h with buffers := buffers }, ids)

/-- `repack_fp4_extra_to_v4`: the heap after the call and what it returns, unless it raises. -/
def BridgeHeap.repackFp4ExtraToV4 (h : BridgeHeap D) (c : HeapCall D) :
    BridgeHeap D × Option (Handed D) :=
  if c.n = 0 then (h, none)
  else
    let numDstPages := (c.n + dstPageSize - 1) / dstPageSize
    let (h, scratch) := h.scratchBuffer c.dev c.freshScratch numDstPages
    let (h, ids) := h.idsBuffer c.dev c.freshIds c.n
    if limit.max < c.n then (h, none)
    else
      let bytes := repackFp4ToV4Kernel o c.pool.bytes c.pool.pageBytes (c.pool.pageSize.size - 1)
        (fun k => toInt32 (c.flatIdx k)) c.order (h.memory scratch.block)
      ({ h with memory := Function.update h.memory scratch.block bytes },
        some ⟨c.dev, c.n, scratch, ids⟩)

end

/-! ## Who holds which block -/

namespace Grown

variable {K : Type} {buffers : K → Grown}

/-- A buffer is replaced by one in a fresh block. -/
def grow (g : Grown) (fresh : Block) (rows : ℕ) : Grown :=
  ⟨some ⟨fresh, rows⟩, g.retired ++ g.current.toList⟩

/-- The buffer that is in use is one of the buffers that its key holds. -/
theorem mem_held_of_current {g : Grown} {cur : Buf} (hcur : g.current = some cur) : cur ∈ g.held :=
  List.mem_append_left _ (Option.mem_toList.mpr hcur)

theorem held_grow_perm (g : Grown) (fresh : Block) (rows : ℕ) :
    (g.grow fresh rows).held.Perm (⟨fresh, rows⟩ :: g.held) := by
  change (⟨fresh, rows⟩ :: (g.retired ++ g.current.toList)).Perm
    (⟨fresh, rows⟩ :: (g.current.toList ++ g.retired))
  exact List.perm_append_comm.cons _

theorem mem_held_grow {g : Grown} {fresh : Block} {rows : ℕ} {buf : Buf} :
    buf ∈ (g.grow fresh rows).held ↔ buf = ⟨fresh, rows⟩ ∨ buf ∈ g.held := by
  rw [(g.held_grow_perm fresh rows).mem_iff, List.mem_cons]

/-- The block belongs to no buffer that any key holds. -/
def Unused (buffers : K → Grown) (block : Block) : Prop :=
  ∀ key, ∀ buf ∈ (buffers key).held, buf.block ≠ block

/-- No two buffers of the registry are in one block. -/
structure Apart (buffers : K → Grown) : Prop where
  /-- not of one key -/
  nodup : ∀ key, ((buffers key).held.map Buf.block).Nodup
  /-- nor of two -/
  disjoint : ∀ key key', key ≠ key' → ∀ buf ∈ (buffers key).held, ∀ buf' ∈ (buffers key').held,
    buf.block ≠ buf'.block

/-- The buffer in use is in none of the retired blocks. -/
theorem Apart.current_ne (h : Apart buffers) {key : K} {cur buf : Buf}
    (hcur : (buffers key).current = some cur) (hbuf : buf ∈ (buffers key).retired) :
    buf.block ≠ cur.block := by
  have hnodup := h.nodup key
  rw [held, hcur, Option.toList_some, List.singleton_append, List.map_cons,
    List.nodup_cons] at hnodup
  exact fun heq => hnodup.1 (heq ▸ List.mem_map_of_mem hbuf)

variable [DecidableEq K]

/-- **A buffer is kept if it is large enough, and replaced otherwise.** -/
theorem persistentBuffer_cases (buffers : K → Grown) (key : K) (fresh : Block) (rows : ℕ) :
    (∃ buf, (buffers key).current = some buf ∧ rows ≤ buf.rows ∧
        persistentBuffer buffers key fresh rows = (buffers, ⟨buf.block, rows⟩)) ∨
      (∀ buf, (buffers key).current = some buf → buf.rows < rows) ∧
        persistentBuffer buffers key fresh rows =
          (Function.update buffers key ((buffers key).grow fresh rows), ⟨fresh, rows⟩) := by
  rw [persistentBuffer, grow]
  cases hcur : (buffers key).current with
  | none =>
    refine .inr ⟨fun buf h => absurd h.symm (Option.some_ne_none buf), ?_⟩
    rw [Option.toList_none, List.append_nil]
  | some buf =>
    by_cases hle : rows ≤ buf.rows
    · exact .inl ⟨buf, rfl, hle, if_pos hle⟩
    · refine .inr ⟨fun buf' h => ?_, if_neg hle⟩
      obtain rfl := Option.some.inj h
      exact Nat.lt_of_not_le hle

/-- After a buffer of a key grew, the key holds the fresh one in addition, and the other keys what
they held. -/
theorem held_update_grow {key k : K} {fresh : Block} {rows : ℕ} {buf : Buf} :
    buf ∈ (Function.update buffers key ((buffers key).grow fresh rows) k).held ↔
      (k = key ∧ buf = ⟨fresh, rows⟩) ∨ buf ∈ (buffers k).held := by
  by_cases hk : k = key
  · subst hk
    rw [Function.update_self, mem_held_grow]
    simp
  · rw [Function.update_of_ne hk]
    simp [hk]

/-- A block that is unused keeps the buffers apart when a key grows into it. -/
theorem Apart.grow (h : Apart buffers) {fresh : Block} (hfresh : Unused buffers fresh) (key : K)
    (rows : ℕ) : Apart (Function.update buffers key ((buffers key).grow fresh rows)) := by
  refine ⟨fun k => ?_, fun k k' hne buf hbuf buf' hbuf' => ?_⟩
  · by_cases hk : k = key
    · subst hk
      have hperm : (((buffers k).grow fresh rows).held.map Buf.block).Perm
          (fresh :: (buffers k).held.map Buf.block) :=
        ((buffers k).held_grow_perm fresh rows).map Buf.block
      rw [Function.update_self, hperm.nodup_iff]
      refine List.nodup_cons.mpr ⟨fun hin => ?_, h.nodup k⟩
      obtain ⟨buf, hbuf, heq⟩ := List.mem_map.mp hin
      exact hfresh k buf hbuf heq
    · rw [Function.update_of_ne hk]
      exact h.nodup k
  · rcases held_update_grow.mp hbuf with ⟨rfl, rfl⟩ | hold
    · rcases held_update_grow.mp hbuf' with ⟨rfl, rfl⟩ | hold'
      · exact absurd rfl hne
      · exact (hfresh k' buf' hold').symm
    · rcases held_update_grow.mp hbuf' with ⟨rfl, rfl⟩ | hold'
      · exact hfresh k buf hold
      · exact h.disjoint k k' hne buf hold buf' hold'

/-- A call for one key leaves the buffers of every other key as they were. -/
theorem persistentBuffer_of_ne (buffers : K → Grown) {key k : K} (hk : k ≠ key) (fresh : Block)
    (rows : ℕ) :
    (persistentBuffer buffers key fresh rows).1 k = buffers k := by
  rcases persistentBuffer_cases buffers key fresh rows with ⟨_, -, -, heq⟩ | ⟨-, heq⟩
  · rw [heq]
  · rw [heq]
    exact Function.update_of_ne hk ..

/-- A buffer that a key holds is held for ever, even after a larger one has replaced it. -/
theorem held_persistentBuffer {key k : K} {fresh : Block} {rows : ℕ} {buf : Buf}
    (hbuf : buf ∈ (buffers k).held) :
    buf ∈ ((persistentBuffer buffers key fresh rows).1 k).held := by
  rcases persistentBuffer_cases buffers key fresh rows with ⟨_, -, -, heq⟩ | ⟨-, heq⟩
  · rwa [heq]
  · rw [heq]
    exact held_update_grow.mpr (.inr hbuf)

/-- A block that nobody holds and that is not taken either. -/
theorem Unused.persistentBuffer {fresh block : Block} (h : Unused buffers block)
    (hne : fresh ≠ block) (key : K) (rows : ℕ) :
    Unused (persistentBuffer buffers key fresh rows).1 block := by
  rcases persistentBuffer_cases buffers key fresh rows with ⟨_, -, -, heq⟩ | ⟨-, heq⟩
  · rwa [heq]
  · rw [heq]
    intro k buf hbuf
    rcases held_update_grow.mp hbuf with ⟨-, rfl⟩ | hold
    · exact hne
    · exact h k buf hold

/-- A view of the first rows of a buffer that is held. -/
def View (buffers : K → Grown) (key : K) (view : Buf) : Prop :=
  ∃ buf ∈ (buffers key).held, buf.block = view.block ∧ view.rows ≤ buf.rows

/-- The buffer that is returned has the rows that were asked for, and it is a view of one that is
held. -/
theorem persistentBuffer_view (buffers : K → Grown) (key : K) (fresh : Block) (rows : ℕ) :
    (persistentBuffer buffers key fresh rows).2.rows = rows ∧
      View (persistentBuffer buffers key fresh rows).1 key
        (persistentBuffer buffers key fresh rows).2 := by
  rcases persistentBuffer_cases buffers key fresh rows with ⟨buf, hcur, hle, heq⟩ | ⟨-, heq⟩
  · rw [heq]
    exact ⟨rfl, buf, mem_held_of_current hcur, rfl, hle⟩
  · rw [heq]
    exact ⟨rfl, _, held_update_grow.mpr (.inl ⟨rfl, rfl⟩), rfl, le_rfl⟩

/-- A view of a held buffer is still one after any call that lets the buffers grow. -/
theorem View.persistentBuffer {key k : K} {view : Buf} (h : View buffers k view) (fresh : Block)
    (rows : ℕ) : View (persistentBuffer buffers key fresh rows).1 k view := by
  obtain ⟨buf, hbuf, hview⟩ := h
  exact ⟨buf, held_persistentBuffer hbuf, hview⟩

end Grown

/-! ## What is filled in -/

theorem arangeInt32_byte {n i k : ℕ} (m : Memory) (hi : i < n) (hk : k < 4) :
    (arangeInt32 n m (4 * i + k)).toNat = i / 256 ^ k % 256 := by
  have hdiv : (4 * i + k) / 4 = i := by omega
  have hmod : (4 * i + k) % 4 = k := by omega
  rw [arangeInt32, hdiv, hmod, if_pos hi, UInt8.toNat_ofNat']

/-- **What `torch.arange` fills in**: at each place below its length it puts the place as an
`int32`. -/
theorem int32At_arangeInt32 {n i : ℕ} (m : Memory) (hi : i < n) :
    int32At (arangeInt32 n m) i = toInt32 i := by
  have h0 := arangeInt32_byte (k := 0) m hi (by decide)
  have h1 := arangeInt32_byte (k := 1) m hi (by decide)
  have h2 := arangeInt32_byte (k := 2) m hi (by decide)
  have h3 := arangeInt32_byte (k := 3) m hi (by decide)
  have hsum : i / 256 ^ 0 % 256 + 256 * (i / 256 ^ 1 % 256) + 65536 * (i / 256 ^ 2 % 256) +
      16777216 * (i / 256 ^ 3 % 256) = i % 2 ^ 32 := by
    norm_num
    omega
  rw [Nat.add_zero] at h0
  rw [int32At, h0, h1, h2, h3, hsum, Int.natCast_mod, toInt32, toInt32]
  exact Int.emod_bmod ..

/-- From its length on `torch.arange` leaves the memory as it was. -/
theorem int32At_arangeInt32_of_le {n i : ℕ} (m : Memory) (hi : n ≤ i) :
    int32At (arangeInt32 n m) i = int32At m i := by
  have hbyte : ∀ k, k < 4 → arangeInt32 n m (4 * i + k) = m (4 * i + k) := fun k hk =>
    if_neg (by omega)
  rw [int32At, int32At, hbyte 1 (by decide), hbyte 2 (by decide), hbyte 3 (by decide)]
  rw [show arangeInt32 n m (4 * i) = m (4 * i) from hbyte 0 (by decide)]

/-- The number of a row within a launch is an `int32`, so the conversion does not change it. -/
theorem LaunchLimit.toInt32_eq (limit : LaunchLimit) {i : ℕ} (hi : i < limit.max) :
    toInt32 i = i := by
  have hlt := limit.lt
  exact Int.bmod_eq_of_le (by norm_num) (by norm_num; omega)

/-! ## The invariant -/

section
variable {D F : Type} {o : FloatOps F} {limit : LaunchLimit} {h : BridgeHeap D} {c : HeapCall D}

/-- No buffers share a block, the mark is the length of the buffer of indices in use, and every
buffer of indices, in use or retired, holds the identity. -/
structure BridgeHeap.Inv (h : BridgeHeap D) : Prop where
  /-- the buffers -/
  apart : Grown.Apart h.buffers
  /-- the mark -/
  filled : ∀ dev, h.filled dev = (h.buffers (.ids dev)).current.elim 0 Buf.rows
  /-- the indices -/
  identity : ∀ dev, ∀ buf ∈ (h.buffers (.ids dev)).held, ∀ i, i < buf.rows →
    int32At (h.memory buf.block) i = toInt32 i

/-- What the allocator takes for a call is nobody's. -/
structure HeapCall.Fresh (h : BridgeHeap D) (c : HeapCall D) : Prop where
  /-- for a scratch -/
  scratch : Grown.Unused h.buffers c.freshScratch
  /-- for indices -/
  ids : Grown.Unused h.buffers c.freshIds
  /-- and not the same for both -/
  ne : c.freshScratch ≠ c.freshIds

/-- **Who writes no index keeps the invariant**, whatever is written to the other blocks. -/
theorem BridgeHeap.Inv.write (hinv : h.Inv) {memory : Block → Memory}
    (hsame : ∀ dev, ∀ buf ∈ (h.buffers (.ids dev)).held, memory buf.block = h.memory buf.block) :
    BridgeHeap.Inv { h with memory := memory } := by
  refine ⟨hinv.apart, hinv.filled, fun dev buf hbuf i hi => ?_⟩
  dsimp only
  rw [hsame dev buf hbuf]
  exact hinv.identity dev buf hbuf i hi

theorem ids_ne_scratch (dev dev' : D) : BufferKey.ids dev ≠ .scratch dev' := nofun

variable [DecidableEq D]

/-- Asking for the scratch of a device keeps the invariant, whether it is kept or newly
allocated. -/
theorem BridgeHeap.Inv.scratchBuffer (hinv : h.Inv) (dev : D) {fresh : Block}
    (hfresh : Grown.Unused h.buffers fresh) (numDstPages : ℕ) :
    (h.scratchBuffer dev fresh numDstPages).1.Inv := by
  rcases Grown.persistentBuffer_cases h.buffers (.scratch dev) fresh numDstPages with
    ⟨_, -, -, heq⟩ | ⟨-, heq⟩
  · rw [BridgeHeap.scratchBuffer, heq]
    exact hinv
  · have hids : ∀ dev', Function.update h.buffers (.scratch dev)
        ((h.buffers (.scratch dev)).grow fresh numDstPages) (.ids dev') = h.buffers (.ids dev') :=
      fun dev' => Function.update_of_ne (ids_ne_scratch dev' dev) ..
    rw [BridgeHeap.scratchBuffer, heq]
    refine ⟨hinv.apart.grow hfresh _ numDstPages, fun dev' => ?_, fun dev' buf hbuf => ?_⟩
    · exact (hinv.filled dev').trans (congrArg (·.current.elim 0 Buf.rows) (hids dev').symm)
    · exact hinv.identity dev' buf (hids dev' ▸ hbuf)

/-- **What a call does to the indices**: they are a prefix of the buffer in use, or a new one that
is filled in. -/
theorem BridgeHeap.idsBuffer_cases (hinv : h.Inv) (dev : D) (fresh : Block) {n : ℕ} (hn : 0 < n) :
    (∃ buf, (h.buffers (.ids dev)).current = some buf ∧ n ≤ buf.rows ∧
        h.idsBuffer dev fresh n = (h, ⟨buf.block, n⟩)) ∨
      h.idsBuffer dev fresh n =
        (⟨Function.update h.memory fresh (arangeInt32 n (h.memory fresh)),
          Function.update h.buffers (.ids dev) ((h.buffers (.ids dev)).grow fresh n),
          Function.update h.filled dev n⟩, ⟨fresh, n⟩) := by
  have hmark := hinv.filled dev
  rcases Grown.persistentBuffer_cases h.buffers (.ids dev) fresh n with
    ⟨buf, hcur, hle, heq⟩ | ⟨hsmall, heq⟩
  · -- the mark covers the prefix
    rw [hcur, Option.elim_some] at hmark
    refine .inl ⟨buf, hcur, hle, ?_⟩
    rw [BridgeHeap.idsBuffer, heq]
    exact if_neg (by omega)
  · -- the mark is the length of a buffer that is too small
    have hlt : h.filled dev < n := by
      cases hcur : (h.buffers (.ids dev)).current with
      | none => rwa [hmark, hcur]
      | some buf =>
        rw [hmark, hcur]
        exact hsmall buf hcur
    refine .inr ?_
    rw [BridgeHeap.idsBuffer, heq]
    exact if_pos hlt

/-- **A new buffer of indices, filled in whole, keeps the invariant.** -/
theorem BridgeHeap.Inv.idsBuffer (hinv : h.Inv) (dev : D) {fresh : Block}
    (hfresh : Grown.Unused h.buffers fresh) {n : ℕ} (hn : 0 < n) :
    (h.idsBuffer dev fresh n).1.Inv := by
  rcases BridgeHeap.idsBuffer_cases hinv dev fresh hn with ⟨_, -, -, heq⟩ | heq
  · rwa [heq]
  · rw [heq]
    refine ⟨hinv.apart.grow hfresh _ n, fun dev' => ?_, fun dev' buf hbuf i hi => ?_⟩
    · by_cases hdev : dev' = dev
      · subst hdev
        simp only [Function.update_self]
        rfl
      · have hkey : BufferKey.ids dev' ≠ .ids dev := fun h => hdev (BufferKey.ids.inj h)
        simp only [Function.update_of_ne hdev, Function.update_of_ne hkey]
        exact hinv.filled dev'
    · dsimp only at hbuf ⊢
      rcases Grown.held_update_grow.mp hbuf with ⟨-, rfl⟩ | hold
      · rw [Function.update_self]
        exact int32At_arangeInt32 _ hi
      · rw [Function.update_of_ne (hfresh _ buf hold)]
        exact hinv.identity dev' buf hold i hi

end

/-! ## A call -/

section
variable {D F : Type} {o : FloatOps F} {limit : LaunchLimit} {h : BridgeHeap D} {c : HeapCall D}

/-- What was handed out is there: enough pages, and as many indices as were asked for, in buffers
that the registry still refers to. -/
structure BridgeHeap.Holds (limit : LaunchLimit) (h : BridgeHeap D) (v : Handed D) : Prop where
  /-- the pages -/
  pages : v.scratch.rows = (v.n + dstPageSize - 1) / dstPageSize
  /-- in a scratch of the device -/
  scratch : Grown.View h.buffers (.scratch v.dev) v.scratch
  /-- the indices -/
  length : v.ids.rows = v.n
  /-- in indices of the device -/
  ids : Grown.View h.buffers (.ids v.dev) v.ids
  /-- an `int32` counts them -/
  le : v.n ≤ limit.max

/-- The indices that were handed out to a call are still the identity over its rows. -/
theorem BridgeHeap.Inv.int32At_eq (hinv : h.Inv) {v : Handed D} (hv : h.Holds limit v) {i : ℕ}
    (hi : i < v.n) : int32At (h.memory v.ids.block) i = i := by
  obtain ⟨buf, hbuf, hblock, hle⟩ := hv.ids
  have hrows : i < buf.rows := lt_of_lt_of_le hi (hv.length ▸ hle)
  rw [← hblock, hinv.identity v.dev buf hbuf i hrows]
  exact limit.toInt32_eq (lt_of_lt_of_le hi hv.le)

/-- A launch of the kernel writes the scratch and no index, so the invariant is kept. -/
theorem BridgeHeap.Inv.launch (hinv : h.Inv) {dev : D} {scratch : Buf}
    (hview : Grown.View h.buffers (.scratch dev) scratch) (bytes : Memory) :
    BridgeHeap.Inv { h with memory := Function.update h.memory scratch.block bytes } := by
  obtain ⟨buf, hbuf, hblock, -⟩ := hview
  refine hinv.write fun dev' buf' hbuf' => Function.update_of_ne ?_ ..
  rw [← hblock]
  exact hinv.apart.disjoint _ _ (ids_ne_scratch dev' dev) buf' hbuf' buf hbuf

variable [DecidableEq D]

/-- **The scratch of a call**: as many pages as were asked for. -/
theorem BridgeHeap.scratchBuffer_spec (hinv : h.Inv) (dev : D) {fresh : Block}
    (hfresh : Grown.Unused h.buffers fresh) (numDstPages : ℕ) :
    ∃ h₁ scratch, h.scratchBuffer dev fresh numDstPages = (h₁, scratch) ∧ h₁.Inv ∧
      scratch.rows = numDstPages ∧ Grown.View h₁.buffers (.scratch dev) scratch ∧
      (∀ k view, Grown.View h.buffers k view → Grown.View h₁.buffers k view) ∧
      ∀ block, Grown.Unused h.buffers block → fresh ≠ block → Grown.Unused h₁.buffers block := by
  obtain ⟨hrows, hview⟩ := Grown.persistentBuffer_view h.buffers (.scratch dev) fresh numDstPages
  exact ⟨_, _, rfl, hinv.scratchBuffer dev hfresh numDstPages, hrows, hview,
    fun k view hold => hold.persistentBuffer fresh numDstPages,
    fun block hblock hne => hblock.persistentBuffer hne _ numDstPages⟩

/-- What a call does to the memory and the mark of the indices: nothing, or it fills in the view. -/
theorem BridgeHeap.idsBuffer_eq (h : BridgeHeap D) {dev : D} {fresh : Block} {n : ℕ}
    {buffers : BufferKey D → Grown} {ids : Buf}
    (hgrown : Grown.persistentBuffer h.buffers (.ids dev) fresh n = (buffers, ids)) :
    ∃ memory filled, h.idsBuffer dev fresh n = (⟨memory, buffers, filled⟩, ids) ∧
      (∀ block, block ≠ ids.block → memory block = h.memory block) ∧
      memory ids.block = (if h.filled dev < n then arangeInt32 n (h.memory ids.block)
        else h.memory ids.block) ∧
      filled dev = if h.filled dev < n then n else h.filled dev := by
  rw [BridgeHeap.idsBuffer, hgrown]
  dsimp only
  by_cases hlt : h.filled dev < n
  · rw [if_pos hlt, if_pos hlt, if_pos hlt]
    exact ⟨_, _, rfl, fun block hne => Function.update_of_ne hne .., Function.update_self ..,
      Function.update_self ..⟩
  · rw [if_neg hlt, if_neg hlt, if_neg hlt]
    exact ⟨_, _, rfl, fun _ _ => rfl, rfl, rfl⟩

/-- **The indices of a call**: as many as were asked for. -/
theorem BridgeHeap.idsBuffer_spec (hinv : h.Inv) (dev : D) {fresh : Block}
    (hfresh : Grown.Unused h.buffers fresh) {n : ℕ} (hn : 0 < n) :
    ∃ h₂ ids, h.idsBuffer dev fresh n = (h₂, ids) ∧ h₂.Inv ∧ ids.rows = n ∧
      Grown.View h₂.buffers (.ids dev) ids ∧
      ∀ k view, Grown.View h.buffers k view → Grown.View h₂.buffers k view := by
  have hview := Grown.persistentBuffer_view h.buffers (.ids dev) fresh n
  have hkept : ∀ k view, Grown.View h.buffers k view →
      Grown.View (Grown.persistentBuffer h.buffers (.ids dev) fresh n).1 k view :=
    fun k view hold => hold.persistentBuffer fresh n
  rcases hgrown : Grown.persistentBuffer h.buffers (.ids dev) fresh n with ⟨buffers, ids⟩
  rw [hgrown] at hview hkept
  obtain ⟨memory, filled, hcall, -⟩ := h.idsBuffer_eq hgrown
  have hinv₂ := hinv.idsBuffer dev hfresh hn
  rw [hcall] at hinv₂
  exact ⟨_, _, hcall, hinv₂, hview.1, hview.2, hkept⟩

variable (o limit) in
/-- **What a call does.** It keeps the invariant and gives up no buffer; what it hands out is
there, and it hands something out when a launch may have so many programs. -/
theorem BridgeHeap.repackFp4ExtraToV4_spec (hinv : h.Inv) (hfresh : c.Fresh h) :
    ∃ h' handed, h.repackFp4ExtraToV4 o limit c = (h', handed) ∧ h'.Inv ∧
      (∀ k view, Grown.View h.buffers k view → Grown.View h'.buffers k view) ∧
      (∀ v, handed = some v → h'.Holds limit v) ∧
      (0 < c.n → c.n ≤ limit.max → ∃ v, handed = some v ∧ v.dev = c.dev ∧ v.n = c.n) := by
  by_cases hn : c.n = 0
  · exact ⟨h, none, if_pos hn, hinv, fun _ _ hview => hview, nofun,
      fun hpos => absurd hn hpos.ne'⟩
  · obtain ⟨h₁, scratch, heq₁, hinv₁, hpages, hscratch, hkept₁, hunused⟩ :=
      BridgeHeap.scratchBuffer_spec hinv c.dev hfresh.scratch
        ((c.n + dstPageSize - 1) / dstPageSize)
    obtain ⟨h₂, ids, heq₂, hinv₂, hlength, hids, hkept₂⟩ :=
      BridgeHeap.idsBuffer_spec hinv₁ c.dev (hunused _ hfresh.ids hfresh.ne)
        (Nat.pos_of_ne_zero hn)
    have hkept : ∀ k view, Grown.View h.buffers k view → Grown.View h₂.buffers k view :=
      fun k view hview => hkept₂ k view (hkept₁ k view hview)
    simp only [repackFp4ExtraToV4, if_neg hn, heq₁, heq₂]
    by_cases hmax : limit.max < c.n
    · exact ⟨h₂, none, if_pos hmax, hinv₂, hkept, nofun, fun _ hle => absurd hmax hle.not_gt⟩
    · refine ⟨_, _, if_neg hmax, hinv₂.launch (hkept₂ _ _ hscratch) _, hkept, ?_,
        fun _ _ => ⟨_, rfl, rfl, rfl⟩⟩
      rintro v ⟨⟩
      exact ⟨hpages, hkept₂ _ _ hscratch, hlength, hids, Nat.le_of_not_lt hmax⟩

end

/-! ## The buffers of a device as values -/

section
variable {α : Type}

/-- The buffers of a key with what is in them. -/
def Grown.values (f : Block → ℕ → α) (g : Grown) : Kept α where
  current := g.current.map fun buf => ⟨buf.rows, f buf.block⟩
  retired := g.retired.map fun buf => ⟨buf.rows, f buf.block⟩

/-- **A buffer that grows, by its values**: on the blocks a call does what it does on their
values. -/
theorem Grown.persistentBuffer_values {K : Type} [DecidableEq K] (f : Block → ℕ → α)
    (buffers : K → Grown) (key : K) (fresh : Block) (rows : ℕ) :
    ∃ cur, ((Grown.persistentBuffer buffers key fresh rows).1 key).current = some cur ∧
      cur.block = (Grown.persistentBuffer buffers key fresh rows).2.block ∧
      LuzServing.persistentBuffer (f fresh) ((buffers key).values f) rows =
        (((Grown.persistentBuffer buffers key fresh rows).1 key).values f,
          ⟨cur.rows, f cur.block⟩) := by
  rw [Grown.persistentBuffer, LuzServing.persistentBuffer, Grown.values]
  cases hcur : (buffers key).current with
  | none =>
    refine ⟨⟨fresh, rows⟩, ?_⟩
    simp [Grown.values]
  | some buf =>
    by_cases hle : rows ≤ buf.rows
    · refine ⟨buf, ?_⟩
      simp [Grown.values, hcur, hle]
    · refine ⟨⟨fresh, rows⟩, ?_⟩
      simp [Grown.values, hle]

/-- The values of what a key holds depend only on the memory of the blocks that it holds. -/
theorem Grown.values_congr {f f' : Block → ℕ → α} {g : Grown}
    (hsame : ∀ buf ∈ g.held, f' buf.block = f buf.block) : g.values f' = g.values f := by
  rw [Grown.values, Grown.values]
  congr 1
  · exact Option.map_congr fun buf hbuf => by
      rw [hsame buf (List.mem_append_left _ (Option.mem_toList.mpr hbuf))]
  · exact List.map_congr_left fun buf hbuf => by
      rw [hsame buf (List.mem_append_right _ hbuf)]

/-- Writing the buffer in use changes its value and leaves the values of the retired ones. -/
theorem Grown.values_write (f f' : Block → ℕ → α) {g : Grown} {cur : Buf}
    (hcur : g.current = some cur) (hretired : ∀ buf ∈ g.retired, f' buf.block = f buf.block) :
    g.values f' = ⟨some ⟨cur.rows, f' cur.block⟩, (g.values f).retired⟩ := by
  rw [Grown.values, hcur, Option.map_some, Grown.values]
  congr 1
  exact List.map_congr_left fun buf hbuf => by rw [hretired buf hbuf]

end

section
variable {D F : Type} {o : FloatOps F} {limit : LaunchLimit} {h : BridgeHeap D} {c : HeapCall D}

/-- The buffers of a device, by their values. -/
def BridgeHeap.values (h : BridgeHeap D) (dev : D) : BridgeBuffers where
  scratch := (h.buffers (.scratch dev)).values h.memory
  ids := (h.buffers (.ids dev)).values fun block i => int32At (h.memory block) i
  filled := h.filled dev

/-- A launch changes the value of the scratch in use, and no other. -/
theorem BridgeHeap.Inv.launch_values (hinv : h.Inv) {dev : D} {cur : Buf}
    (hcur : (h.buffers (.scratch dev)).current = some cur) (bytes : Memory) :
    BridgeHeap.values { h with memory := Function.update h.memory cur.block bytes } dev =
      ⟨⟨some ⟨cur.rows, bytes⟩, (h.values dev).scratch.retired⟩, (h.values dev).ids,
        h.filled dev⟩ := by
  have hmem := Grown.mem_held_of_current hcur
  have hscratch := Grown.values_write h.memory (Function.update h.memory cur.block bytes) hcur
    fun buf hbuf => Function.update_of_ne (hinv.apart.current_ne hcur hbuf) ..
  rw [Function.update_self] at hscratch
  have hids : (h.buffers (.ids dev)).values
        (fun block i => int32At (Function.update h.memory cur.block bytes block) i) =
      (h.buffers (.ids dev)).values fun block i => int32At (h.memory block) i := by
    refine Grown.values_congr fun buf hbuf => ?_
    rw [Function.update_of_ne (hinv.apart.disjoint _ _ (ids_ne_scratch dev dev) buf hbuf cur hmem)]
  rw [BridgeHeap.values]
  dsimp only
  rw [hscratch, hids]
  rfl

variable [DecidableEq D]

/-- The scratch that a call gets, described by its value as the bridge without a heap has it. -/
theorem BridgeHeap.scratchBuffer_values (hinv : h.Inv) (dev : D) {fresh : Block}
    (hfresh : Grown.Unused h.buffers fresh) (numDstPages : ℕ) :
    ∃ h₁ scratch cur, h.scratchBuffer dev fresh numDstPages = (h₁, scratch) ∧ h₁.Inv ∧
      h₁.memory = h.memory ∧ (h₁.buffers (.scratch dev)).current = some cur ∧
      cur.block = scratch.block ∧
      persistentBuffer (h.memory fresh) (h.values dev).scratch numDstPages =
        ((h₁.values dev).scratch, ⟨cur.rows, h.memory cur.block⟩) ∧
      (h₁.values dev).ids = (h.values dev).ids ∧ h₁.filled dev = h.filled dev ∧
      ∀ block, Grown.Unused h.buffers block → fresh ≠ block → Grown.Unused h₁.buffers block := by
  obtain ⟨cur, hcur, hblock, hvalues⟩ := Grown.persistentBuffer_values h.memory h.buffers
    (.scratch dev) fresh numDstPages
  have hids := Grown.persistentBuffer_of_ne h.buffers (ids_ne_scratch dev dev) fresh numDstPages
  have hunused := fun block (hblock : Grown.Unused h.buffers block) (hne : fresh ≠ block) =>
    hblock.persistentBuffer hne (.scratch dev) numDstPages
  have hinv₁ := hinv.scratchBuffer dev hfresh numDstPages
  rcases hgrown : Grown.persistentBuffer h.buffers (.scratch dev) fresh numDstPages with
    ⟨buffers, scratch⟩
  have hcall : h.scratchBuffer dev fresh numDstPages =
      ({ h with buffers := buffers }, scratch) := by
    rw [BridgeHeap.scratchBuffer, hgrown]
  rw [hgrown] at hcur hblock hvalues hids hunused
  rw [hcall] at hinv₁
  refine ⟨_, _, cur, hcall, hinv₁, rfl, hcur, hblock, hvalues, ?_, rfl, hunused⟩
  exact congrArg (Grown.values fun block i => int32At (h.memory block) i) hids

/-- The indices that a call gets, described by their values as the bridge without a heap has
them. -/
theorem BridgeHeap.idsBuffer_values (hinv : h.Inv) (dev : D) {fresh : Block}
    (hfresh : Grown.Unused h.buffers fresh) {n : ℕ} (hn : 0 < n) (hmax : n ≤ limit.max) :
    ∃ h₂ ids kept t, h.idsBuffer dev fresh n = (h₂, ids) ∧ h₂.Inv ∧
      h₂.buffers (.scratch dev) = h.buffers (.scratch dev) ∧
      (∀ buf ∈ (h.buffers (.scratch dev)).held,
        buf.block ≠ ids.block ∧ h₂.memory buf.block = h.memory buf.block) ∧
      persistentBuffer (fun i => int32At (h.memory fresh) i) (h.values dev).ids n = (kept, t) ∧
      (fun i => int32At (h₂.memory ids.block) i) = (if h.filled dev < n then
        fun i => if i < n then (i : ℤ) else t.data i else t.data) ∧
      (h₂.values dev).ids = ⟨some ⟨t.rows, fun i => int32At (h₂.memory ids.block) i⟩,
        kept.retired⟩ ∧
      h₂.filled dev = if h.filled dev < n then n else h.filled dev := by
  obtain ⟨cur, hcur, hblock, hvalues⟩ := Grown.persistentBuffer_values
    (fun block i => int32At (h.memory block) i) h.buffers (.ids dev) fresh n
  have hscratch := Grown.persistentBuffer_of_ne h.buffers (ids_ne_scratch dev dev).symm fresh n
  have hinv₂ := hinv.idsBuffer dev hfresh hn
  rcases hgrown : Grown.persistentBuffer h.buffers (.ids dev) fresh n with ⟨buffers, ids⟩
  obtain ⟨memory, filled, hcall, hsame, hfill, hmark⟩ := h.idsBuffer_eq hgrown
  rw [hcall] at hinv₂
  rw [hgrown] at hcur hblock hvalues hscratch
  have hmem := Grown.mem_held_of_current hcur
  refine ⟨_, ids, _, _, hcall, hinv₂, hscratch, fun buf hbuf => ?_, hvalues, ?_, ?_, hmark⟩
  · rw [← hscratch] at hbuf
    have hne := hinv₂.apart.disjoint _ _ (ids_ne_scratch dev dev).symm buf hbuf cur hmem
    rw [hblock] at hne
    exact ⟨hne, hsame _ hne⟩
  · dsimp only
    rw [hfill, hblock]
    split
    · funext i
      by_cases hi : i < n
      · rw [if_pos hi, int32At_arangeInt32 _ hi]
        exact limit.toInt32_eq (lt_of_lt_of_le hi hmax)
      · rw [if_neg hi]
        exact int32At_arangeInt32_of_le _ (Nat.le_of_not_lt hi)
    · rfl
  · have hwrite := Grown.values_write (fun block i => int32At (h.memory block) i)
      (fun block i => int32At (memory block) i) hcur fun buf hbuf => by
        have hne := hinv₂.apart.current_ne hcur hbuf
        rw [hsame _ (hblock ▸ hne)]
    rw [hblock] at hwrite
    exact hwrite

/-- **A call, by its values.** Where the heap stands for the buffers of `Fp4Bridge`, a call gives
what is said there, and the heap after it stands for the buffers after it. -/
theorem BridgeHeap.repackFp4ExtraToV4_buffers (hinv : h.Inv) (hfresh : c.Fresh h) (hn : 0 < c.n)
    (hmax : c.n ≤ limit.max) {d : Device} {launch : ℕ}
    (hbytes : d.freshBytes = h.memory c.freshScratch)
    (hints : d.freshIds = fun i => int32At (h.memory c.freshIds) i)
    (horder : d.order launch c.n = c.order) :
    ∃ h' v, h.repackFp4ExtraToV4 o limit c = (h', some v) ∧
      LuzServing.repackFp4ExtraToV4 o d launch c.pool c.flatIdx c.n (h.values c.dev) =
        some (h'.values c.dev, h'.memory v.scratch.block,
          fun i => int32At (h'.memory v.ids.block) i) := by
  obtain ⟨h₁, scratch, cur, hcall₁, hinv₁, hmem₁, hcur, hblock, hscratch, hids₁, hfilled₁,
      hunused⟩ := BridgeHeap.scratchBuffer_values hinv c.dev hfresh.scratch
    ((c.n + dstPageSize - 1) / dstPageSize)
  obtain ⟨h₂, ids, kept, t, hcall₂, hinv₂, hregistry, hmem₂, hids, hdata, hids₂, hfilled₂⟩ :=
    BridgeHeap.idsBuffer_values hinv₁ c.dev (hunused _ hfresh.ids hfresh.ne) hn hmax
  rw [hmem₁, hids₁] at hids
  rw [hfilled₁] at hdata hfilled₂
  rw [hmem₁] at hmem₂
  rw [← hregistry] at hcur hmem₂
  have hmem := Grown.mem_held_of_current hcur
  have hretired : (h₂.values c.dev).scratch.retired = (h₁.values c.dev).scratch.retired := by
    change ((h₂.buffers (.scratch c.dev)).values h₂.memory).retired =
      ((h₁.buffers (.scratch c.dev)).values h₁.memory).retired
    rw [← hregistry, hmem₁, Grown.values_congr fun buf hbuf => (hmem₂ buf hbuf).2]
  set bytes := repackFp4ToV4Kernel o c.pool.bytes c.pool.pageBytes (c.pool.pageSize.size - 1)
    (fun k => toInt32 (c.flatIdx k)) c.order (h.memory cur.block)
  have hvalue : LuzServing.repackFp4ExtraToV4 o d launch c.pool c.flatIdx c.n (h.values c.dev) =
      some (⟨⟨some ⟨cur.rows, bytes⟩, (h₁.values c.dev).scratch.retired⟩,
        ⟨some ⟨t.rows, fun i => int32At (h₂.memory ids.block) i⟩, kept.retired⟩,
        h₂.filled c.dev⟩, bytes, fun i => int32At (h₂.memory ids.block) i) := by
    rw [LuzServing.repackFp4ExtraToV4, if_neg hn.ne', hbytes, hints, horder]
    dsimp only
    rw [hscratch, hids, hdata, hfilled₂]
    simp only [decide_eq_true_eq]
    rfl
  refine ⟨{ h₂ with memory := Function.update h₂.memory cur.block bytes },
    ⟨c.dev, c.n, scratch, ids⟩, ?_, ?_⟩
  · rw [BridgeHeap.repackFp4ExtraToV4, if_neg hn.ne']
    dsimp only
    rw [hcall₁]
    dsimp only
    rw [hcall₂]
    dsimp only
    rw [if_neg hmax.not_gt, ← hblock, (hmem₂ cur hmem).2]
  · rw [hvalue, hinv₂.launch_values hcur, hretired, hids₂]
    dsimp only
    rw [← hblock, Function.update_self, Function.update_of_ne (hmem₂ cur hmem).1.symm]

end

/-! ## Runs -/

/-- The heap, and all that was handed out so far. -/
structure BridgeState (D : Type) : Type where
  /-- the heap -/
  heap : BridgeHeap D
  /-- what the calls returned, the last one first -/
  handed : List (Handed D)

/-- What may happen to the heap. -/
inductive BridgeEvent (D : Type) : Type where
  /-- a call of the bridge -/
  | call (c : HeapCall D)
  /-- anything else, such as a graph that is replayed: it leaves this in memory -/
  | other (memory : Block → Memory)

/-- What is handed out stays there as long as no buffer is given up. -/
theorem BridgeHeap.Holds.mono {D : Type} {limit : LaunchLimit} {h h' : BridgeHeap D} {v : Handed D}
    (hv : h.Holds limit v)
    (hkept : ∀ k view, Grown.View h.buffers k view → Grown.View h'.buffers k view) :
    h'.Holds limit v :=
  ⟨hv.pages, hkept _ _ hv.scratch, hv.length, hkept _ _ hv.ids, hv.le⟩

section
variable {D F : Type} [DecidableEq D] (o : FloatOps F) (limit : LaunchLimit)

/-- What the step requires: the allocator takes blocks that nobody holds, and nobody but the bridge
writes its indices. -/
def BridgeHeap.Allowed (h : BridgeHeap D) : BridgeEvent D → Prop
  | .call c => c.Fresh h
  | .other memory => ∀ dev, ∀ buf ∈ (h.buffers (.ids dev)).held,
    memory buf.block = h.memory buf.block

/-- The state after an event. -/
def BridgeState.next (s : BridgeState D) : BridgeEvent D → BridgeState D
  | .call c =>
    let (heap, handed) := s.heap.repackFp4ExtraToV4 o limit c
    ⟨heap, handed.toList ++ s.handed⟩
  | .other memory => { s with heap := { s.heap with memory := memory } }

/-- The heap of the bridge as a machine. It starts without buffers. -/
def bridgeHeapMachine : Machine (BridgeState D) (BridgeEvent D) where
  init s := (∀ key, s.heap.buffers key = Grown.empty) ∧ (∀ dev, s.heap.filled dev = 0) ∧
    s.handed = []
  step s e s' := s.heap.Allowed e ∧ s' = s.next o limit e

variable {o limit}

/-- The invariant of the heap, and of all that was handed out. -/
structure BridgeState.Inv (limit : LaunchLimit) (s : BridgeState D) : Prop where
  /-- the heap -/
  heap : s.heap.Inv
  /-- what was handed out is there -/
  handed : ∀ v ∈ s.handed, s.heap.Holds limit v

/-- At the start no buffer has been allocated and nothing handed out, so the invariant holds. -/
theorem BridgeState.Inv.init {s : BridgeState D} (hs : (bridgeHeapMachine o limit).init s) :
    s.Inv limit := by
  obtain ⟨hbuffers, hfilled, hhanded⟩ := hs
  have hheld : ∀ key, (s.heap.buffers key).held = [] := fun key => by
    rw [hbuffers]
    rfl
  refine ⟨⟨⟨fun key => ?_, fun key key' _ buf hbuf => ?_⟩, fun dev => ?_, fun dev buf hbuf => ?_⟩,
    fun v hv => ?_⟩
  · rw [hheld]
    exact List.nodup_nil
  · exact absurd (hheld key ▸ hbuf) List.not_mem_nil
  · rw [hfilled, hbuffers]
    rfl
  · exact absurd (hheld _ ▸ hbuf) List.not_mem_nil
  · exact absurd (hhanded ▸ hv) List.not_mem_nil

/-- Every call of the bridge keeps the invariant, whatever its device and its number of rows. -/
theorem BridgeState.Inv.step {s s' : BridgeState D} {e : BridgeEvent D} (hinv : s.Inv limit)
    (hstep : (bridgeHeapMachine o limit).step s e s') : s'.Inv limit := by
  obtain ⟨hallowed, rfl⟩ := hstep
  cases e with
  | other memory => exact ⟨hinv.heap.write hallowed, fun v hv => (hinv.handed v hv).mono
      fun _ _ hview => hview⟩
  | call c =>
    obtain ⟨h', handed, hcall, hinv', hkept, hholds, -⟩ :=
      BridgeHeap.repackFp4ExtraToV4_spec o limit hinv.heap hallowed
    rw [BridgeState.next, hcall]
    refine ⟨hinv', fun v hv => ?_⟩
    rcases List.mem_append.mp hv with hnew | hold
    · exact hholds v (Option.mem_toList.mp hnew)
    · exact (hinv.handed v hold).mono hkept

/-- The invariant holds in every state that a sequence of calls reaches. -/
theorem BridgeState.Inv.reach {s : BridgeState D} (hs : (bridgeHeapMachine o limit).Reach s) :
    s.Inv limit :=
  Machine.Invariant.reach ⟨fun _ => .init, fun _ _ _ => .step⟩ hs

end

/-! ## Slices within the budget -/

/-- Each slice of a batch gathers no more rows than budgeted. -/
theorem bridgeSliceBounds_within {numTokens topk maxRows : ℕ} (hn : 0 < numTokens)
    (htopk : 0 < topk) (hle : topk ≤ maxRows) :
    ∃ rest, bridgeSliceBounds numTokens topk maxRows = 0 :: rest ∧
      (0 :: rest).getLast? = some numTokens ∧
      (0 :: rest).IsChain fun a b => a < b ∧ (b - a) * topk ≤ maxRows := by
  obtain ⟨rest, heq, hchain, hlast⟩ := bridgeSliceBounds_spec hn topk maxRows
  refine ⟨rest, heq, hlast, hchain.imp fun a b ⟨hlt, hstep⟩ => ⟨hlt, ?_⟩⟩
  have hbudget : max 1 (maxRows / max 1 topk) = maxRows / topk := by
    rw [max_eq_right (Nat.succ_le_of_lt htopk), max_eq_right (Nat.div_pos hle htopk)]
  rw [hbudget] at hstep
  calc (b - a) * topk ≤ maxRows / topk * topk := Nat.mul_le_mul_right topk (by omega)
    _ ≤ maxRows := Nat.div_mul_le_self ..

/-! ## Every run of the bridge -/

/-- **What the bridge hands out.** A batch is cut into slices within the budget, and in every run of
calls on any devices a call gets a scratch of enough pages and its identity indices, which stay the
identity for as long as the run goes on, also when their buffer is retired. -/
theorem bridgeHeap_handed {D F : Type} [DecidableEq D] (o : FloatOps F) (limit : LaunchLimit) :
    (∀ numTokens topk maxRows, 0 < numTokens → 0 < topk → topk ≤ maxRows →
      ∃ rest, bridgeSliceBounds numTokens topk maxRows = 0 :: rest ∧
        (0 :: rest).getLast? = some numTokens ∧
        (0 :: rest).IsChain fun a b => a < b ∧ (b - a) * topk ≤ maxRows) ∧
    ∀ s : BridgeState D, (bridgeHeapMachine o limit).Reach s →
      (∀ c : HeapCall D, c.Fresh s.heap → 0 < c.n → c.n ≤ limit.max →
        ∃ v, (s.next o limit (.call c)).handed = v :: s.handed ∧ v.dev = c.dev ∧ v.n = c.n) ∧
      ∀ v ∈ s.handed,
        (v.n + dstPageSize - 1) / dstPageSize ≤ v.scratch.rows ∧
        Grown.View s.heap.buffers (.scratch v.dev) v.scratch ∧
        v.ids.rows = v.n ∧ Grown.View s.heap.buffers (.ids v.dev) v.ids ∧
        ∀ i, i < v.n → int32At (s.heap.memory v.ids.block) i = i := by
  refine ⟨fun _ _ _ => bridgeSliceBounds_within, fun s hs => ?_⟩
  have hinv : s.Inv limit := .reach hs
  refine ⟨fun c hfresh hn hmax => ?_, fun v hv => ?_⟩
  · obtain ⟨h', handed, hcall, -, -, -, hreturns⟩ :=
      BridgeHeap.repackFp4ExtraToV4_spec o limit hinv.heap hfresh
    obtain ⟨v, rfl, hdev, hrows⟩ := hreturns hn hmax
    refine ⟨v, ?_, hdev, hrows⟩
    rw [BridgeState.next, hcall]
    rfl
  · have hholds := hinv.handed v hv
    exact ⟨hholds.pages.ge, hholds.scratch, hholds.length, hholds.ids,
      fun i hi => hinv.heap.int32At_eq hholds hi⟩

/-- A call for `n` rows of slot 0 on the only device. -/
def plainCall (n freshScratch freshIds : ℕ) : HeapCall Unit where
  dev := ()
  pool := zeroPool
  flatIdx _ := 0
  n := n
  freshScratch := freshScratch
  freshIds := freshIds
  order := List.range n
  order_perm := .rfl

/-- The limit that CUDA has on the first dimension of a grid. -/
def cudaLimit : LaunchLimit := ⟨2 ^ 31 - 1, by norm_num⟩

/-- The heap of the bridge at the start, without any buffer. -/
def emptyHeap : BridgeState Unit :=
  ⟨⟨fun _ _ => 0, fun _ => Grown.empty, fun _ => 0⟩, []⟩

/-- A call for 65 rows and one for 1000, which replaces both buffers: the indices of the first call
are retired, and still the identity. -/
theorem bridgeHeap_handed_retired : ∃ (s : BridgeState Unit) (v : Handed Unit),
    (bridgeHeapMachine rationalOps cudaLimit).Reach s ∧ v ∈ s.handed ∧ v.n = 65 ∧
      (s.heap.buffers (.ids ())).current = some ⟨3, 1000⟩ ∧
      (s.heap.buffers (.ids ())).retired = [⟨1, 65⟩] ∧
      2 ≤ v.scratch.rows ∧ int32At (s.heap.memory v.ids.block) 64 = 64 := by
  have hreach₀ : (bridgeHeapMachine rationalOps cudaLimit).Reach emptyHeap :=
    .init ⟨fun _ => rfl, fun _ => rfl, rfl⟩
  have hfresh₁ : (plainCall 65 0 1).Fresh emptyHeap.heap :=
    ⟨fun _ _ hbuf => absurd hbuf List.not_mem_nil, fun _ _ hbuf => absurd hbuf List.not_mem_nil,
      by decide⟩
  obtain ⟨v, hv, -, hn⟩ := ((bridgeHeap_handed rationalOps cudaLimit).2 _ hreach₀).1
    (plainCall 65 0 1) hfresh₁ (by decide) (by decide)
  have hreach₁ := hreach₀.step (a := BridgeEvent.call (plainCall 65 0 1)) ⟨hfresh₁, rfl⟩
  have hfresh₂ : (plainCall 1000 2 3).Fresh
      (emptyHeap.next rationalOps cudaLimit (.call (plainCall 65 0 1))).heap := by
    refine ⟨?_, ?_, by decide⟩ <;> rintro (⟨⟩ | ⟨⟩) buf hbuf <;>
      · obtain rfl := List.mem_singleton.mp hbuf
        decide
  obtain ⟨v', hv', -, -⟩ := ((bridgeHeap_handed rationalOps cudaLimit).2 _ hreach₁).1
    (plainCall 1000 2 3) hfresh₂ (by decide) (by decide)
  have hreach₂ := hreach₁.step (a := BridgeEvent.call (plainCall 1000 2 3)) ⟨hfresh₂, rfl⟩
  have hmem : v ∈ ((emptyHeap.next rationalOps cudaLimit (.call (plainCall 65 0 1))).next
      rationalOps cudaLimit (.call (plainCall 1000 2 3))).handed := by
    rw [hv', hv]
    exact List.mem_cons_of_mem _ List.mem_cons_self
  obtain ⟨hpages, -, -, -, hidentity⟩ :=
    ((bridgeHeap_handed rationalOps cudaLimit).2 _ hreach₂).2 v hmem
  rw [hn] at hpages hidentity
  exact ⟨_, v, hreach₂, hmem, hn, rfl, rfl, hpages, hidentity 64 (by decide)⟩

end LuzServing

import LuzServing.RowStoreRuns
import LuzServing.Segments

/-!
# Engram tables sharded over ranks

The rows of a table are split over the ranks of a tensor-parallel group. Three programs each
compute the range of a rank: the embedding that holds its rows in memory, the backend that
reads them through the row store, and the packer of the local shards. The ranges are the
segments of the table (`existsUnique_rank`), so of the rows that the ranks gather for an id
one is the id's and all others are zero, and their sum is the id's, in whatever order the
all-reduce adds (`rank_sum_exact`).

The kernel that dequantizes the gathered rows is of the engine: a parameter, of which
`IsGather` says what it is for. That all bytes zero dequantize to zero is what the formats
say: an `e4m3` zero times a power of two.
-/

namespace LuzServing

/-! ## The ranges -/

/-- The first row of a rank. -/
def rankStart (rows tp r : ℕ) : ℕ := rows * r / tp

/-- How many rows a rank has. -/
def rankRows (rows tp r : ℕ) : ℕ := rankStart rows tp (r + 1) - rankStart rows tp r

theorem rankStart_le_succ (rows tp r : ℕ) : rankStart rows tp r ≤ rankStart rows tp (r + 1) :=
  Nat.div_le_div_right (Nat.mul_le_mul_left _ (Nat.le_succ r))

/-- The ranges are the segments of a table that is laid out rank after rank. -/
theorem rankStart_eq_segStart (rows tp r : ℕ) :
    rankStart rows tp r = segStart (rankRows rows tp) r := by
  induction r with
  | zero => simp [rankStart]
  | succ r ih =>
    have hle := rankStart_le_succ rows tp r
    rw [segStart_succ, ← ih, rankRows]
    omega

theorem rankStart_tp {rows tp : ℕ} (htp : 0 < tp) : rankStart rows tp tp = rows :=
  Nat.mul_div_cancel rows htp

/-- **The ranges are disjoint and cover the table**: a row is in the range of one rank. -/
theorem existsUnique_rank {rows tp id : ℕ} (htp : 0 < tp) (hid : id < rows) :
    ∃! r, r < tp ∧ rankStart rows tp r ≤ id ∧ id < rankStart rows tp (r + 1) := by
  have hall : id < segStart (rankRows rows tp) tp := by
    rwa [← rankStart_eq_segStart, rankStart_tp htp]
  obtain ⟨r, hr, j, hj, rfl⟩ := exists_seg hall
  refine ⟨r, ⟨hr, ?_, ?_⟩, fun r' ⟨_, hlo, hhi⟩ => ?_⟩
  · rw [rankStart_eq_segStart]
    exact Nat.le_add_right _ _
  · rw [rankStart_eq_segStart, segStart_succ]
    omega
  · rw [rankStart_eq_segStart] at hlo hhi
    obtain ⟨j', hj'⟩ := Nat.exists_eq_add_of_le hlo
    rw [segStart_succ] at hhi
    exact (seg_inj (by omega) hj hj'.symm).1

/-! ## The all-reduce -/

/-- An order in which what the ranks have is added up. -/
inductive SumTree : Type where
  /-- what a rank has -/
  | rank (r : ℕ)
  /-- the sum of two parts -/
  | add (left right : SumTree)

namespace SumTree

/-- The ranks, from left to right. -/
def ranks : SumTree → List ℕ
  | .rank r => [r]
  | .add left right => left.ranks ++ right.ranks

/-- The value of a sum over ranks, in the order in which the tree takes it. -/
def eval {V : Type*} [Add V] (f : ℕ → V) : SumTree → V
  | .rank r => f r
  | .add left right => left.eval f + right.eval f

variable {V : Type*} [AddZeroClass V] {f : ℕ → V} {r : ℕ}

/-- A sum over ranks that all contribute zero is zero, in whatever order it is taken. -/
theorem eval_eq_zero {tree : SumTree} (hzero : ∀ r' ∈ tree.ranks, f r' = 0) : tree.eval f = 0 := by
  induction tree with
  | rank r' => exact hzero r' (List.mem_singleton_self r')
  | add left right ihl ihr =>
    rw [eval, ihl fun r' hr' => hzero r' (List.mem_append_left _ hr'),
      ihr fun r' hr' => hzero r' (List.mem_append_right _ hr'), add_zero]

/-- **A sum of which one rank has all** is what that rank has, in any order. -/
theorem eval_eq {tree : SumTree} (hnodup : tree.ranks.Nodup) (hr : r ∈ tree.ranks)
    (hzero : ∀ r' ∈ tree.ranks, r' ≠ r → f r' = 0) : tree.eval f = f r := by
  induction tree with
  | rank r' => rw [eval, List.mem_singleton.mp hr]
  | add left right ihl ihr =>
    obtain ⟨hl, hr', hdisj⟩ := List.nodup_append.mp hnodup
    rcases List.mem_append.mp hr with hleft | hright
    · have hnone : right.eval f = 0 := eval_eq_zero fun r' hmem =>
        hzero r' (List.mem_append_right _ hmem) fun heq => hdisj r hleft r' hmem heq.symm
      rw [eval, hnone, add_zero]
      exact ihl hl hleft fun r' hmem => hzero r' (List.mem_append_left _ hmem)
    · have hnone : left.eval f = 0 := eval_eq_zero fun r' hmem =>
        hzero r' (List.mem_append_left _ hmem) fun heq => hdisj r' hmem r hright heq
      rw [eval, hnone, zero_add]
      exact ihr hr' hright fun r' hmem => hzero r' (List.mem_append_right _ hmem)

end SumTree

/-! ## The gather in memory -/

section

variable {V : Type*} [AddZeroClass V]

/-- `engram_gather`: from a shard's rows, with the range that they are the rows of or none,
what it writes for an id. -/
abbrev Gather (V : Type*) : Type _ := (ℕ → Served) → Option (ℕ × ℕ) → ℕ → ℕ → V

/-- The gather dequantizes rows; those outside the range are zero. -/
structure IsGather (dequant : Served → ℕ → V) (gather : Gather V) : Prop where
  /-- without a range -/
  all : ∀ shard id, gather shard none id = dequant (shard id)
  /-- with a range -/
  range : ∀ shard lo hi id, gather shard (some (lo, hi)) id =
    if lo ≤ id ∧ id < hi then dequant (shard (id - lo)) else fun _ => 0

/-- `EngramEmbedding`: a rank's shard. -/
structure EngramEmbedding : Type where
  /-- `row_start` -/
  rowStart : ℕ
  /-- `rows` -/
  rows : ℕ
  /-- `weight` and `scale`, by row of the shard -/
  shard : ℕ → Served

/-- `EngramEmbedding.__init__` and `_load_rows`. -/
def EngramEmbedding.load (numEmbeddings tpSize tpRank : ℕ) (loaded : ℕ → Served) :
    EngramEmbedding :=
  let rowStart := numEmbeddings * tpRank / tpSize
  let rowEnd := numEmbeddings * (tpRank + 1) / tpSize
  { rowStart := rowStart
    rows := rowEnd - rowStart
    shard := fun i => loaded (rowStart + i) }

/-- How `_owned_rows` gathers. -/
inductive GatherPath : Type where
  /-- with torch operations -/
  | torch
  /-- with the kernel -/
  | kernel

/-- `_owned_rows`: the row of an id that the shard holds, zero for the others. -/
def EngramEmbedding.ownedRows (e : EngramEmbedding) (dequant : Served → ℕ → V)
    (gather : Gather V) (path : GatherPath) (id : ℕ) : ℕ → V :=
  if e.rows = 0 then fun _ => 0
  else
    match path with
    | .torch =>
      let loc : ℤ := id - e.rowStart
      let owned := 0 ≤ loc ∧ loc < e.rows
      let values := dequant (e.shard (if owned then loc.toNat else 0))
      if owned then values else fun _ => 0
    | .kernel => gather e.shard (some (e.rowStart, e.rowStart + e.rows)) id

variable {dequant : Served → ℕ → V} {gather : Gather V}

/-- On either path a rank gathers the rows of its own range, and zero for every other id. -/
theorem ownedRows_eq (hgather : IsGather dequant gather) (path : GatherPath)
    (rows tp r : ℕ) (loaded : ℕ → Served) (id : ℕ) :
    (EngramEmbedding.load rows tp r loaded).ownedRows dequant gather path id =
      if rankStart rows tp r ≤ id ∧ id < rankStart rows tp (r + 1) then dequant (loaded id)
      else fun _ => 0 := by
  have hle := rankStart_le_succ rows tp r
  have hstart : (EngramEmbedding.load rows tp r loaded).rowStart = rankStart rows tp r := rfl
  have hrows : (EngramEmbedding.load rows tp r loaded).rows =
      rankStart rows tp (r + 1) - rankStart rows tp r := rfl
  have hshard : ∀ i, (EngramEmbedding.load rows tp r loaded).shard i =
      loaded (rankStart rows tp r + i) := fun _ => rfl
  have hinv : rankStart rows tp r ≤ id → rankStart rows tp r + (id - rankStart rows tp r) = id :=
    Nat.add_sub_cancel'
  rw [EngramEmbedding.ownedRows.eq_def, hstart, hrows]
  by_cases hown : rankStart rows tp r ≤ id ∧ id < rankStart rows tp (r + 1)
  · rw [if_pos hown, if_neg (by omega)]
    cases path with
    | torch =>
      have hloc : 0 ≤ (id : ℤ) - rankStart rows tp r ∧ (id : ℤ) - rankStart rows tp r <
          (rankStart rows tp (r + 1) - rankStart rows tp r : ℕ) := by omega
      dsimp only
      rw [if_pos hloc, if_pos hloc, hshard]
      congr 2
      omega
    | kernel =>
      dsimp only
      rw [hgather.range, if_pos (by omega), hshard, hinv hown.1]
  · rw [if_neg hown]
    split
    next => rfl
    next =>
      cases path with
      | torch =>
        dsimp only
        rw [if_neg fun hloc => hown (by omega)]
      | kernel =>
        dsimp only
        rw [hgather.range, if_neg (by omega)]

end

/-! ## The gather through the row store -/

/-- What the backend's constructor finds: the environment, and what the system calls do. -/
structure BackendEnv : Type where
  /-- `budget` -/
  budget : ℕ
  /-- `DSV41_CACHE_WAYS` -/
  ways : ℕ
  /-- `OFFLOAD_MODE=ram` -/
  ram : Bool
  /-- the mappings succeed -/
  mapped : Bool
  /-- `DSV41_RESIDENT_SCALES` -/
  residentScales : Bool
  /-- the scale shard is allocated -/
  allocated : Bool
  /-- the reads that pin the scales -/
  pinReads : List Pread
  /-- the packed shard, where there is one -/
  shard : Option File
  /-- the Engram layer -/
  layerId : ℕ
  /-- the read of its header -/
  headerReads : List Pread

/-- The constructor that `install` gives the embedding. -/
def backendInit (t : Table) (tpSize rank : ℕ) (env : BackendEnv) : Option Store := do
  let rowStart := t.rows * rank / tpSize
  let rowEnd := t.rows * (rank + 1) / tpSize
  let s ← rowStoreOpen t.file t.rows t.weightOffset t.scaleOffset env.budget env.ways env.ram
    env.mapped
  let s ← rowStoreRange s rowStart rowEnd env.residentScales env.allocated env.pinReads
  let (s, _) ← rowStoreAttachPacked s env.shard env.layerId env.headerReads
  pure s

/-- A store serves a range of a table. -/
structure Store.Serves (s : Store) (t : Table) (lo hi : ℕ) : Prop where
  /-- every source of a row agrees with the checkpoint -/
  sound : s.Sound
  /-- the table -/
  table : s.table = t
  /-- the first row -/
  rowLo : s.rowLo = lo
  /-- the end -/
  rowHi : s.rowHi = hi

/-- Such a store serves each id what the checkpoint owes it, and goes on serving the range. -/
theorem Store.Serves.lookup {s s' : Store} {t : Table} {lo hi : ℕ} (h : s.Serves t lo hi)
    {ids : List ℤ} {how : Schedule} {out : List Served}
    (hlookup : rowStoreLookup s ids how = some (s', out)) :
    out = ids.map (fun id => t.owed lo hi id.toNat) ∧ s'.Serves t lo hi := by
  obtain ⟨hsound, rfl, rfl, rfl⟩ := h
  obtain ⟨hout, hsound', hsame⟩ := rowStoreLookup_exact hsound hlookup
  exact ⟨hout, hsound', hsame.table, hsame.rowLo, hsame.rowHi⟩

/-- After `row_store_range` the store has the range that was asked for, and the packed shard it
had. -/
theorem rowStoreRange_range {s s' : Store} {lo hi : ℕ} {residentScales allocated : Bool}
    {os : List Pread} (h : rowStoreRange s lo hi residentScales allocated os = some s') :
    s'.rowLo = lo ∧ s'.rowHi = hi ∧ s'.packed = s.packed := by
  rw [rowStoreRange] at h
  split at h
  next =>
    split at h
    next => cases h
    next =>
      dsimp only at h
      split at h
      next => obtain rfl := Option.some.inj h; exact ⟨rfl, rfl, rfl⟩
      next => obtain rfl := Option.some.inj h; exact ⟨rfl, rfl, rfl⟩
  next => cases h

/-- Attaching a packed shard changes neither bound of the store's range. -/
theorem rowStoreAttachPacked_range {s s' : Store} {shard : Option File} {layerId : ℕ}
    {os : List Pread} {b : Bool} (h : rowStoreAttachPacked s shard layerId os = some (s', b)) :
    s'.rowLo = s.rowLo ∧ s'.rowHi = s.rowHi := by
  rw [rowStoreAttachPacked.eq_def] at h
  cases shard with
  | none =>
    obtain ⟨rfl, -⟩ := Prod.mk.inj (Option.some.inj h)
    exact ⟨rfl, rfl⟩
  | some f =>
    dsimp only at h
    split at h
    next => cases h
    next =>
      split_ifs at h
      obtain ⟨rfl, -⟩ := Prod.mk.inj (Option.some.inj h)
      exact ⟨rfl, rfl⟩

/-- The store of an embedding: built, then looked up in. -/
def rankStore (t : Table) (tpSize rank : ℕ) : Machine Store (List ℤ × Schedule) where
  init s := ∃ env, (∀ f, env.shard = some f → f.HoldsShard t) ∧
    backendInit t tpSize rank env = some s
  step s a s' := ∃ out, rowStoreLookup s a.1 a.2 = some (s', out)

/-- In every state that it reaches, the store of a rank serves the rank's range of the table. -/
theorem rankStore_serves {t : Table} {tp r : ℕ} {s : Store} (hs : (rankStore t tp r).Reach s) :
    s.Serves t (rankStart t.rows tp r) (rankStart t.rows tp (r + 1)) := by
  refine Machine.Invariant.reach (I := fun s =>
    s.Serves t (rankStart t.rows tp r) (rankStart t.rows tp (r + 1))) ⟨?_, ?_⟩ hs
  · rintro s ⟨env, hshard, hinit⟩
    simp only [backendInit, Option.bind_eq_bind, Option.bind_eq_some_iff] at hinit
    obtain ⟨s₀, hopen, s₁, hrange, ⟨s₂, b⟩, hattach, hpure⟩ := hinit
    obtain rfl := Option.some.inj hpure
    have htable₀ := rowStoreOpen_table hopen
    have hnone : ∀ f, s₀.packed = some f → t.rows * r / tp = f.packedHeader.lo := by
      intro f hf
      rw [rowStoreOpen] at hopen
      split at hopen
      next =>
        obtain rfl := Option.some.inj hopen
        cases hf
      next => cases hopen
    obtain ⟨hsound₁, htable₁⟩ := rowStoreRange_sound (rowStoreOpen_sound hopen) hnone hrange
    obtain ⟨hlo, hhi, -⟩ := rowStoreRange_range hrange
    obtain ⟨hsound₂, htable₂⟩ := rowStoreAttachPacked_sound hsound₁
      (fun f hf => by rw [htable₁, htable₀]; exact hshard f hf) hattach
    obtain ⟨hlo₂, hhi₂⟩ := rowStoreAttachPacked_range hattach
    exact ⟨hsound₂, htable₂.trans (htable₁.trans htable₀), hlo₂.trans hlo, hhi₂.trans hhi⟩
  · rintro s ⟨ids, how⟩ s' hserves ⟨out, hlookup⟩
    exact (hserves.lookup hlookup).2

/-- The `_owned_rows` that `install` gives the embedding: the looked-up bytes, dequantized. -/
def storeRows {V : Type*} (gather : Gather V) (out : List Served) (i : ℕ) : ℕ → V :=
  gather (fun k => out.getD k zeroRow) none i

/-! ## The sum over the ranks -/

/-- What only the owner of a row has sums up to what the owner has. -/
theorem sum_owned {V : Type*} [AddZeroClass V] {rows tp id : ℕ} (htp : 0 < tp) (hid : id < rows)
    {tree : SumTree} (htree : tree.ranks.Perm (List.range tp)) {f : ℕ → V} {v : V}
    (hf : ∀ r, r < tp → f r =
      if rankStart rows tp r ≤ id ∧ id < rankStart rows tp (r + 1) then v else 0) :
    tree.eval f = v := by
  obtain ⟨r, ⟨hr, hrange⟩, hunique⟩ := existsUnique_rank htp hid
  have hmem : ∀ {r'}, r' ∈ tree.ranks ↔ r' < tp := fun {r'} => by
    rw [htree.mem_iff, List.mem_range]
  have hzero : ∀ r' ∈ tree.ranks, r' ≠ r → f r' = 0 := by
    intro r' hr' hne
    rw [hf r' (hmem.mp hr'), if_neg fun hrange' => hne (hunique r' ⟨hmem.mp hr', hrange'⟩)]
  rw [SumTree.eval_eq (htree.nodup_iff.mpr List.nodup_range) (hmem.mpr hr) hzero, hf r hr,
    if_pos hrange]

/-- **The all-reduced lookup is the full table's**: each row is in one rank's range, and the
sum over the ranks of what each gathers for an id, in memory or through its row store, is
the dequantized row of the id. -/
theorem rank_sum_exact {tp : ℕ} (htp : 0 < tp) {V : Type*} [AddZeroClass V]
    {dequant : Served → ℕ → V} (hzero : ∀ e, dequant zeroRow e = 0) {gather : Gather V}
    (hgather : IsGather dequant gather) {tree : SumTree}
    (htree : tree.ranks.Perm (List.range tp)) :
    -- the ranges are disjoint and cover the rows
    (∀ rows id, id < rows →
      ∃! r, r < tp ∧ rankStart rows tp r ≤ id ∧ id < rankStart rows tp (r + 1)) ∧
    -- in memory
    (∀ rows (loaded : ℕ → Served) path id, id < rows → ∀ e,
      tree.eval (fun r => (EngramEmbedding.load rows tp r loaded).ownedRows dequant gather path
        id e) = dequant (loaded id) e) ∧
    -- through the row stores
    ∀ (t : Table) (s : ℕ → Store), (∀ r, r < tp → (rankStore t tp r).Reach (s r)) →
      ∀ (ids : List ℤ) (how : ℕ → Schedule) (s' : ℕ → Store) (out : ℕ → List Served),
        (∀ r, r < tp → rowStoreLookup (s r) ids (how r) = some (s' r, out r)) →
          ∀ i id, ids[i]? = some id → id.toNat < t.rows → ∀ e,
            tree.eval (fun r => storeRows gather (out r) i e) =
              dequant (t.weight id.toNat, t.scale id.toNat) e := by
  refine ⟨fun rows id hid => existsUnique_rank htp hid, fun rows loaded path id hid e => ?_,
    fun t s hs ids how s' out hlookup i id hget hid e => ?_⟩
  · refine sum_owned htp hid htree fun r _ => ?_
    rw [ownedRows_eq hgather]
    split <;> rfl
  · refine sum_owned htp hid htree fun r hr => ?_
    obtain ⟨hsound, htable, hlo, hhi⟩ := rankStore_serves (hs r hr)
    obtain ⟨hout, -, -⟩ := rowStoreLookup_exact hsound (hlookup r hr)
    have hgetD : (out r).getD i zeroRow = t.owed (rankStart t.rows tp r)
        (rankStart t.rows tp (r + 1)) id.toNat := by
      rw [hout, List.getD_eq_getElem?_getD, List.getElem?_map, hget, Option.map_some,
        Option.getD_some, Store.expected, htable, hlo, hhi]
    rw [storeRows, hgather.all, hgetD, Table.owed]
    split
    next => rfl
    next => exact hzero e

/-- A weight byte times the scale byte of its block, as numbers. -/
def scaled (row : Served) (e : ℕ) : ℕ := (row.1.getD e 0).toNat * (row.2.getD (e / 32) 0).toNat

/-- The gather of such rows. -/
def scaledGather : Gather ℕ := fun shard range id =>
  match range with
  | none => scaled (shard id)
  | some (lo, hi) => if lo ≤ id ∧ id < hi then scaled (shard (id - lo)) else fun _ => 0

/-- Three rows on two ranks: row 2 is the second rank's, and the sum has it. -/
theorem rank_sum_exact_three :
    (SumTree.add (.rank 1) (.rank 0)).eval (fun r =>
      (EngramEmbedding.load 3 2 r fun id => ([UInt8.ofNat (id + 1)], [7])).ownedRows scaled
        scaledGather .torch 2 0) = 21 := by
  have hzero : ∀ e, scaled zeroRow e = 0 := by
    intro e
    have hbyte : (zeroRow.1.getD e 0).toNat = 0 := by
      rw [zeroRow, List.getD_eq_getElem?_getD, List.getElem?_replicate]
      split <;> rfl
    rw [scaled, hbyte, Nat.zero_mul]
  have hgather : IsGather scaled scaledGather := ⟨fun _ _ => rfl, fun _ _ _ _ => rfl⟩
  have htree : (SumTree.add (.rank 1) (.rank 0)).ranks.Perm (List.range 2) := by decide
  exact (rank_sum_exact Nat.two_pos hzero hgather htree).2.1 3
    (fun id => ([UInt8.ofNat (id + 1)], [7])) .torch 2 (by decide) 0

end LuzServing

import LuzServing.Machine
import LuzServing.Fp4BridgeRows
import Mathlib.Data.List.Chain
import Mathlib.Data.List.Range

/-!
# What a batch attends to through the FP4 bridge

The indices that the bridge hands out are the identity, whatever was asked of the
buffers before (`identity_reach`), and the query slices tile the batch
(`bridgeSliceBounds_tiles`), so the attention kernel gets, at place `j` of query
`i`, the scratch row of `extra_indices[i][j]`: at *every* place below the query's
length, since the identity has no negative entry (`bridgedRows_eq`).

So the bridge attends to the pool's rows exactly for the queries that have no masked
slot below their length (`bridge_attends`); a masked slot below the length becomes a
zero row (`bridge_not_masked`).
-/

namespace LuzServing

/-! ## Query slices -/

/-- The slices tile the queries from `lo` to `hi`, and none is empty. -/
def Tiles : ℕ → ℕ → List (ℕ × ℕ) → Prop
  | lo, hi, [] => lo = hi
  | lo, hi, (a, b) :: slices => a = lo ∧ lo < b ∧ Tiles b hi slices

/-- A strictly increasing list of bounds cuts the range from the first to the last into adjacent
tiles. -/
theorem tiles_of_chain {lo hi : ℕ} {bounds : List ℕ}
    (hchain : (lo :: bounds).IsChain (· < ·)) (hlast : (lo :: bounds).getLast? = some hi) :
    Tiles lo hi ((lo :: bounds).dropLast.zip bounds) := by
  induction bounds generalizing lo with
  | nil => exact Option.some.inj hlast
  | cons b bounds ih =>
    obtain ⟨hlt, hchain⟩ := List.isChain_cons_cons.mp hchain
    exact ⟨rfl, hlt, ih hchain (by simpa using hlast)⟩

/-- The bounds rise from zero to the number of queries, by at most the budgeted
step. -/
theorem bridgeSliceBounds_spec {numTokens : ℕ} (hn : 0 < numTokens) (topk maxRows : ℕ) :
    let step := max 1 (maxRows / max 1 topk)
    ∃ rest, bridgeSliceBounds numTokens topk maxRows = 0 :: rest ∧
      (0 :: rest).IsChain (fun a b => a < b ∧ b ≤ a + step) ∧
      (0 :: rest).getLast? = some numTokens := by
  intro step
  have hstep : 0 < step := lt_of_lt_of_le Nat.one_pos (le_max_left ..)
  by_cases hle : numTokens ≤ step
  · refine ⟨[numTokens], ?_, ?_, rfl⟩
    · simp only [bridgeSliceBounds]
      rw [if_pos hle]
    · rw [List.isChain_cons_cons]
      exact ⟨⟨hn, by omega⟩, List.isChain_singleton _⟩
  · -- `k + 1` multiples of the step fit below the number of queries
    obtain ⟨k, hk⟩ : ∃ k, (numTokens + step - 1) / step = k + 1 :=
      Nat.exists_eq_succ_of_ne_zero (Nat.div_pos (by omega) hstep).ne'
    have hlow : k * step < numTokens := by
      have h := (Nat.le_div_iff_mul_le hstep).mp hk.ge
      rw [Nat.add_one_mul] at h
      omega
    have hhigh : numTokens ≤ k * step + step := by
      have h := Nat.lt_succ_of_le hk.le
      rw [Nat.div_lt_iff_lt_mul hstep, Nat.add_one_mul, Nat.add_one_mul] at h
      omega
    have hlastRange : ((List.range (k + 1)).map (· * step)).getLast? = some (k * step) := by
      rw [List.range_succ, List.map_append]
      exact List.getLast?_concat
    have hbounds : bridgeSliceBounds numTokens topk maxRows =
        (List.range (k + 1)).map (· * step) ++ [numTokens] := by
      simp only [bridgeSliceBounds]
      rw [if_neg hle]
      simp only [step] at hk hlastRange hlow
      rw [hk, hlastRange, if_neg]
      simp only [Option.some.injEq]
      omega
    have hcons : 0 :: ((List.range' 1 k).map (· * step) ++ [numTokens]) =
        (List.range (k + 1)).map (· * step) ++ [numTokens] := by
      rw [List.range_eq_range', List.range'_succ, List.map_cons, Nat.zero_mul]
      rfl
    refine ⟨(List.range' 1 k).map (· * step) ++ [numTokens], hbounds.trans hcons.symm, ?_, ?_⟩
    · rw [hcons, List.isChain_append]
      refine ⟨?_, List.isChain_singleton _, ?_⟩
      · rw [List.isChain_map, List.isChain_range]
        intro m _
        rw [Nat.succ_eq_add_one, Nat.add_one_mul]
        omega
      · rintro a ha b hb
        obtain rfl : k * step = a := Option.some.inj (hlastRange.symm.trans ha)
        obtain rfl : numTokens = b := Option.some.inj hb
        exact ⟨hlow, hhigh⟩
    · rw [hcons]
      exact List.getLast?_concat

/-- The bounds that the bridge computes cut the tokens of a batch into slices that tile it. -/
theorem bridgeSliceBounds_tiles {numTokens : ℕ} (hn : 0 < numTokens) (topk maxRows : ℕ) :
    let bounds := bridgeSliceBounds numTokens topk maxRows
    Tiles 0 numTokens (bounds.dropLast.zip bounds.tail) := by
  obtain ⟨rest, heq, hchain, hlast⟩ := bridgeSliceBounds_spec hn topk maxRows
  simp only [heq]
  exact tiles_of_chain (hchain.imp fun _ _ h => h.1) hlast

/-! ## The identity indices -/

/-- The buffer of indices is the identity, all of it. -/
structure BridgeBuffers.Identity (b : BridgeBuffers) : Prop where
  /-- before the first call nothing is filled in -/
  none : b.ids.current = none → b.filled = 0
  /-- the buffer in use was filled in whole -/
  filled : ∀ t, b.ids.current = some t → b.filled = t.rows
  /-- and holds the identity -/
  data : ∀ t, b.ids.current = some t → ∀ i, i < t.rows → t.data i = i

/-- A persistent buffer is either large enough and kept, or replaced by a fresh one. -/
theorem persistentBuffer_cases {α : Type*} (fresh : ℕ → α) (kept : Kept α) (rows : ℕ) :
    (∃ buf, kept.current = some buf ∧ rows ≤ buf.rows ∧
        persistentBuffer fresh kept rows = (kept, buf)) ∨
      (∀ buf, kept.current = some buf → buf.rows < rows) ∧
        ∃ retired, persistentBuffer fresh kept rows =
          (⟨some ⟨rows, fresh⟩, retired⟩, ⟨rows, fresh⟩) := by
  obtain ⟨current, retired⟩ := kept
  cases current with
  | none => exact .inr ⟨by simp, retired, rfl⟩
  | some buf =>
    by_cases hle : rows ≤ buf.rows
    · refine .inl ⟨buf, rfl, hle, ?_⟩
      simp only [persistentBuffer, if_pos hle]
    · refine .inr ⟨?_, retired ++ [buf], ?_⟩
      · rintro _ ⟨⟩
        omega
      · simp only [persistentBuffer, if_neg hle]

section
variable {F : Type*} (o : FloatOps F)

/-- What the bridge puts in place of slot `idx`. -/
def bridgedRow (pool : Fp4Pool) (idx : ℤ) : V4Row :=
  o.requantV4 (gated o (pool.row (max idx 0).toNat) idx)

/-- **The bridge's spec**: it returns the gathered rows in order and indices that are the identity
over them. -/
theorem repackFp4ExtraToV4_spec (d : Device) (launch : ℕ) (pool : Fp4Pool) (flatIdx : ℕ → ℤ)
    {n : ℕ} (hn : 0 < n) {b : BridgeBuffers} (hb : b.Identity) :
    ∃ b' scratch ids, repackFp4ExtraToV4 o d launch pool flatIdx n b = some (b', scratch, ids) ∧
      b'.Identity ∧ (∀ k, k < n → ids k = k) ∧
      ∀ k, k < n → readV4 scratch k = bridgedRow o pool (toInt32 (flatIdx k)) := by
  have hrows : ∀ (dst : Memory) (k : ℕ), k < n →
      readV4 (repackFp4ToV4Kernel o pool.bytes pool.pageBytes (pool.pageSize.size - 1)
        (fun k => toInt32 (flatIdx k)) (d.order launch n) dst) k =
        bridgedRow o pool (toInt32 (flatIdx k)) := fun dst k hk =>
    readV4_kernel o pool _ dst ((d.order_perm launch n).mem_iff.mpr (List.mem_range.mpr hk))
  rcases persistentBuffer_cases d.freshIds b.ids n with
    ⟨buf, hcur, hle, hpb⟩ | ⟨hsmall, retired, hpb⟩
  · -- the prefix of a buffer filled in before
    have hfull : ¬ b.filled < n := by
      rw [hb.filled buf hcur]
      omega
    simp only [repackFp4ExtraToV4, if_neg hn.ne', hpb, decide_eq_true_eq, if_neg hfull]
    refine ⟨_, _, _, rfl, ⟨by simp, ?_, ?_⟩, ?_, fun k hk => hrows _ k hk⟩
    · rintro t ⟨⟩
      exact hb.filled buf hcur
    · rintro t ⟨⟩ i hi
      exact hb.data buf hcur i hi
    · exact fun k hk => hb.data buf hcur k (by omega)
  · -- a fresh buffer, filled in now
    have hempty : b.filled < n := by
      cases hcur : b.ids.current with
      | none => rwa [hb.none hcur]
      | some buf =>
        rw [hb.filled buf hcur]
        exact hsmall buf hcur
    simp only [repackFp4ExtraToV4, if_neg hn.ne', hpb, decide_eq_true_eq, if_pos hempty]
    refine ⟨_, _, _, rfl, ⟨by simp, ?_, ?_⟩, ?_, fun k hk => hrows _ k hk⟩
    · rintro t ⟨⟩
      rfl
    · rintro t ⟨⟩ i hi
      exact if_pos hi
    · exact fun k hk => if_pos hk

/-- An earlier call of the bridge on the device. -/
structure BridgeCall : Type where
  /-- the device as it is then -/
  device : Device
  /-- the number of the launch -/
  launch : ℕ
  /-- the pool -/
  pool : Fp4Pool
  /-- the slots -/
  flatIdx : ℕ → ℤ
  /-- how many -/
  n : ℕ

/-- The buffers of a device as a machine: one step for each call of the bridge. -/
def bridgeMachine : Machine BridgeBuffers BridgeCall where
  init b := b = BridgeBuffers.empty
  step b c b' := ∃ scratch ids,
    repackFp4ExtraToV4 o c.device c.launch c.pool c.flatIdx c.n b = some (b', scratch, ids)

/-- Whatever was asked of the bridge before, its indices are the identity. -/
theorem identity_reach {b : BridgeBuffers} (h : (bridgeMachine o).Reach b) : b.Identity := by
  refine Machine.Invariant.reach (I := BridgeBuffers.Identity) ⟨?_, ?_⟩ h
  · rintro b rfl
    exact ⟨fun _ => rfl, by simp [BridgeBuffers.empty], by simp [BridgeBuffers.empty]⟩
  · rintro b c b' hb ⟨scratch, ids, hst⟩
    by_cases hn : c.n = 0
    · rw [repackFp4ExtraToV4, if_pos hn] at hst
      cases hst
    · obtain ⟨b₁, _, _, heq, hb₁, -⟩ :=
        repackFp4ExtraToV4_spec o c.device c.launch c.pool c.flatIdx (Nat.pos_of_ne_zero hn) hb
      rw [heq] at hst
      cases hst
      exact hb₁

/-! ## What each query attends to -/

/-- The places below query `i`'s length. -/
def live (topk : ℕ) (lengths : Option (ℕ → ℕ)) (i : ℕ) : List ℕ :=
  (List.range topk).filter (below (lengthAt lengths i))

theorem mem_live {topk : ℕ} {lengths : Option (ℕ → ℕ)} {i j : ℕ} :
    j ∈ live topk lengths i ↔ j < topk ∧ below (lengthAt lengths i) j = true := by
  simp [live]

/-- What query `i` attends to through the bridge: every place below its length. -/
def seenRows (pool : Fp4Pool) (indices : SlotIds) (topk : ℕ) (lengths : Option (ℕ → ℕ))
    (i : ℕ) : List V4Row :=
  (live topk lengths i).map fun j => bridgedRow o pool (indices.at_ i j)

/-- The slot ids of a batch are `int32`s, so converting them to `int32` changes none. -/
theorem SlotIds.toInt32_at (indices : SlotIds) (i j : ℕ) :
    toInt32 (indices.at_ i j) = indices.at_ i j := by
  obtain ⟨hlo, hhi⟩ := indices.fits i j
  exact Int.bmod_eq_of_le (by norm_num; omega) (by norm_num; omega)

/-- In one slice every query sees the rows that were gathered for it, in the order of its slots. -/
theorem bridgeSlice_spec (d : Device) (pool : Fp4Pool) (indices : SlotIds) {topk : ℕ}
    (htopk : 0 < topk) (lengths : Option (ℕ → ℕ)) {b : BridgeBuffers} (hb : b.Identity)
    {lo hi : ℕ} (hlt : lo < hi) :
    ∃ b', bridgeSlice o d pool indices topk lengths b lo hi =
        some (b', (List.range' lo (hi - lo)).map (seenRows o pool indices topk lengths)) ∧
      b'.Identity := by
  have hn : 0 < (hi - lo) * topk := Nat.mul_pos (by omega) htopk
  obtain ⟨b', scratch, ids, heq, hb', hids, hread⟩ := repackFp4ExtraToV4_spec o d lo pool
    (fun k => indices.at_ (lo + k / topk) (k % topk)) hn hb
  refine ⟨b', ?_, hb'⟩
  simp only [bridgeSlice, heq, Option.bind_eq_bind, Option.bind_some, Option.pure_def,
    Option.some.injEq, Prod.mk.injEq, true_and]
  rw [List.range'_eq_map_range, List.map_map]
  refine List.map_congr_left fun i hi' => ?_
  have hflat : ∀ j, j < topk → i * topk + j < (hi - lo) * topk := by
    intro j hj
    have h := Nat.mul_le_mul_right topk (Nat.succ_le_of_lt (List.mem_range.mp hi'))
    rw [Nat.succ_mul] at h
    omega
  simp only [attend, seenRows, live, Function.comp_apply]
  have hfilter : (List.range topk).filter (fun j =>
      below (lengthAt lengths (lo + i)) j && decide (0 ≤ ids (i * topk + j))) =
      (List.range topk).filter (below (lengthAt lengths (lo + i))) := by
    refine List.filter_congr fun j hj => ?_
    rw [hids _ (hflat j (List.mem_range.mp hj)), decide_eq_true (Int.natCast_nonneg _),
      Bool.and_true]
  rw [hfilter]
  refine List.map_congr_left fun j hj => ?_
  have hj' : j < topk := List.mem_range.mp (List.mem_filter.mp hj).1
  rw [hids _ (hflat j hj'), Int.toNat_natCast, hread _ (hflat j hj')]
  rw [Nat.mul_comm, Nat.mul_add_div htopk, Nat.div_eq_of_lt hj', Nat.mul_add_mod,
    Nat.mod_eq_of_lt hj', Nat.add_zero, indices.toInt32_at]

/-- Over all slices every query sees the rows gathered for it, and the slices come back in order. -/
theorem bridgeSlices_spec (d : Device) (pool : Fp4Pool) (indices : SlotIds) {topk : ℕ}
    (htopk : 0 < topk) (lengths : Option (ℕ → ℕ)) {slices : List (ℕ × ℕ)} {lo hi : ℕ}
    (htiles : Tiles lo hi slices) {b : BridgeBuffers} (hb : b.Identity) :
    lo ≤ hi ∧ ∃ b', bridgeSlices o d pool indices topk lengths b slices =
        some (b', (List.range' lo (hi - lo)).map (seenRows o pool indices topk lengths)) ∧
      b'.Identity := by
  induction slices generalizing lo b with
  | nil =>
    obtain rfl : lo = hi := htiles
    exact ⟨le_rfl, b, by simp [bridgeSlices], hb⟩
  | cons slice slices ih =>
    obtain ⟨a, mid⟩ := slice
    obtain ⟨rfl, hlt, htiles⟩ := htiles
    obtain ⟨b₁, hfirst, hb₁⟩ := bridgeSlice_spec o d pool indices htopk lengths hb hlt
    obtain ⟨hle, b₂, hrest, hb₂⟩ := ih htiles hb₁
    refine ⟨by omega, b₂, ?_, hb₂⟩
    simp only [bridgeSlices, hfirst, hrest, Option.bind_eq_bind, Option.bind_some,
      Option.pure_def]
    rw [← List.map_append]
    have hjoin := List.range'_append_1 (s := a) (m := mid - a) (n := hi - mid)
    rw [show a + (mid - a) = mid by omega, show mid - a + (hi - mid) = hi - a by omega] at hjoin
    rw [hjoin]

/-- **The batch**: every query sees the gathered row of each place below its
length. -/
theorem bridgedRows_eq (d : Device) (pool : Fp4Pool) (indices : SlotIds) {numTokens topk : ℕ}
    (hn : 0 < numTokens) (htopk : 0 < topk) (lengths : Option (ℕ → ℕ)) (maxRows : ℕ)
    {b : BridgeBuffers} (hb : b.Identity) :
    ∃ b', bridgedRows o d pool indices numTokens topk lengths maxRows b =
      some (b', (List.range numTokens).map (seenRows o pool indices topk lengths)) := by
  obtain ⟨-, b', heq, -⟩ := bridgeSlices_spec o d pool indices htopk lengths
    (bridgeSliceBounds_tiles hn topk maxRows) hb
  rw [List.range_eq_range']
  exact ⟨b', heq⟩

/-- What query `i` would attend to in the pool: the places below its length whose
slot is not masked. -/
theorem pooledRows_eq (pool : Fp4Pool) (indices : SlotIds) (topk : ℕ)
    (lengths : Option (ℕ → ℕ)) (i : ℕ) :
    pooledRows o pool indices topk lengths i =
      ((live topk lengths i).filter fun j => 0 ≤ indices.at_ i j).map fun j =>
        bridgedRow o pool (indices.at_ i j) := by
  rw [pooledRows, attend, live, List.filter_filter]
  simp only [Bool.and_comm]
  refine List.map_congr_left fun j hj => ?_
  have hpos : 0 ≤ indices.at_ i j := by
    simpa using ((Bool.and_eq_true _ _).mp (List.mem_filter.mp hj).2).2
  rw [bridgedRow, gated_of_nonneg o _ hpos, max_eq_left hpos]

/-- The bridge adds a row for each masked slot below the length, so it attends to
the pool's rows exactly when there is none. -/
theorem seenRows_eq_iff (pool : Fp4Pool) (indices : SlotIds) (topk : ℕ)
    (lengths : Option (ℕ → ℕ)) (i : ℕ) :
    seenRows o pool indices topk lengths i = pooledRows o pool indices topk lengths i ↔
      ∀ j ∈ live topk lengths i, 0 ≤ indices.at_ i j := by
  rw [pooledRows_eq, seenRows]
  constructor
  · intro heq j hj
    have hlen := congrArg List.length heq
    rw [List.length_map, List.length_map] at hlen
    have hall := (List.filter_sublist (p := fun j => decide (0 ≤ indices.at_ i j))).eq_of_length
      hlen.symm
    simpa using List.filter_eq_self.mp hall j hj
  · intro hall
    rw [List.filter_eq_self.mpr fun j hj => decide_eq_true (hall j hj)]

/-- **What the bridge keeps.** Whatever the bridge was asked before, a query attends
through it to the rows it would attend to in the pool exactly when none of its places
below `extra_topk_length` is masked. -/
theorem bridge_attends {b : BridgeBuffers} (hb : (bridgeMachine o).Reach b) (d : Device)
    (pool : Fp4Pool) (indices : SlotIds) {numTokens topk : ℕ} (htopk : 0 < topk)
    (lengths : Option (ℕ → ℕ)) (maxRows : ℕ) {i : ℕ} (hi : i < numTokens) :
    ∃ b' rows, bridgedRows o d pool indices numTokens topk lengths maxRows b = some (b', rows) ∧
      (rows[i]? = some (pooledRows o pool indices topk lengths i) ↔
        ∀ j, j < topk → below (lengthAt lengths i) j = true → 0 ≤ indices.at_ i j) := by
  obtain ⟨b', heq⟩ := bridgedRows_eq o d pool indices (Nat.zero_lt_of_lt hi) htopk lengths maxRows
    (identity_reach o hb)
  refine ⟨b', _, heq, ?_⟩
  rw [List.getElem?_map, List.getElem?_range hi, Option.map_some, Option.some.injEq,
    seenRows_eq_iff]
  simp only [mem_live, and_imp]

end

/-! ## The operations on rationals

Finite floats as rationals: the products of the bridge are exact in `float32`, and
the conversions round as the hardware does. NaN codes and the sign of zero, which
rationals do not have, are out of its reach. -/

/-- Round half to even. -/
def roundEven (x : ℚ) : ℕ :=
  let n := x.floor.toNat
  let rest : ℚ := 2 * (x - n)
  if 1 < rest ∨ rest = 1 ∧ n % 2 = 1 then n + 1 else n

/-- The bits of a positive normal `float32`, rounded to nearest. -/
def magnitudeBits (x : ℚ) : ℕ :=
  let e₀ : ℤ := Nat.log2 x.num.toNat - Nat.log2 x.den
  let e := if x < (2 : ℚ) ^ e₀ then e₀ - 1 else e₀
  (e + 126).toNat * 2 ^ 23 + roundEven (x / (2 : ℚ) ^ (e - 23))

/-- The bits of a `float32`. -/
def rationalBits (x : ℚ) : UInt32 :=
  if x = 0 then 0
  else UInt32.ofNat ((if x < 0 then 2 ^ 31 else 0) + magnitudeBits |x|)

/-- The value of a finite `float32`. -/
def rationalOfBits (u : UInt32) : ℚ :=
  let e : ℕ := u.toNat / 2 ^ 23 % 256
  let m : ℕ := u.toNat % 2 ^ 23
  (if u.toNat < 2 ^ 31 then 1 else -1 : ℚ) *
    if e = 0 then m * (2 : ℚ) ^ (-149 : ℤ) else (2 ^ 23 + m) * (2 : ℚ) ^ ((e : ℤ) - 150)

/-- The magnitude of an e4m3 code. -/
def e4m3Magnitude (c : ℕ) : ℚ :=
  let m : ℕ := c % 8
  let e : ℕ := c / 8
  if e = 0 then m * (2 : ℚ) ^ (-9 : ℤ) else (1 + m / 8) * (2 : ℚ) ^ ((e : ℤ) - 7)

/-- The e4m3 code nearest to a magnitude: the even one of two, the greatest past the
end. -/
def nearestE4m3 (x : ℚ) : ℕ :=
  (List.range 127).foldl (fun best c =>
    let d := |e4m3Magnitude c - x|
    let d' := |e4m3Magnitude best - x|
    if d < d' ∨ d = d' ∧ c % 2 = 0 then c else best) 0

/-- The kernels' scalar operations, on rationals. -/
def rationalOps : FloatOps ℚ where
  zero := 0
  one := 1
  minAmax := rationalOfBits (rationalBits (1 / 10000))
  maxE4m3 := 448
  e2m1 c :=
    (if c.toNat / 8 = 0 then 1 else -1) * [0, 1 / 2, 1, 3 / 2, 2, 3, 4, 6].getD (c.toNat % 8) 0
  e4m3 c := (if c.toNat < 128 then 1 else -1) * e4m3Magnitude (c.toNat % 128)
  mul := (· * ·)
  abs := fun x => |x|
  max := max
  fdiv x y := rationalOfBits (rationalBits (x / y))
  bits := rationalBits
  ofBits := rationalOfBits
  toE4m3 x := UInt8.ofNat ((if x < 0 then 128 else 0) + nearestE4m3 |x|)
  toBf16 x :=
    let u := (rationalBits x).toNat
    UInt16.ofNat ((u + 0x7FFF + u / 2 ^ 16 % 2) / 2 ^ 16)
  mul_one := Rat.mul_one

/-! ## A batch with a masked slot -/

/-- A pool of one page of zeroes. -/
def zeroPool : Fp4Pool where
  bytes _ := 0
  pageSize := 256
  pageBytes := 256 * 288
  pageSize_eq := .inr rfl
  pageBytes_ge := le_rfl

/-- A device whose programs run in order on zeroed memory. -/
def plainDevice : Device where
  freshBytes _ := 0
  freshIds _ := 0
  order _ n := List.range n
  order_perm _ _ := .rfl

/-- Slot 0 for the first `k` places, masked ones after it. -/
def firstSlots (k : ℕ) : SlotIds where
  at_ _ j := if j < k then 0 else -1
  fits i j := by split <;> constructor <;> norm_num

/-- A query with one live slot and length one attends to its row through the
bridge. -/
theorem bridge_attends_one : ∃ b' rows,
    bridgedRows rationalOps plainDevice zeroPool (firstSlots 1) 1 64 (some fun _ => 1) 4096
      BridgeBuffers.empty = some (b', rows) ∧
      rows[0]? = some (pooledRows rationalOps zeroPool (firstSlots 1) 64 (some fun _ => 1) 0) := by
  obtain ⟨b', rows, heq, hiff⟩ := bridge_attends rationalOps (.init rfl) plainDevice zeroPool
    (firstSlots 1) (by norm_num : 0 < 64) (some fun _ => 1) 4096 Nat.one_pos
  refine ⟨b', rows, heq, hiff.mpr fun j _ hlt => ?_⟩
  have hlt' : j < 1 := of_decide_eq_true hlt
  simp only [firstSlots, if_pos hlt', le_refl]

/-- A query with one live slot, a masked one after it and length two attends to two
rows through the bridge, and to one in the pool. -/
theorem bridge_not_masked : ¬ ∀ (F : Type) (o : FloatOps F) (b : BridgeBuffers)
    (_ : (bridgeMachine o).Reach b) (d : Device) (pool : Fp4Pool) (indices : SlotIds)
    (numTokens topk : ℕ) (_ : 0 < topk) (lengths : Option (ℕ → ℕ)) (maxRows i : ℕ)
    (_ : i < numTokens), ∃ b' rows,
      bridgedRows o d pool indices numTokens topk lengths maxRows b = some (b', rows) ∧
        rows[i]? = some (pooledRows o pool indices topk lengths i) := by
  intro h
  obtain ⟨b', rows, heq, hrow⟩ := h ℚ rationalOps BridgeBuffers.empty (.init rfl) plainDevice
    zeroPool (firstSlots 1) 1 64 (by norm_num) (some fun _ => 2) 4096 0 Nat.one_pos
  obtain ⟨b'', heq'⟩ := bridgedRows_eq rationalOps plainDevice zeroPool (firstSlots 1) Nat.one_pos
    (by norm_num : 0 < 64) (some fun _ => 2) 4096 (identity_reach rationalOps (.init rfl))
  rw [heq] at heq'
  cases heq'
  have hseen := (seenRows_eq_iff rationalOps zeroPool (firstSlots 1) 64 (some fun _ => 2) 0).mp
    (Option.some.inj hrow) 1 (mem_live.mpr ⟨by norm_num, rfl⟩)
  simp [firstSlots] at hseen

end LuzServing

import Mathlib.Tactic

/-!
# Loading a column shard past the end

A rank's shard of a column-parallel weight may end behind the weight, or begin there, when the
parameter was padded. Two loaders are installed for this. What is missing becomes zero in a weight
and one in a block scale, which is a `float32`: a scale has to be a positive power of two. The
methods work out in their own ways how much of the shard is there, and the second takes a shard
that begins behind the end for one that it need not look at
(`columnWeightLoader_rows`). So the loaders agree unless a rank's scales begin there
(`column_loaders_iff`).
-/

namespace LuzServing

universe u

/-! ## Weights -/

/-- A tensor by its rows along the dimension that is sharded. -/
structure Weight (ι : Type u) : Type u where
  /-- `dtype == torch.float32` -/
  isFloat32 : Bool
  /-- the rows -/
  rows : List (ι → ℚ)

/-- A row of one value. -/
def constRow {ι : Type u} (c : ℚ) : ι → ℚ := fun _ => c

/-- `_pad_fill`: one for block scales, zero for weights. -/
def padFill {ι : Type u} (param : Weight ι) : ℚ := if param.isFloat32 then 1 else 0

/-- `narrow(dim, start, length).fill_(1.0)` to the end -/
def fillFrom {ι : Type u} (w : Weight ι) (start : ℕ) : Weight ι :=
  { w with rows := w.rows.take start ++ List.replicate (w.rows.length - start) (constRow 1) }

/-! ## The loaders -/

/-- The functions that the loaders call: what pads, and the loaders that were there before. -/
structure ColumnOps (ι : Type u) : Type u where
  /-- `pad_or_narrow_weight`, of a weight, from a row on, to a number of rows -/
  padOrNarrow : Weight ι → ℕ → ℕ → Weight ι
  /-- `orig_col`, of the parameter, the weight and the rank -/
  origCol : Weight ι → Weight ι → ℕ → Weight ι
  /-- `orig_lin` -/
  origLin : Weight ι → Weight ι → ℕ → Weight ι

variable {ι : Type u}

/-- The rows of a rank's shard that are there. -/
def realSlice (loaded : Weight ι) (start shardSize : ℕ) : List (ι → ℚ) :=
  (loaded.rows.drop start).take shardSize

/-- What the loaders rely on of the functions that they call, as these are documented. -/
structure ColumnOps.Documented (ops : ColumnOps ι) : Prop where
  /-- `pad_or_narrow_weight` gives the rows that are there, and zeros -/
  rows : ∀ loaded start shardSize, (ops.padOrNarrow loaded start shardSize).rows =
    realSlice loaded start shardSize ++
      List.replicate (shardSize - (loaded.rows.length - start)) (constRow 0)
  /-- of the type of the weight -/
  isFloat32 : ∀ loaded start shardSize,
    (ops.padOrNarrow loaded start shardSize).isFloat32 = loaded.isFloat32
  /-- the loader that was there copies a shard that is there -/
  origLin : ∀ data loaded rank,
    rank * data.rows.length + data.rows.length ≤ loaded.rows.length →
    (ops.origLin data loaded rank).rows =
      realSlice loaded (rank * data.rows.length) data.rows.length

variable (ops : ColumnOps ι)

/-- `load_column_parallel_weight` of a `_ColumnvLLMParameter` -/
def loadColumnParallelWeight (usePreshardedWeights : Bool) (data loaded : Weight ι) (tpRank : ℕ) :
    Weight ι :=
  if usePreshardedWeights then ops.origCol data loaded tpRank
  else
    let shardSize := data.rows.length
    let start := tpRank * shardSize
    let stop := start + shardSize
    let full := loaded.rows.length
    let loaded :=
      if full < stop ∨ full ≤ start then
        let real := (max 0 (full - start : ℤ)).toNat
        let padded := ops.padOrNarrow loaded start shardSize
        if padded.isFloat32 ∧ real < padded.rows.length then fillFrom padded real else padded
      else { loaded with rows := realSlice loaded start shardSize }
    if data.rows.length ≠ loaded.rows.length then
      let overlap := min data.rows.length loaded.rows.length
      { data with rows := loaded.rows.take overlap ++
          List.replicate (data.rows.length - overlap) (constRow (padFill data)) }
    else { data with rows := loaded.rows }

/-- What `column_weight_loader` looks at before it looks at the shard. -/
structure ColumnFlags : Type where
  /-- the parameter has an `output_dim` -/
  hasOutputDim : Bool
  /-- `use_bitsandbytes_4bit` -/
  useBitsandbytes4bit : Bool
  /-- `use_presharded_weights` -/
  usePreshardedWeights : Bool

/-- The parameter is sharded by its rows. -/
def ColumnFlags.Sharded (flags : ColumnFlags) : Prop :=
  flags.hasOutputDim = true ∧ flags.useBitsandbytes4bit = false ∧
    flags.usePreshardedWeights = false

instance (flags : ColumnFlags) : Decidable flags.Sharded := inferInstanceAs (Decidable (_ ∧ _))

/-- `column_weight_loader` of a `ColumnParallelLinear` -/
def columnWeightLoader (flags : ColumnFlags) (param loaded : Weight ι) (tpRank : ℕ) : Weight ι :=
  if flags.Sharded then
    let shardSize := param.rows.length
    let start := tpRank * shardSize
    let stop := start + shardSize
    let full := loaded.rows.length
    if full < stop then
      let real : ℤ := full - start
      let padded := ops.padOrNarrow loaded start shardSize
      let padded :=
        if padded.isFloat32 ∧ 0 ≤ real ∧ real < shardSize then fillFrom padded real.toNat
        else padded
      if param.rows.length = padded.rows.length then { param with rows := padded.rows }
      else ops.origLin param padded tpRank
    else ops.origLin param loaded tpRank
  else ops.origLin param loaded tpRank

/-- What a rank's shard should hold: the rows that are there, and padding. -/
def paddedShard (loaded : Weight ι) (shardSize rank : ℕ) : List (ι → ℚ) :=
  realSlice loaded (rank * shardSize) shardSize ++
    List.replicate (shardSize - (loaded.rows.length - rank * shardSize)) (constRow (padFill loaded))

/-! ## What the loaders leave -/

variable {loaded : Weight ι} {shardSize rank : ℕ}

theorem length_realSlice (loaded : Weight ι) (start shardSize : ℕ) :
    (realSlice loaded start shardSize).length = min shardSize (loaded.rows.length - start) := by
  rw [realSlice, List.length_take, List.length_drop]

/-- A padded shard has as many rows as a shard is to have, for every rank. -/
theorem length_paddedShard (loaded : Weight ι) (shardSize rank : ℕ) :
    (paddedShard loaded shardSize rank).length = shardSize := by
  rw [paddedShard, List.length_append, length_realSlice, List.length_replicate]
  omega

variable {ops}

/-- What `padOrNarrow` returns has as many rows as a shard is to have. -/
theorem length_padOrNarrow (hops : ops.Documented) (loaded : Weight ι) (start shardSize : ℕ) :
    (ops.padOrNarrow loaded start shardSize).rows.length = shardSize := by
  rw [hops.rows, List.length_append, length_realSlice, List.length_replicate]
  omega

/-- What `padOrNarrow` returns, with ones in place of its padding, is the real rows and then
ones. -/
theorem fillFrom_padOrNarrow (hops : ops.Documented) (loaded : Weight ι) {start shardSize : ℕ}
    (hle : loaded.rows.length - start ≤ shardSize) :
    (fillFrom (ops.padOrNarrow loaded start shardSize) (loaded.rows.length - start)).rows =
      realSlice loaded start shardSize ++
        List.replicate (shardSize - (loaded.rows.length - start)) (constRow 1) := by
  have hslice : (realSlice loaded start shardSize).length = loaded.rows.length - start := by
    rw [length_realSlice, min_eq_right hle]
  rw [fillFrom, length_padOrNarrow hops, hops.rows, ← hslice, List.take_left]

/-- **The first loader** leaves in every rank's parameter the shard that it should have. -/
theorem loadColumnParallelWeight_rows (hops : ops.Documented) (data loaded : Weight ι)
    (rank : ℕ) :
    (loadColumnParallelWeight ops false data loaded rank).rows =
      paddedShard loaded data.rows.length rank := by
  rw [loadColumnParallelWeight, if_neg Bool.false_ne_true]
  dsimp only
  generalize data.rows.length = shardSize
  -- the shard, whichever way it is taken
  obtain ⟨shard, hshard, hrows⟩ : ∃ shard : Weight ι, shard =
      (if loaded.rows.length < rank * shardSize + shardSize ∨
          loaded.rows.length ≤ rank * shardSize then
        if (ops.padOrNarrow loaded (rank * shardSize) shardSize).isFloat32 ∧
            (max 0 (loaded.rows.length - (rank * shardSize : ℕ) : ℤ)).toNat <
              (ops.padOrNarrow loaded (rank * shardSize) shardSize).rows.length then
          fillFrom (ops.padOrNarrow loaded (rank * shardSize) shardSize)
            (max 0 (loaded.rows.length - (rank * shardSize : ℕ) : ℤ)).toNat
        else ops.padOrNarrow loaded (rank * shardSize) shardSize
      else { loaded with rows := realSlice loaded (rank * shardSize) shardSize }) ∧
      shard.rows = paddedShard loaded shardSize rank := by
    refine ⟨_, rfl, ?_⟩
    have hreal : (max 0 (loaded.rows.length - (rank * shardSize : ℕ) : ℤ)).toNat =
        loaded.rows.length - rank * shardSize := by
      omega
    rw [hreal, hops.isFloat32, length_padOrNarrow hops, paddedShard, padFill]
    split
    next hpast =>
      split
      next hfill =>
        rw [fillFrom_padOrNarrow hops loaded hfill.2.le, if_pos hfill.1]
      next hkeep =>
        rw [hops.rows]
        by_cases hscale : loaded.isFloat32 = true
        · -- there is no padding
          have hnone : shardSize - (loaded.rows.length - rank * shardSize) = 0 :=
            Nat.sub_eq_zero_of_le (not_lt.mp fun hlt => hkeep ⟨hscale, hlt⟩)
          rw [hnone, List.replicate_zero, List.replicate_zero]
        · rw [if_neg hscale]
    next hin =>
      have hnone : shardSize - (loaded.rows.length - rank * shardSize) = 0 := by
        omega
      rw [hnone, List.replicate_zero, List.append_nil]
  rw [← hshard, if_neg (not_not.mpr (by rw [hrows, length_paddedShard])), hrows]

/-- The second loader pads the scales of a shard with ones when the shard does not begin behind
the end, and else with zeros. -/
theorem columnWeightLoader_rows (hops : ops.Documented) {flags : ColumnFlags}
    (hflags : flags.Sharded) (data loaded : Weight ι) (rank : ℕ) :
    (columnWeightLoader ops flags data loaded rank).rows =
      realSlice loaded (rank * data.rows.length) data.rows.length ++
        List.replicate (data.rows.length - (loaded.rows.length - rank * data.rows.length))
          (constRow (if loaded.isFloat32 ∧ rank * data.rows.length ≤ loaded.rows.length then 1
            else 0)) := by
  rw [columnWeightLoader, if_pos hflags]
  dsimp only
  split
  next hpast =>
    have hreal : (0 ≤ (loaded.rows.length : ℤ) - (rank * data.rows.length : ℕ) ∧
        (loaded.rows.length : ℤ) - (rank * data.rows.length : ℕ) < data.rows.length) ↔
          rank * data.rows.length ≤ loaded.rows.length := by
      omega
    simp only [hops.isFloat32, hreal]
    split
    next hfill =>
      have hnat : ((loaded.rows.length : ℤ) - (rank * data.rows.length : ℕ)).toNat =
          loaded.rows.length - rank * data.rows.length := by
        omega
      have hstart : loaded.rows.length - rank * data.rows.length ≤ data.rows.length := by
        omega
      have hrows := fillFrom_padOrNarrow hops loaded hstart
      rw [hnat]
      have hlen : data.rows.length = (fillFrom (ops.padOrNarrow loaded (rank * data.rows.length)
          data.rows.length) (loaded.rows.length - rank * data.rows.length)).rows.length := by
        rw [hrows, List.length_append, length_realSlice, List.length_replicate]
        omega
      rw [if_pos hlen]
      exact hrows
    next hkeep =>
      rw [if_pos (length_padOrNarrow hops _ _ _).symm]
      exact hops.rows _ _ _
  next hin =>
    have hnone : data.rows.length - (loaded.rows.length - rank * data.rows.length) = 0 := by
      omega
    rw [hops.origLin data loaded rank (not_lt.mp hin), hnone, List.replicate_zero,
      List.append_nil]

/-- The shards of the first ranks are the rows up to there, and padding. -/
theorem flatMap_paddedShard (loaded : Weight ι) (shardSize R : ℕ) :
    (List.range R).flatMap (paddedShard loaded shardSize) = loaded.rows.take (R * shardSize) ++
      List.replicate (R * shardSize - loaded.rows.length) (constRow (padFill loaded)) := by
  induction R with
  | zero => simp
  | succ R ih =>
    have hlast : (List.range (R + 1)).flatMap (paddedShard loaded shardSize) =
        (List.range R).flatMap (paddedShard loaded shardSize) ++
          paddedShard loaded shardSize R := by
      rw [List.range_succ, List.flatMap_append, List.flatMap_singleton]
    rw [hlast, ih, paddedShard, realSlice, Nat.succ_mul]
    rcases le_total (R * shardSize) loaded.rows.length with hle | hge
    · have hnone : R * shardSize - loaded.rows.length = 0 := Nat.sub_eq_zero_of_le hle
      have hpad : shardSize - (loaded.rows.length - R * shardSize) =
          R * shardSize + shardSize - loaded.rows.length := by
        omega
      rw [hnone, List.replicate_zero, List.append_nil, ← List.append_assoc, ← List.take_add, hpad]
    · have hpad : R * shardSize - loaded.rows.length +
          (shardSize - (loaded.rows.length - R * shardSize)) =
          R * shardSize + shardSize - loaded.rows.length := by
        omega
      rw [List.drop_eq_nil_of_le hge, List.take_nil, List.nil_append, List.append_assoc,
        List.replicate_append_replicate, hpad, List.take_of_length_le hge,
        List.take_of_length_le (hge.trans (Nat.le_add_right _ _))]

/-! ## When the loaders agree -/

/-- What is asked of the two loaders, for the ranks of a weight: both leave the rows that are
there and padding, zeros in a weight and ones in block scales; the shards are the weight and
padding; and a scale that is padding is a positive power of two. -/
structure LoadsColumns (ops : ColumnOps ι) (loaded : Weight ι) (shardSize tp : ℕ) : Prop where
  /-- the first loader leaves the shard -/
  first : ∀ rank, rank < tp → ∀ data : Weight ι, data.rows.length = shardSize →
    (loadColumnParallelWeight ops false data loaded rank).rows = paddedShard loaded shardSize rank
  /-- the second leaves what the first does -/
  second : ∀ rank, rank < tp → ∀ flags : ColumnFlags, flags.Sharded → ∀ data : Weight ι,
    data.rows.length = shardSize → (columnWeightLoader ops flags data loaded rank).rows =
      (loadColumnParallelWeight ops false data loaded rank).rows
  /-- the shards are the weight, and padding -/
  whole : loaded.rows.length ≤ tp * shardSize → ∀ flags : ColumnFlags, flags.Sharded →
    ∀ data : ℕ → Weight ι, (∀ rank, (data rank).rows.length = shardSize) →
      ((List.range tp).flatMap fun rank =>
        (columnWeightLoader ops flags (data rank) loaded rank).rows) =
          loaded.rows ++
            List.replicate (tp * shardSize - loaded.rows.length) (constRow (padFill loaded))
  /-- a scale that is padding is a positive power of two -/
  scales : loaded.isFloat32 = true → ∀ rank, rank < tp → ∀ flags : ColumnFlags, flags.Sharded →
    ∀ data : Weight ι, data.rows.length = shardSize →
      ∀ row ∈ (columnWeightLoader ops flags data loaded rank).rows.drop
        (loaded.rows.length - rank * shardSize), ∀ i, ∃ k : ℤ, row i = 2 ^ k

/-- The rows of a shard of scales that are padding are rows of ones. -/
theorem eq_one_of_mem_drop {loaded : Weight ι} {shardSize rank : ℕ} {row : ι → ℚ}
    (hscale : loaded.isFloat32 = true)
    (hrow : row ∈
      (paddedShard loaded shardSize rank).drop (loaded.rows.length - rank * shardSize)) :
    row = constRow 1 := by
  have hslice : (realSlice loaded (rank * shardSize) shardSize).length ≤
      loaded.rows.length - rank * shardSize := by
    rw [length_realSlice]
    exact min_le_right _ _
  rw [paddedShard, List.drop_append, List.drop_eq_nil_of_le hslice, List.nil_append, padFill,
    if_pos hscale] at hrow
  exact List.eq_of_mem_replicate (List.mem_of_mem_drop hrow)

/-- **When the loaders agree**, on a weight always, on block scales when no rank's begin behind the
end. -/
theorem column_loaders_iff [Inhabited ι] {ops : ColumnOps ι} (hops : ops.Documented)
    (loaded : Weight ι) (shardSize tp : ℕ) :
    LoadsColumns ops loaded shardSize tp ↔
      (loaded.isFloat32 = true → ∀ rank, rank < tp → rank * shardSize ≤ loaded.rows.length) := by
  constructor
  · intro h hscale rank hrank
    by_contra hlt
    have hsize : 0 < shardSize := Nat.pos_of_ne_zero fun h0 => by
      rw [h0, Nat.mul_zero] at hlt
      exact hlt (Nat.zero_le _)
    -- the shard has a row, of ones or of zeros
    let data : Weight ι := ⟨true, List.replicate shardSize (constRow 0)⟩
    have hdata : data.rows.length = shardSize := List.length_replicate
    have hflags : ColumnFlags.Sharded ⟨true, false, false⟩ := ⟨rfl, rfl, rfl⟩
    have hpast : loaded.rows.length - rank * shardSize = 0 := by omega
    have hnone : realSlice loaded (rank * shardSize) shardSize = [] := by
      rw [realSlice, List.drop_eq_nil_of_le (by omega), List.take_nil]
    have heq := (h.second rank hrank _ hflags data hdata).trans (h.first rank hrank data hdata)
    rw [columnWeightLoader_rows hops hflags, hdata, paddedShard, hnone, hpast, padFill,
      if_pos hscale, if_neg fun hand => hlt hand.2] at heq
    obtain ⟨n, rfl⟩ := Nat.exists_eq_succ_of_ne_zero hsize.ne'
    simp only [List.nil_append, Nat.sub_zero, List.replicate_succ, List.cons.injEq] at heq
    have hvalue := congrFun heq.1 default
    rw [constRow, constRow] at hvalue
    exact zero_ne_one hvalue
  · intro h
    have hsecond : ∀ rank, rank < tp → ∀ flags : ColumnFlags, flags.Sharded →
        ∀ data : Weight ι, data.rows.length = shardSize →
          (columnWeightLoader ops flags data loaded rank).rows =
            paddedShard loaded shardSize rank := by
      intro rank hrank flags hflags data hdata
      rw [columnWeightLoader_rows hops hflags, hdata, paddedShard, padFill]
      by_cases hscale : loaded.isFloat32 = true
      · rw [if_pos ⟨hscale, h hscale rank hrank⟩, if_pos hscale]
      · rw [if_neg fun hand => hscale hand.1, if_neg hscale]
    have hfirst : ∀ rank (data : Weight ι), data.rows.length = shardSize →
        (loadColumnParallelWeight ops false data loaded rank).rows =
          paddedShard loaded shardSize rank := by
      intro rank data hdata
      rw [loadColumnParallelWeight_rows hops, hdata]
    refine ⟨fun rank _ data hdata => hfirst rank data hdata,
      fun rank hrank flags hflags data hdata => ?_, fun hfull flags hflags data hdata => ?_,
      fun hscale rank hrank flags hflags data hdata row hrow i => ⟨0, ?_⟩⟩
    · rw [hsecond rank hrank flags hflags data hdata, hfirst rank data hdata]
    · rw [List.flatMap_congr fun rank hrank => hsecond rank (List.mem_range.mp hrank) flags hflags
        (data rank) (hdata rank), flatMap_paddedShard, List.take_of_length_le hfull]
    · rw [hsecond rank hrank flags hflags data hdata] at hrow
      rw [eq_one_of_mem_drop hscale hrow, constRow, zpow_zero]

/-! ## Block scales over more ranks than rows -/

/-- Functions that behave as the documentation of the called ones says. -/
def documentedOps : ColumnOps ι where
  padOrNarrow loaded start shardSize :=
    { loaded with rows := realSlice loaded start shardSize ++
        List.replicate (shardSize - (loaded.rows.length - start)) (constRow 0) }
  origCol data loaded rank :=
    { data with rows := realSlice loaded (rank * data.rows.length) data.rows.length }
  origLin data loaded rank :=
    { data with rows := realSlice loaded (rank * data.rows.length) data.rows.length }

theorem documentedOps_documented : (documentedOps : ColumnOps ι).Documented :=
  ⟨fun _ _ _ => rfl, fun _ _ _ => rfl, fun _ _ _ _ => rfl⟩

/-- Three rows of block scales over two ranks: the second's begin before the end. -/
theorem column_loaders_two : LoadsColumns documentedOps
    (⟨true, List.replicate 3 (constRow 4)⟩ : Weight Unit) 2 2 :=
  (column_loaders_iff documentedOps_documented _ 2 2).mpr fun _ => by decide

/-- Eight rows of block scales. -/
def eightScales : Weight Unit := ⟨true, List.replicate 8 (constRow 4)⟩

/-- A rank's parameter of one row. -/
def oneScale : Weight Unit := ⟨true, [constRow 0]⟩

/-- **Over sixteen ranks the tenth's begin behind the end**: the first loader leaves a one, and
the second a zero. -/
theorem column_loaders_sixteen :
    (loadColumnParallelWeight documentedOps false oneScale eightScales 9).rows = [constRow 1] ∧
      (columnWeightLoader documentedOps ⟨true, false, false⟩ oneScale eightScales 9).rows =
        [constRow 0] ∧
      ¬ LoadsColumns documentedOps eightScales 1 16 := by
  have hflags : ColumnFlags.Sharded ⟨true, false, false⟩ := ⟨rfl, rfl, rfl⟩
  have hlen : eightScales.rows.length = 8 := List.length_replicate
  have hnone : realSlice eightScales 9 1 = [] := by
    rw [realSlice, List.drop_eq_nil_of_le (by rw [hlen]; decide), List.take_nil]
  have hfirst : (loadColumnParallelWeight documentedOps false oneScale eightScales 9).rows =
      [constRow 1] := by
    rw [loadColumnParallelWeight_rows documentedOps_documented, paddedShard, hlen]
    exact congrArg (· ++ [constRow 1]) hnone
  have hsecond : (columnWeightLoader documentedOps ⟨true, false, false⟩ oneScale eightScales
      9).rows = [constRow 0] := by
    rw [columnWeightLoader_rows documentedOps_documented hflags, hlen]
    exact congrArg (· ++ [constRow 0]) hnone
  refine ⟨hfirst, hsecond, fun h => ?_⟩
  have heq := h.second 9 (by decide) _ hflags oneScale rfl
  rw [hfirst, hsecond] at heq
  exact zero_ne_one (congrFun (List.cons.inj heq).1 ())

end LuzServing

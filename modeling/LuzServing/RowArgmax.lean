import LuzServing.Segments

/-!
# The argmax of a row of logits

`torch.argmax` takes the first of the largest entries (`argmax`). A row can also be cut into
shares, each share scanned tile by tile (`shareBest`), and the best of the shares taken
(`bestOfShares`). Both take the entry that `IsFirstMax` describes, and there is only one
(`bestOfShares_spec`). The indices here are numbers; a kernel that does this has integers of 32
bits.
-/

namespace LuzServing

universe u

variable {S : Type u} [LinearOrder S]

/-! ## First maxima -/

/-- `i` is the first of the largest entries from `lo` to below `hi`. -/
structure IsFirstMax (x : ℕ → S) (lo hi i : ℕ) : Prop where
  /-- not before the start -/
  ge : lo ≤ i
  /-- before the end -/
  lt : i < hi
  /-- the entries before it are smaller -/
  before : ∀ j, lo ≤ j → j < i → x j < x i
  /-- the entries after it are not larger -/
  after : ∀ j, i < j → j < hi → x j ≤ x i

variable {x : ℕ → S} {lo mid hi i j n : ℕ}

/-- No entry of the range is larger than the one at its first maximum. -/
theorem IsFirstMax.le (h : IsFirstMax x lo hi i) (hlo : lo ≤ j) (hhi : j < hi) : x j ≤ x i := by
  rcases lt_trichotomy j i with hlt | rfl | hgt
  · exact (h.before j hlo hlt).le
  · exact le_rfl
  · exact h.after j hgt hhi

/-- An entry of the range that is as large as the maximum does not come before the first maximum. -/
theorem IsFirstMax.le_of_le (h : IsFirstMax x lo hi i) (hlo : lo ≤ j) (hle : x i ≤ x j) :
    i ≤ j := by
  by_contra hlt
  exact absurd (h.before j hlo (not_le.mp hlt)) (not_lt.mpr hle)

/-- A range has at most one first maximum, so two indices that both are it are the same. -/
theorem IsFirstMax.unique (h : IsFirstMax x lo hi i) (h' : IsFirstMax x lo hi j) : i = j :=
  le_antisymm (h.le_of_le h'.ge (h'.le h.ge h.lt)) (h'.le_of_le h.ge (h.le h'.ge h'.lt))

/-- Of the maxima of two parts that follow each other, the second is the maximum of both when
it is larger, and else the first. -/
theorem IsFirstMax.join (h : IsFirstMax x lo mid i) (h' : IsFirstMax x mid hi j) :
    IsFirstMax x lo hi (if x i < x j then j else i) := by
  have hij := h.lt.trans_le h'.ge
  split
  next hlt =>
    refine ⟨h.ge.trans hij.le, h'.lt, fun k hlo hk => ?_, h'.after⟩
    rcases lt_or_ge k mid with hmid | hmid
    · exact (h.le hlo hmid).trans_lt hlt
    · exact h'.before k hmid hk
  next hge =>
    refine ⟨h.ge, hij.trans h'.lt, h.before, fun k hk hhi => ?_⟩
    rcases lt_or_ge k mid with hmid | hmid
    · exact h.after k hk hmid
    · exact (h'.le hmid hhi).trans (not_lt.mp hge)

theorem IsFirstMax.single (x : ℕ → S) (i : ℕ) : IsFirstMax x i (i + 1) i :=
  ⟨le_rfl, Nat.lt_succ_self i, fun _ hle hlt => absurd hlt (not_lt.mpr hle),
    fun _ hlt hle => absurd hlt (not_lt.mpr (Nat.le_of_lt_succ hle))⟩

/-- Every range that is not empty has a first maximum, the least of the indices of its largest
entry. -/
theorem exists_firstMax (x : ℕ → S) (h : lo < hi) : ∃ i, IsFirstMax x lo hi i := by
  induction hi, h using Nat.le_induction with
  | base => exact ⟨lo, IsFirstMax.single x lo⟩
  | succ hi _ ih =>
    obtain ⟨i, hmax⟩ := ih
    exact ⟨_, hmax.join (IsFirstMax.single x hi)⟩

/-! ## `torch.argmax` -/

/-- `torch.argmax` of a row of `n` entries: a later entry has to be larger. -/
def argmax (x : ℕ → S) (n : ℕ) : ℕ :=
  (List.range n).foldl (fun best i => if x best < x i then i else best) 0

/-- The index that `torch.argmax` returns for a row is that of the row's first maximum. -/
theorem argmax_spec (hn : 0 < n) : IsFirstMax x 0 n (argmax x n) := by
  induction n, hn using Nat.le_induction with
  | base =>
    have hzero : argmax x 1 = 0 := by
      rw [argmax, List.range_one, List.foldl_cons, List.foldl_nil, ite_self]
    rw [hzero]
    exact IsFirstMax.single x 0
  | succ n _ ih =>
    have hstep : argmax x (n + 1) = if x (argmax x n) < x n then n else argmax x n := by
      rw [argmax, List.range_succ, List.foldl_append]
      rfl
    rw [hstep]
    exact ih.join (IsFirstMax.single x n)

/-- The argmax of a row depends on the row's own entries and on nothing past them. -/
theorem argmax_congr {y : ℕ → S} (hn : 0 < n) (h : ∀ c, c < n → x c = y c) :
    argmax x n = argmax y n := by
  have hx := argmax_spec (x := x) hn
  have hy : IsFirstMax y 0 n (argmax x n) := by
    refine ⟨hx.ge, hx.lt, fun j hlo hj => ?_, fun j hj hhi => ?_⟩
    · rw [← h j (hj.trans hx.lt), ← h _ hx.lt]
      exact hx.before j hlo hj
    · rw [← h j hhi, ← h _ hx.lt]
      exact hx.after j hj hhi
  exact hy.unique (argmax_spec hn)

/-! ## Reductions -/

/-- The largest lane is the value of a lane that no other is above. -/
theorem fold_max_eq [OrderBot S] {s : Finset ℕ} {v : ℕ → S} {m : ℕ} (hm : m ∈ s)
    (h : ∀ k ∈ s, v k ≤ v m) : s.fold max ⊥ v = v m :=
  le_antisymm (Finset.fold_max_le _ |>.mpr ⟨bot_le, h⟩)
    (Finset.le_fold_max _ |>.mpr (.inr ⟨m, hm, le_rfl⟩))

/-- The lowest lane is the value of a lane that no other is below. -/
theorem fold_min_eq {s : Finset ℕ} {f : ℕ → ℕ} {m c : ℕ} (hm : m ∈ s) (hc : f m ≤ c)
    (h : ∀ k ∈ s, f m ≤ f k) : s.fold min c f = f m :=
  le_antisymm (Finset.fold_min_le _ |>.mpr (.inr ⟨m, hm, le_rfl⟩))
    (Finset.le_fold_min _ |>.mpr ⟨hc, h⟩)

/-! ## A row in shares -/

variable [OrderBot S]

/-- An entry and its index. -/
abbrev Best (S : Type u) : Type u := S × ℕ

/-- A tile: its largest lane and the lowest lane that is as large. The lanes that are not have
the index `n`. -/
def tileBest (x : ℕ → S) (n stop block off : ℕ) : Best S :=
  let v := fun lane => if off + lane < stop then x (off + lane) else ⊥
  let curV := (Finset.range block).fold max ⊥ v
  (curV, (Finset.range block).fold min n fun lane => if v lane = curV then off + lane else n)

/-- The better of what was seen and a tile. -/
def takeBetter (best cur : Best S) : Best S :=
  if best.1 < cur.1 ∨ (cur.1 = best.1 ∧ cur.2 < best.2) then cur else best

/-- The best entry of a share of a row. -/
def shareBest (x : ℕ → S) (n splits block part : ℕ) : Best S :=
  let per := (n + splits - 1) / splits
  let start := part * per
  let stop := min (start + per) n
  ((chunkStarts (stop - start) block).map (start + ·)).foldl
    (fun best off => takeBetter best (tileBest x n stop block off)) (⊥, n)

/-- The index of the shares that are not the best. -/
def noIndex : ℕ := 2147483647

/-- The lowest index of the best shares. -/
def bestOfShares (shares : ℕ → Best S) (splits block : ℕ) : ℕ :=
  let v := fun o => if o < splits then (shares o).1 else ⊥
  let i := fun o => if o < splits then (shares o).2 else noIndex
  let bestV := (Finset.range block).fold max ⊥ v
  (Finset.range block).fold min noIndex fun o => if v o = bestV then i o else noIndex

/-! ## The shares have the first maximum -/

variable {splits block stop off start part : ℕ}

/-- A tile of the kernel gives the first maximum of the columns that it covers. -/
theorem tileBest_eq (hstop : stop ≤ n)
    (h : IsFirstMax x off (min (off + block) stop) i) :
    tileBest x n stop block off = (x i, i) := by
  obtain ⟨lane, rfl⟩ := Nat.exists_eq_add_of_le h.ge
  have hlane : off + lane < off + block ∧ off + lane < stop := lt_min_iff.mp h.lt
  have hmem : lane ∈ Finset.range block := Finset.mem_range.mpr (by omega)
  have hv : (if off + lane < stop then x (off + lane) else ⊥) = x (off + lane) :=
    if_pos hlane.2
  have hmax : (Finset.range block).fold max ⊥
      (fun lane => if off + lane < stop then x (off + lane) else ⊥) = x (off + lane) := by
    refine (fold_max_eq hmem fun k hk => ?_).trans hv
    have hk := Finset.mem_range.mp hk
    rw [hv]
    split
    next hlt => exact h.le (Nat.le_add_right off k) (lt_min (by omega) hlt)
    next => exact bot_le
  rw [tileBest]
  dsimp only
  rw [hmax]
  refine Prod.ext rfl ((fold_min_eq hmem ?_ fun k hk => ?_).trans (if_pos hv))
  · rw [if_pos hv]
    exact hlane.2.le.trans hstop
  · rw [if_pos hv]
    by_cases heq : (if off + k < stop then x (off + k) else ⊥) = x (off + lane)
    · rw [if_pos heq]
      -- a lane past the end is `-inf`, and may be as large, but it is not below
      rcases lt_or_ge (off + k) stop with hlt | hge
      · rw [if_pos hlt] at heq
        exact h.le_of_le (Nat.le_add_right off k) heq.ge
      · exact hlane.2.le.trans hge
    · rw [if_neg heq]
      exact hlane.2.le.trans hstop

/-- The first tile is taken, also when all of it is `-inf`. -/
theorem takeBetter_bot (v : S) (hi : i < n) : takeBetter (⊥, n) (v, i) = (v, i) := by
  refine if_pos ?_
  rcases eq_or_ne v ⊥ with rfl | hne
  · exact .inr ⟨rfl, hi⟩
  · exact .inl (bot_lt_iff_ne_bot.mpr hne)

omit [OrderBot S] in
/-- Of two entries the later one is taken exactly when it is strictly larger than the earlier
one. -/
theorem takeBetter_later (x : ℕ → S) (hij : i < j) : takeBetter (x i, i) (x j, j) =
    (x (if x i < x j then j else i), if x i < x j then j else i) := by
  by_cases hlt : x i < x j
  · rw [if_pos hlt]
    exact if_pos (.inl hlt)
  · rw [if_neg hlt]
    refine if_neg fun h => ?_
    rcases h with h | h
    · exact hlt h
    · exact absurd h.2 (not_lt.mpr hij.le)

/-- What is best after some tiles is the first maximum of these. -/
theorem tilesBest_spec (hblock : 0 < block) (hstop : stop ≤ n) (k : ℕ)
    (hk : start + k * block < stop) :
    ∃ i, IsFirstMax x start (min (start + (k + 1) * block) stop) i ∧
      (((List.range (k + 1)).map fun c => start + c * block).foldl
        (fun best off => takeBetter best (tileBest x n stop block off)) (⊥, n)) = (x i, i) := by
  induction k with
  | zero =>
    rw [Nat.zero_mul, Nat.add_zero] at hk
    obtain ⟨i, hi⟩ := exists_firstMax x (lt_min (Nat.lt_add_of_pos_right hblock) hk)
    refine ⟨i, by rwa [Nat.zero_add, Nat.one_mul], ?_⟩
    rw [Nat.zero_add, List.range_one, List.map_singleton, List.foldl_cons, List.foldl_nil,
      Nat.zero_mul, Nat.add_zero, tileBest_eq hstop hi]
    exact takeBetter_bot _ (((lt_min_iff.mp hi.lt).2).trans_le hstop)
  | succ k ih =>
    have hsucc : start + (k + 1 + 1) * block = start + (k + 1) * block + block := by
      rw [Nat.succ_mul (k + 1), Nat.add_assoc]
    have hprev : start + k * block < stop := by
      rw [Nat.succ_mul] at hk
      omega
    obtain ⟨i, hi, hfold⟩ := ih hprev
    rw [min_eq_left hk.le] at hi
    obtain ⟨j, hj⟩ := exists_firstMax x (lt_min (Nat.lt_add_of_pos_right hblock) hk)
    refine ⟨_, hsucc ▸ hi.join hj, ?_⟩
    rw [List.range_succ, List.map_append, List.foldl_append, hfold, List.map_singleton,
      List.foldl_cons, List.foldl_nil, tileBest_eq hstop hj]
    exact takeBetter_later x (hi.lt.trans_le hj.ge)

/-- A share that has columns gives the first maximum of the columns that belong to it. -/
theorem shareBest_spec (hblock : 0 < block)
    (hne : part * ((n + splits - 1) / splits) < n) (hper : 0 < (n + splits - 1) / splits) :
    ∃ i, IsFirstMax x (part * ((n + splits - 1) / splits))
        (min (part * ((n + splits - 1) / splits) + (n + splits - 1) / splits) n) i ∧
      shareBest x n splits block part = (x i, i) := by
  rw [shareBest]
  generalize (n + splits - 1) / splits = per at *
  generalize part * per = start at *
  have hlt : start < min (start + per) n := lt_min (Nat.lt_add_of_pos_right hper) hne
  have hstop : min (start + per) n ≤ n := min_le_right _ _
  generalize min (start + per) n = stop at *
  -- the last tile starts before the end of the share, and ends at or after it
  have hdiv := Nat.div_add_mod' (stop - start + block - 1) block
  have hmod := Nat.mod_lt (stop - start + block - 1) hblock
  have hpos : 0 < (stop - start + block - 1) / block := Nat.div_pos (by omega) hblock
  obtain ⟨k, hk⟩ := Nat.exists_eq_add_of_lt hpos
  rw [Nat.zero_add] at hk
  rw [hk, Nat.succ_mul] at hdiv
  have hlast : start + k * block < stop := by omega
  obtain ⟨i, hi, hfold⟩ := tilesBest_spec (x := x) hblock hstop k hlast
  refine ⟨i, ?_, ?_⟩
  · rwa [min_eq_right (by rw [Nat.succ_mul]; omega)] at hi
  · rw [chunkStarts, List.map_map, hk]
    exact hfold

/-- A share that begins past the last column gives the least value and the width as its index. -/
theorem shareBest_empty (h : n ≤ part * ((n + splits - 1) / splits)) (hblock : 0 < block) :
    shareBest x n splits block part = (⊥, n) := by
  rw [shareBest]
  have hzero : min (part * ((n + splits - 1) / splits) + (n + splits - 1) / splits) n -
      part * ((n + splits - 1) / splits) = 0 :=
    Nat.sub_eq_zero_of_le ((min_le_right _ _).trans h)
  rw [hzero, chunkStarts, Nat.zero_add, Nat.div_eq_of_lt (Nat.sub_lt hblock Nat.one_pos)]
  rfl

/-- **The best of the shares is the first maximum** of the row, whatever the shares and the
tiles. -/
theorem bestOfShares_spec {tile : ℕ} (hn : 0 < n) (hidx : n ≤ noIndex) (hsplits : 0 < splits)
    (hlanes : splits ≤ block) (htile : 0 < tile) :
    IsFirstMax x 0 n (bestOfShares (shareBest x n splits tile) splits block) := by
  obtain ⟨m, hm⟩ := exists_firstMax x hn
  suffices heq : bestOfShares (shareBest x n splits tile) splits block = m by rwa [heq]
  have hper : 0 < (n + splits - 1) / splits := Nat.div_pos (by omega) hsplits
  -- the share with the first maximum gives it
  have hpart : m / ((n + splits - 1) / splits) < splits := by
    rw [Nat.div_lt_iff_lt_mul hper]
    have hdiv := Nat.div_add_mod' (n + splits - 1) splits
    have hmod := Nat.mod_lt (n + splits - 1) hsplits
    have hlt := hm.lt
    rw [Nat.mul_comm]
    omega
  have hle := Nat.div_mul_le_self m ((n + splits - 1) / splits)
  have hlt := Nat.lt_div_mul_add hper (a := m)
  have hown : shareBest x n splits tile (m / ((n + splits - 1) / splits)) = (x m, m) := by
    obtain ⟨i, hi, hshare⟩ := shareBest_spec (x := x) htile (hle.trans_lt hm.lt) hper
    have hmi : i = m := le_antisymm (hi.le_of_le hle (hm.le (Nat.zero_le i) (hi.lt.trans_le
      (min_le_right _ _)))) (hm.le_of_le (Nat.zero_le i) (hi.le hle (lt_min hlt hm.lt)))
    rw [hshare, hmi]
  -- no share is larger, and those as large are not before it
  have hothers : ∀ p, (shareBest x n splits tile p).1 ≤ x m ∧
      ((shareBest x n splits tile p).1 = x m → m ≤ (shareBest x n splits tile p).2) := by
    intro p
    rcases lt_or_ge (p * ((n + splits - 1) / splits)) n with hne | hempty
    · obtain ⟨i, hi, hshare⟩ := shareBest_spec (x := x) htile hne hper
      have hin := hi.lt.trans_le (min_le_right _ _)
      rw [hshare]
      exact ⟨hm.le (Nat.zero_le i) hin, fun heq => hm.le_of_le (Nat.zero_le i) heq.ge⟩
    · rw [shareBest_empty hempty htile]
      exact ⟨bot_le, fun _ => hm.lt.le⟩
  have hmem := Finset.mem_range.mpr (hpart.trans_le hlanes)
  generalize m / ((n + splits - 1) / splits) = p₀ at *
  generalize shareBest x n splits tile = shares at *
  have hmax : (Finset.range block).fold max ⊥
      (fun o => if o < splits then (shares o).1 else ⊥) = x m := by
    refine (fold_max_eq hmem fun k _ => ?_).trans (by rw [if_pos hpart, hown])
    rw [if_pos hpart, hown]
    split
    next => exact (hothers k).1
    next => exact bot_le
  rw [bestOfShares]
  dsimp only
  rw [hmax]
  have hval : (if (if p₀ < splits then (shares p₀).1 else ⊥) = x m then
      (if p₀ < splits then (shares p₀).2 else noIndex) else noIndex) = m := by
    rw [if_pos hpart, if_pos hpart, hown, if_pos rfl]
  refine (fold_min_eq hmem ?_ fun k _ => ?_).trans hval
  · rw [hval]
    exact hm.lt.le.trans hidx
  · rw [hval]
    by_cases heq : (if k < splits then (shares k).1 else ⊥) = x m
    · rw [if_pos heq]
      rcases lt_or_ge k splits with hk | hk
      · rw [if_pos hk] at heq ⊢
        exact (hothers k).2 heq
      · rw [if_neg (not_lt.mpr hk)]
        exact hm.lt.le.trans hidx
    · rw [if_neg heq]
      exact hm.lt.le.trans hidx

end LuzServing

import LuzServing.RequestWindow

/-!
# What the window layout says

`windowLayout` finds the runs of the slots by scans and scatters what it knows of a run
to its block of history. On a batch that is laid out flat (`FlatRows`) every scan and
scatter yields what its name says, so that the layout can be read off request by request
(`LayoutSpec`, `windowLayout_spec`); nothing after this file unfolds it.
-/

namespace LuzServing

/-! ## Rows in runs of one slot -/

/-- The rows of a batch are laid out flat, a run for each request, and neighbouring
requests have different slots. -/
structure FlatRows (lens slots : ℕ → ℕ) (R : ℕ) (req : ℕ → ℕ) : Prop where
  /-- every request has rows -/
  pos : ∀ r, r < R → 0 < lens r
  /-- distinct requests have distinct slots -/
  inj : ∀ r r', r < R → r' < R → slots r = slots r' → r = r'
  /-- the rows of a request have its slot -/
  req_eq : ∀ r j, r < R → j < lens r → req (segStart lens r + j) = slots r

namespace FlatRows

variable {lens slots : ℕ → ℕ} {R : ℕ} {req : ℕ → ℕ}

/-- The first row of each request's run is marked as one that starts a run. -/
theorem rowStarts_first (h : FlatRows lens slots R req) {r : ℕ} (hr : r < R) :
    rowStarts req (segStart lens r) = true := by
  rw [rowStarts]
  cases r with
  | zero => rfl
  | succ r =>
    have hr' : r < R := by omega
    have hpos := h.pos r hr'
    have hlast := h.req_eq r (lens r - 1) hr' (by omega)
    have hfirst := h.req_eq (r + 1) 0 hr (h.pos _ hr)
    rw [Nat.add_zero] at hfirst
    rw [hfirst, show segStart lens (r + 1) - 1 = segStart lens r + (lens r - 1) by
      rw [segStart_succ]; omega, hlast]
    have hne : slots (r + 1) ≠ slots r := fun heq => absurd (h.inj _ _ hr hr' heq) (by omega)
    simp [hne]

/-- The later rows of a run belong to the same request as the row before, so they start none. -/
theorem rowStarts_later (h : FlatRows lens slots R req) {r j : ℕ} (hr : r < R)
    (hj : j + 1 < lens r) : rowStarts req (segStart lens r + (j + 1)) = false := by
  rw [rowStarts, h.req_eq r (j + 1) hr hj,
    show segStart lens r + (j + 1) - 1 = segStart lens r + j by omega,
    h.req_eq r j hr (by omega)]
  simp

/-- A row is marked as one that starts a run exactly when it is the first row of its request. -/
theorem rowStarts_iff (h : FlatRows lens slots R req) {r j : ℕ} (hr : r < R)
    (hj : j < lens r) : rowStarts req (segStart lens r + j) = true ↔ j = 0 := by
  cases j with
  | zero => simpa using h.rowStarts_first hr
  | succ j => simp [h.rowStarts_later hr hj]

/-- The `group` of a row is the number of the request in the batch that the row belongs to. -/
theorem rowGroup_eq (h : FlatRows lens slots R req) {r j : ℕ} (hr : r < R)
    (hj : j < lens r) : rowGroup req (segStart lens r + j) = r := by
  suffices hsum : scan (· + ·) (fun k => (rowStarts req k).toNat) (segStart lens r + j) = r + 1 by
    rw [rowGroup, hsum, Nat.add_sub_cancel]
  refine seg_induction (P := fun r j =>
    scan (· + ·) (fun k => (rowStarts req k).toNat) (segStart lens r + j) = r + 1)
    h.pos (fun _ => ?_) (fun r j hr hj ih => ?_) (fun r hr ih => ?_) hr hj
  · rfl
  · have hlater := h.rowStarts_later hr hj
    rw [← Nat.add_assoc] at hlater ⊢
    rw [scan, ih, hlater]
    rfl
  · have hpos := h.pos r (by omega)
    rw [Nat.add_zero, show segStart lens (r + 1) = segStart lens r + (lens r - 1) + 1 by
      rw [segStart_succ]; omega, scan, ih,
      show segStart lens r + (lens r - 1) + 1 = segStart lens (r + 1) by
        rw [segStart_succ]; omega, h.rowStarts_first hr]
    rfl

/-- The `group_first` of a row is where the rows of its request begin in the batch. -/
theorem groupFirst_eq (h : FlatRows lens slots R req) {r j : ℕ} (hr : r < R)
    (hj : j < lens r) : groupFirst req (segStart lens r + j) = segStart lens r := by
  refine scan_max_eq ⟨segStart lens r, Nat.le_add_right _ _, if_pos (h.rowStarts_first hr)⟩
    fun k hk => ?_
  split
  next hstart =>
    by_contra hlt
    obtain ⟨d, rfl⟩ := Nat.exists_eq_add_of_lt (not_le.mp hlt)
    rw [Nat.add_assoc, h.rowStarts_iff hr (by omega)] at hstart
    omega
  next => exact Nat.zero_le _

/-- A row of the batch ends its run when it is the last of its request. -/
theorem rowEnds_iff (h : FlatRows lens slots R req) {r j : ℕ} (hr : r < R)
    (hj : j < lens r) :
    rowEnds (segStart lens R) req (segStart lens r + j) = true ↔ j + 1 = lens r := by
  rw [rowEnds, Bool.or_eq_true, beq_iff_eq]
  have hle : segStart lens r + lens r ≤ segStart lens R := segStart_add_le hr
  by_cases hlast : j + 1 = lens r
  · refine ⟨fun _ => hlast, fun _ => ?_⟩
    by_cases hR : r + 1 = R
    · left
      rw [← hR, segStart_succ]
      omega
    · right
      rw [Nat.add_assoc, hlast, ← segStart_succ]
      exact h.rowStarts_first (by omega)
  · refine ⟨fun hend => ?_, fun heq => absurd heq hlast⟩
    rcases hend with hend | hend
    · omega
    · rw [Nat.add_assoc, h.rowStarts_iff hr (by omega)] at hend
      omega

/-- The `group_last` of a row is the last row of the request that it belongs to. -/
theorem groupLast_eq (h : FlatRows lens slots R req) {r j : ℕ} (hr : r < R)
    (hj : j < lens r) :
    groupLast (segStart lens R) req (segStart lens r + j) = segStart lens r + (lens r - 1) := by
  have hlt : segStart lens r + j < segStart lens R := seg_lt hr hj
  have hle : segStart lens r + lens r ≤ segStart lens R := segStart_add_le hr
  have hend := (h.rowEnds_iff hr (j := lens r - 1) (by omega)).mpr (by omega)
  refine scan_min_eq ⟨segStart lens R - 1 - (segStart lens r + (lens r - 1)), by omega, ?_⟩
    fun k hk => ?_
  · rw [show segStart lens R - 1 - (segStart lens R - 1 - (segStart lens r + (lens r - 1))) =
      segStart lens r + (lens r - 1) by omega]
    exact if_pos hend
  · obtain ⟨i, hi⟩ : ∃ i, segStart lens R - 1 - k = segStart lens r + j + i :=
      ⟨segStart lens R - 1 - k - (segStart lens r + j), by omega⟩
    rw [hi]
    split
    next hend' =>
      by_contra hlt'
      rw [Nat.add_assoc, h.rowEnds_iff hr (by omega)] at hend'
      omega
    next => omega

/-- A value that all the rows of a request have is what is scattered to the place of the request. -/
theorem scatterGroups_eq {α : Type*} (h : FlatRows lens slots R req) (zero : α)
    {values : ℕ → α} {r : ℕ} {v : α} (hr : r < R)
    (hv : ∀ j, j < lens r → values (segStart lens r + j) = v) :
    scatterGroups (segStart lens R) req zero values r = v := by
  refine storeAll_eq (fun s hs hsr => ?_)
    ⟨(r, v), List.mem_map.mpr ⟨segStart lens r + 0, ?_, ?_⟩, rfl⟩
  · obtain ⟨i, hi, rfl⟩ := List.mem_map.mp hs
    obtain ⟨r', hr', j, hj, rfl⟩ := exists_seg (List.mem_range.mp hi)
    rw [h.rowGroup_eq hr' hj] at hsr
    rw [← hsr] at hv
    exact hv j hj
  · exact List.mem_range.mpr (seg_lt hr (h.pos r hr))
  · rw [h.rowGroup_eq hr (h.pos r hr), hv 0 (h.pos r hr)]

/-- At the places past the last request nothing is scattered, so they hold zero. -/
theorem scatterGroups_of_le {α : Type*} (h : FlatRows lens slots R req) (zero : α)
    (values : ℕ → α) {g : ℕ} (hg : R ≤ g) :
    scatterGroups (segStart lens R) req zero values g = zero := by
  refine storeAll_map_of_ne fun i hi => ?_
  obtain ⟨r, hr, j, hj, rfl⟩ := exists_seg (List.mem_range.mp hi)
  rw [h.rowGroup_eq hr hj]
  omega

end FlatRows

/-! ## The layout of a batch -/

/-- **What a layout says**, request by request: `first` is the position of a request's
first row, `lowest` the lowest position that its rows read. -/
structure LayoutSpec (lens slots : ℕ → ℕ) (first lowest : ℕ → ℤ) (R window capacity groups : ℕ)
    (L : WindowLayout) : Prop where
  /-- the rows of the batch -/
  numRows : L.numRows = segStart lens R
  /-- a block of history for each group -/
  historyRows : L.historyRows = groups * window
  /-- the history, then the rows -/
  size : L.size = L.historyRows + L.numRows
  /-- a row is its request's -/
  req : ∀ r j, r < R → j < lens r → L.req (segStart lens r + j) = slots r
  /-- and has the next position -/
  pos : ∀ r j, r < R → j < lens r → L.pos (segStart lens r + j) = first r + j
  /-- the rows follow the history -/
  writeLoc : ∀ i, L.writeLoc i = L.historyRows + i
  /-- a look-back goes to the request's block of history or to its rows -/
  indices : ∀ r j, r < R → j < lens r → ∀ t : ℕ,
    L.indices (segStart lens r + j) t =
      if lowest r ≤ first r + j - t then
        if j < t then (r : ℤ) * window + (window + j - t)
        else (L.historyRows : ℤ) + (segStart lens r + j - t)
      else -1
  /-- the number of look-backs that go anywhere -/
  lengths : ∀ r j, r < R → j < lens r →
    L.lengths (segStart lens r + j) =
      (List.range window).countP fun t : ℕ => lowest r ≤ first r + j - t
  /-- the block of history of a request is its -/
  historyReq : ∀ r m, r < R → m < window → L.historyReq (r * window + m) = slots r
  /-- and has the positions before its first -/
  historyPos : ∀ r m, r < R → m < window →
    L.historyPos (r * window + m) = first r - window + m
  /-- a history row goes to the workspace row of its number -/
  historyLoc : ∀ h, L.historyLoc h = h
  /-- what no row may read is not copied -/
  historyValid : ∀ r m, r < R → m < window →
    (L.historyValid (r * window + m) = true ↔ lowest r ≤ first r - window + m)
  /-- nor are the blocks that no request has -/
  historyDead : ∀ g m, R ≤ g → m < window → L.historyValid (g * window + m) = false
  /-- the newest rows are committed -/
  commitMask : ∀ r j, r < R → j < lens r →
    (L.commitMask (segStart lens r + j) = true ↔ lens r - 1 - j < capacity)

/-- The lowest position a row reads: its floor, and no negative one. -/
def lowestPos (floor : Option ℤ) : ℤ := floor.elim 0 (max 0)

theorem lowestPos_le {floor : Option ℤ} {p : ℤ} :
    lowestPos floor ≤ p ↔ 0 ≤ p ∧ ∀ fl ∈ floor, fl ≤ p := by
  cases floor with
  | none => simp [lowestPos]
  | some fl => simp [lowestPos]

section

variable {lens slots : ℕ → ℕ} {first lowest : ℕ → ℤ} {R : ℕ} {req : ℕ → ℕ} {pos : ℕ → ℤ}
  {floor : Option (ℕ → ℤ)} {window : ℕ}

/-- The `first_pos` of a row is the position of the first row of its request. -/
theorem firstPos_eq (h : FlatRows lens slots R req)
    (hpos : ∀ r j, r < R → j < lens r → pos (segStart lens r + j) = first r + j) {r j : ℕ}
    (hr : r < R) (hj : j < lens r) : firstPos req pos (segStart lens r + j) = first r := by
  rw [firstPos, hpos r j hr hj, h.groupFirst_eq hr hj]
  push_cast
  ring

/-- A look-back of a row is `valid` exactly when it does not go below the lowest position of its
request. -/
theorem rowValid_iff (hpos : ∀ r j, r < R → j < lens r → pos (segStart lens r + j) = first r + j)
    (hfloor : ∀ r j, r < R → j < lens r →
      lowestPos (floor.map fun fl => fl (segStart lens r + j)) = lowest r) {r j : ℕ} (hr : r < R)
    (hj : j < lens r) (t : ℕ) :
    rowValid pos floor (segStart lens r + j) t = true ↔ lowest r ≤ first r + j - t := by
  rw [← hfloor r j hr hj, lowestPos_le, rowValid, hpos r j hr hj]
  cases floor with
  | none => simp
  | some fl => simp

/-- Row `m` of the window's block `g` lies in block `g` when the blocks are laid one after the
other. -/
theorem block_div {g m : ℕ} (hm : m < window) : (g * window + m) / window = g := by
  rw [Nat.mul_comm, Nat.mul_add_div (Nat.zero_lt_of_lt hm), Nat.div_eq_of_lt hm, Nat.add_zero]

/-- Row `m` of the window's block `g` is the `m`-th row there when the blocks are laid one after the
other. -/
theorem block_mod {g m : ℕ} (hm : m < window) : (g * window + m) % window = m := by
  rw [Nat.mul_comm, Nat.mul_add_mod, Nat.mod_eq_of_lt hm]

/-- The `history_pos` of a block counts up to the position before the request's first one. -/
theorem historyPosition_eq (h : FlatRows lens slots R req)
    (hpos : ∀ r j, r < R → j < lens r → pos (segStart lens r + j) = first r + j) {r m : ℕ}
    (hr : r < R) (hm : m < window) :
    historyPosition (segStart lens R) req pos window (r * window + m) = first r - window + m := by
  rw [historyPosition, block_div hm, block_mod hm,
    h.scatterGroups_eq 0 hr fun j hj => firstPos_eq h hpos hr hj]

/-- A history row is `history_valid` exactly when its position is not below the request's lowest
one. -/
theorem historyIsValid_iff (h : FlatRows lens slots R req)
    (hpos : ∀ r j, r < R → j < lens r → pos (segStart lens r + j) = first r + j)
    (hfloor : ∀ r j, r < R → j < lens r →
      lowestPos (floor.map fun fl => fl (segStart lens r + j)) = lowest r)
    (hconst : ∀ fl ∈ floor, ∀ r j, r < R → j < lens r →
      fl (segStart lens r + j) = fl (segStart lens r)) {r m : ℕ} (hr : r < R) (hm : m < window) :
    historyIsValid (segStart lens R) req pos window floor (r * window + m) = true ↔
      lowest r ≤ first r - window + m := by
  rw [historyIsValid, historyPosition_eq h hpos hr hm, block_div hm,
    h.scatterGroups_eq false hr fun _ _ => rfl, ← hfloor r 0 hr (h.pos r hr), lowestPos_le]
  cases floor with
  | none => simp
  | some fl =>
    rw [Option.all_some, h.scatterGroups_eq 0 hr fun j hj => hconst fl rfl r j hr hj]
    simp

/-- For rows that are laid out flat `windowLayout` returns a layout, and it says what a layout
should. -/
theorem windowLayout_spec {capacity : ℕ} {numGroups : Option ℕ} (hR : 0 < R)
    (h : FlatRows lens slots R req)
    (hpos : ∀ r j, r < R → j < lens r → pos (segStart lens r + j) = first r + j)
    (hfloor : ∀ r j, r < R → j < lens r →
      lowestPos (floor.map fun fl => fl (segStart lens r + j)) = lowest r)
    (hconst : ∀ fl ∈ floor, ∀ r j, r < R → j < lens r →
      fl (segStart lens r + j) = fl (segStart lens r)) :
    ∃ L, windowLayout (segStart lens R) req pos window capacity floor numGroups = .ok L ∧
      LayoutSpec lens slots first lowest R window capacity
        (numGroups.getD (segStart lens R)) L := by
  have hn : segStart lens R ≠ 0 := by
    have := le_segStart h.pos
    omega
  refine ⟨_, if_neg hn, ?_⟩
  constructor
  case numRows => rfl
  case historyRows => rfl
  case size => rfl
  case req => exact h.req_eq
  case pos => exact hpos
  case writeLoc => exact fun _ => rfl
  case indices =>
    intro r j hr hj t
    refine if_congr (rowValid_iff hpos hfloor hr hj t) (if_congr ?_ ?_ ?_) rfl
    · dsimp only
      rw [hpos r j hr hj, firstPos_eq h hpos hr hj]
      omega
    · dsimp only
      rw [hpos r j hr hj, firstPos_eq h hpos hr hj, h.rowGroup_eq hr hj]
      ring
    · dsimp only
      rw [hpos r j hr hj, firstPos_eq h hpos hr hj, h.groupFirst_eq hr hj]
      ring
  case lengths =>
    intro r j hr hj
    refine List.countP_congr fun t _ => ?_
    rw [rowValid_iff hpos hfloor hr hj t, decide_eq_true_iff]
  case historyReq =>
    intro r m hr hm
    dsimp only
    rw [block_div hm]
    exact h.scatterGroups_eq 0 hr fun j hj => h.req_eq r j hr hj
  case historyPos => exact fun r m hr hm => historyPosition_eq h hpos hr hm
  case historyLoc => exact fun _ => rfl
  case historyValid => exact fun r m hr hm => historyIsValid_iff h hpos hfloor hconst hr hm
  case historyDead =>
    intro g m hg hm
    dsimp only
    rw [historyIsValid, block_div hm, h.scatterGroups_of_le false _ hg, Bool.and_false,
      Bool.false_and]
  case commitMask =>
    intro r j hr hj
    dsimp only
    rw [h.groupLast_eq hr hj, decide_eq_true_iff]
    omega

end

end LuzServing

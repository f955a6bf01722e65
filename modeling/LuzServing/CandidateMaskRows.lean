import LuzServing.CandidateMasks

/-!
# Candidate masks, request by request

Whatever the chunks in which the indexers go through the rows, the source leaves for a
request the mask rows of its last rows (`reqMask`), and a consumer whose request finds that
mask at its place filters every row by the mask row of the same request and position
(`denseConsume_right`, `torchConsume_right`). A consumer whose request finds a mask that
begins with another row is wrong in its first row already (`denseConsume_wrong`,
`torchConsume_wrong`).

Both need to know only how the rows lie (`IndexView.Laid`): request after request, of each
request its last ones.
-/

namespace LuzServing

/-! ## Chunks -/

/-- If none of the parts fails, collecting them yields what the parts yield, one after the other. -/
theorem collect_ok {α β : Type*} {f : β → Except String (List α)} {g : β → List α} {l : List β}
    (h : ∀ x ∈ l, f x = .ok (g x)) : collect (l.map f) = .ok (l.flatMap g) := by
  induction l with
  | nil => rfl
  | cons x l ih =>
    rw [List.map_cons, collect, h x (List.mem_cons_self ..),
      ih fun y hy => h y (List.mem_cons_of_mem _ hy)]
    rfl

/-- When the whole returns each part has, and what it yields is in the whole. -/
theorem collect_mem {α : Type*} {l : List (Except String (List α))} {out : List α}
    (h : collect l = .ok out) {x : Except String (List α)} (hx : x ∈ l) :
    ∃ part, x = .ok part ∧ ∀ a ∈ part, a ∈ out := by
  induction l generalizing out with
  | nil => cases hx
  | cons y l ih =>
    cases y with
    | error e => simp [collect, bind, Except.bind] at h
    | ok first =>
      cases hl : collect l with
      | error e => simp [collect, hl, bind, Except.bind] at h
      | ok rest =>
        simp only [collect, hl, bind, Except.bind, pure, Except.pure, Except.ok.injEq] at h
        subst h
        rcases List.mem_cons.mp hx with rfl | hx
        · exact ⟨first, rfl, fun a ha => List.mem_append_left _ ha⟩
        · obtain ⟨part, rfl, hpart⟩ := ih hl hx
          exact ⟨part, rfl, fun a ha => List.mem_append_right _ (hpart a ha)⟩

/-- A slice of a list that is given by a function is given by the function at shifted places. -/
theorem slice_map_range {α : Type*} (f : ℕ → α) (n lo hi : ℕ) :
    slice ((List.range n).map f) lo hi = (List.range (min hi n - lo)).map fun k => f (lo + k) := by
  rw [slice, ← List.map_take, ← List.map_drop, List.take_range, List.range_eq_range',
    List.drop_range', List.range'_eq_map_range, List.map_map]
  refine List.map_congr_left fun k _ => ?_
  simp

/-! ## Masks of requests -/

section

variable {cfg : IndexerConfig} {b : ExtendBatch} {v : IndexView}

/-- The mask of a request with a row for each of its last `n` rows. -/
def reqMask (cfg : IndexerConfig) (b : ExtendBatch) (r n : ℕ) : CandidateMask :=
  ⟨(List.range n).map fun j => some (r, b.seqLens r - n + j), lcPerReq cfg b r⟩

/-- The rows lie request after request, of each request its last ones. -/
structure IndexView.Laid (b : ExtendBatch) (v : IndexView) : Prop where
  /-- a request has no more rows than positions -/
  qLens_le : ∀ r, r < b.bs → v.qLens r ≤ b.seqLens r
  /-- the number of rows -/
  numTokens : v.numTokens = segStart v.qLens b.bs
  /-- the row at an offset of a request -/
  id : ∀ r j, r < b.bs → j < v.qLens r →
    v.id (segStart v.qLens r + j) = (r, b.seqLens r - v.qLens r + j)

/-- **A consumer is right**: the rows that it filters are filtered by the mask row of their
own request and position, with all the columns, and every row that sees a compressed
position is filtered. -/
structure IsRight (cfg : IndexerConfig) (b : ExtendBatch) (v : IndexView)
    (filters : List RowFilter) : Prop where
  /-- by its own mask row -/
  own : ∀ f ∈ filters, f.maskRow = some (v.id f.row) ∧ f.cols = lcPerReq cfg b (v.id f.row).1
  /-- every row -/
  every : ∀ i, i < v.numTokens → 0 < lcPerReq cfg b (v.id i).1 → ∃ f ∈ filters, f.row = i

/-- A chunk of a request's rows that is filled with the request's own mask is filtered row by row as
it should be. -/
theorem maskedFill_right (hv : v.Laid b) {r : ℕ} (hr : r < b.bs) {lo hi n : ℕ}
    (hn : min hi (v.qLens r) = n) (hlt : lo < n) :
    maskedFill (reqMask cfg b r (v.qLens r)) lo hi
        ((List.range (n - lo)).map (segStart v.qLens r + lo + ·)) (lcPerReq cfg b r) =
      .ok ((List.range (n - lo)).map fun k =>
        ⟨segStart v.qLens r + lo + k, some (v.id (segStart v.qLens r + lo + k)),
          lcPerReq cfg b r⟩) := by
  have hslice : slice (reqMask cfg b r (v.qLens r)).rows lo hi =
      (List.range (n - lo)).map fun k => some (r, b.seqLens r - v.qLens r + (lo + k)) := by
    rw [← hn]
    exact slice_map_range _ _ _ _
  rw [maskedFill, hslice]
  simp only [List.length_map, List.length_range]
  rw [if_pos ⟨.inl trivial, .inl rfl⟩]
  refine congrArg Except.ok (List.map_congr_left fun k hk => ?_)
  have hk := List.mem_range.mp hk
  -- the slice of one row is broadcast to the one row that there is
  have hidx : (if n - lo = 1 then 0 else k) = k := by
    split <;> omega
  rw [hidx, getD_map_range _ hk, getD_map_range _ hk, Nat.add_assoc,
    hv.id r (lo + k) hr (by omega)]
  rfl

/-- A first chunk that finds a mask with another first row is filtered by that row, if it
is filtered at all. -/
theorem maskedFill_first {mask : CandidateMask} {hi : ℕ} {tok : List ℕ} {lc : ℕ}
    {fs : List RowFilter} (hrun : maskedFill mask 0 hi tok lc = .ok fs) (htok : tok ≠ [])
    (hhi : 0 < hi) : ∃ f ∈ fs, f.row = tok.getD 0 0 ∧ f.maskRow = mask.rows.getD 0 none := by
  rw [maskedFill] at hrun
  split at hrun
  next hshape =>
    obtain rfl := Except.ok.inj hrun
    have hpos := List.length_pos_of_ne_nil htok
    refine ⟨_, List.mem_map.mpr ⟨0, List.mem_range.mpr hpos, rfl⟩, rfl, ?_⟩
    simp only [ite_self, slice, List.drop_zero]
    cases mask.rows with
    | nil => simp
    | cons x xs =>
      obtain ⟨k, rfl⟩ := Nat.exists_eq_succ_of_ne_zero hhi.ne'
      simp
  next => cases hrun

/-! ## The chunks of a request -/

/-- A request's rows, chunk by chunk, filtered by their own mask rows. -/
def reqFilters (cfg : IndexerConfig) (b : ExtendBatch) (v : IndexView) (step r : ℕ) :
    List RowFilter :=
  (chunkStarts (v.qLens r) step).flatMap fun c0 =>
    (List.range (min (c0 + step) (v.qLens r) - c0)).map fun k =>
      ⟨segStart v.qLens r + c0 + k, some (v.id (segStart v.qLens r + c0 + k)), lcPerReq cfg b r⟩

/-- The filters of a request are of its own rows, each with its own mask row and the source's
columns. -/
theorem mem_reqFilters (hv : v.Laid b) {step r : ℕ} (hr : r < b.bs) {f : RowFilter}
    (hf : f ∈ reqFilters cfg b v step r) :
    f.maskRow = some (v.id f.row) ∧ f.cols = lcPerReq cfg b (v.id f.row).1 := by
  obtain ⟨c0, -, hf⟩ := List.mem_flatMap.mp hf
  obtain ⟨k, hk, rfl⟩ := List.mem_map.mp hf
  have hk := List.mem_range.mp hk
  refine ⟨rfl, ?_⟩
  dsimp only
  rw [Nat.add_assoc, hv.id r (c0 + k) hr (by omega)]

/-- Every row of a request has a filter among those of the request, whatever the chunks are. -/
theorem exists_reqFilters (cfg : IndexerConfig) (b : ExtendBatch) {step r j : ℕ}
    (hstep : 0 < step) (hj : j < v.qLens r) :
    ∃ f ∈ reqFilters cfg b v step r, f.row = segStart v.qLens r + j := by
  obtain ⟨c0, hc0, hle, hlt⟩ := exists_chunk hstep hj
  refine ⟨_, List.mem_flatMap.mpr ⟨c0, hc0, List.mem_map.mpr ⟨j - c0, ?_, rfl⟩⟩, ?_⟩
  · exact List.mem_range.mpr (by omega)
  · dsimp only
    omega

/-- **A consumer is right when every request finds its mask**: what it yields are the rows
of requests, filtered by their own, and no request is passed over. -/
theorem isRight_of_reqFilters {β : Type*} (hv : v.Laid b) {l : List β} {g : β → List RowFilter}
    (hpart : ∀ x ∈ l, g x = [] ∨ ∃ r step, r < b.bs ∧ g x = reqFilters cfg b v step r)
    (hall : ∀ r, r < b.bs → 0 < lcPerReq cfg b r → 0 < v.qLens r →
      ∃ x ∈ l, ∃ step, 0 < step ∧ g x = reqFilters cfg b v step r) :
    IsRight cfg b v (l.flatMap g) := by
  constructor
  · intro f hf
    obtain ⟨x, hx, hf⟩ := List.mem_flatMap.mp hf
    rcases hpart x hx with hnil | ⟨r, step, hr, heq⟩
    · rw [hnil] at hf
      cases hf
    · exact mem_reqFilters hv hr (heq ▸ hf)
  · intro i hi hlc
    rw [hv.numTokens] at hi
    obtain ⟨r, hr, j, hj, rfl⟩ := exists_seg hi
    rw [hv.id r j hr hj] at hlc
    obtain ⟨x, hx, step, hstep, heq⟩ := hall r hr hlc (Nat.zero_lt_of_lt hj)
    obtain ⟨f, hf, hrow⟩ := exists_reqFilters cfg b hstep hj
    exact ⟨f, List.mem_flatMap.mpr ⟨x, hx, heq ▸ hf⟩, hrow⟩

/-- **A consumer is wrong when a request finds another mask**: one that begins with the mask
row of another query row. -/
theorem not_isRight_of_first {r : ℕ} (hv : v.Laid b) (hr : r < b.bs) (hq : 0 < v.qLens r)
    {mask : CandidateMask} (hmask : mask.rows.getD 0 none ≠ some (r, b.seqLens r - v.qLens r))
    {filters part : List RowFilter} {hi : ℕ} {tok : List ℕ} {lc : ℕ}
    (hrun : maskedFill mask 0 hi tok lc = .ok part) (htok : tok ≠ []) (hhi : 0 < hi)
    (hfirst : tok.getD 0 0 = segStart v.qLens r) (hpart : ∀ f ∈ part, f ∈ filters) :
    ¬IsRight cfg b v filters := by
  intro hright
  obtain ⟨f, hf, hrow, hmaskRow⟩ := maskedFill_first hrun htok hhi
  have hown := (hright.own f (hpart f hf)).1
  have hid := hv.id r 0 hr hq
  rw [Nat.add_zero, Nat.add_zero] at hid
  rw [hrow, hfirst, hid, hmaskRow] at hown
  exact hmask hown

/-! ## The dense indexer -/

theorem denseStep_pos (cfg : IndexerConfig) (lc : ℕ) : 0 < denseStep cfg lc :=
  lt_of_lt_of_le Nat.one_pos (le_max_left _ _)

/-- With a request that sees a compressed position and has rows there is something to do. -/
theorem denseNothing_eq_false (hv : v.Laid b) {r : ℕ} (hr : r < b.bs)
    (hlc : 0 < lcPerReq cfg b r) (hq : 0 < v.qLens r) : denseNothing cfg b v = false := by
  rw [denseNothing, Bool.or_eq_false_iff]
  constructor
  · refine Bool.eq_false_iff.mpr fun hall => ?_
    have := List.all_eq_true.mp hall r (List.mem_range.mpr hr)
    rw [beq_iff_eq] at this
    omega
  · have hlt : segStart v.qLens r + 0 < segStart v.qLens b.bs := seg_lt hr hq
    rw [beq_eq_false_iff_ne, hv.numTokens]
    omega

/-- The chunks of the source fill the mask of a request. -/
theorem densePublishReq_eq (hv : v.Laid b) {r pubRows : ℕ} (hr : r < b.bs)
    (hpub : pubRows ≤ v.qLens r) :
    densePublishReq cfg v (segStart v.qLens r) (v.qLens r) (lcPerReq cfg b r) pubRows =
      reqMask cfg b r pubRows := by
  have hle := hv.qLens_le r hr
  rw [densePublishReq, reqMask]
  dsimp only
  congr 1
  refine List.map_congr_left fun i hi => ?_
  have hi := List.mem_range.mp hi
  have hrow : v.id (segStart v.qLens r + (v.qLens r - pubRows + i)) =
      (r, b.seqLens r - pubRows + i) := by
    rw [hv.id r _ hr (by omega)]
    exact Prod.ext rfl (by dsimp only; omega)
  have hfill := storeAll_lastRows (fun j => some (v.id (segStart v.qLens r + j))) (fun _ => none)
    (denseStep_pos cfg (lcPerReq cfg b r)) hpub hi
  simp only [← Nat.add_assoc] at hfill hrow
  rw [hfill, hrow]

/-- The rows of a request that the dense source publishes. -/
def pubRowsOf (b : ExtendBatch) (v : IndexView) (tail : Option LateLayerTail) (r : ℕ) : ℕ :=
  (publishRowsPerReq b tail).elim (v.qLens r) fun rows => min (rows r) (v.qLens r)

/-- **The dense source** leaves for each request the mask of its last rows. -/
theorem densePublish_get (hv : v.Laid b) (tail : Option LateLayerTail) {r : ℕ} (hr : r < b.bs)
    (hlc : 0 < lcPerReq cfg b r) (hq : 0 < v.qLens r) :
    (densePublish cfg b v tail)[r]? = some (reqMask cfg b r (pubRowsOf b v tail r)) := by
  rw [densePublish, denseNothing_eq_false hv hr hlc hq, if_neg (by decide), List.getElem?_map,
    List.getElem?_range hr, Option.map_some]
  dsimp only
  rw [if_neg (by omega)]
  refine congrArg some (densePublishReq_eq hv hr ?_)
  cases publishRowsPerReq b tail with
  | none => exact le_rfl
  | some rows => exact min_le_right _ _

/-- **The dense consumer is right** when every request finds its mask. -/
theorem denseConsume_right (hv : v.Laid b) {masks : List CandidateMask}
    (hmasks : ∀ r, r < b.bs → 0 < lcPerReq cfg b r → 0 < v.qLens r →
      masks[r]? = some (reqMask cfg b r (v.qLens r))) :
    ∃ filters, denseConsume cfg b v masks = .ok filters ∧ IsRight cfg b v filters := by
  rw [denseConsume]
  by_cases hnothing : denseNothing cfg b v = true
  · refine ⟨[], if_pos hnothing, by simp, fun i hi hlc => ?_⟩
    rw [hv.numTokens] at hi
    obtain ⟨r, hr, j, hj, rfl⟩ := exists_seg hi
    rw [hv.id r j hr hj] at hlc
    rw [denseNothing_eq_false hv hr hlc (Nat.zero_lt_of_lt hj)] at hnothing
    exact absurd hnothing (by decide)
  · rw [if_neg hnothing]
    refine ⟨_, collect_ok (g := fun r => if lcPerReq cfg b r = 0 ∨ v.qLens r = 0 then []
      else reqFilters cfg b v (denseStep cfg (lcPerReq cfg b r)) r) fun r hr => ?_,
      isRight_of_reqFilters hv (fun r hr => ?_) fun r hr hlc hq =>
        ⟨r, List.mem_range.mpr hr, _, denseStep_pos _ _, if_neg (by omega)⟩⟩
    · have hr := List.mem_range.mp hr
      dsimp only
      split
      next => rfl
      next hsome =>
        rw [hmasks r hr (by omega) (by omega)]
        refine collect_ok fun c0 hc0 => maskedFill_right hv hr (by omega) ?_
        have := mem_chunkStarts (denseStep_pos _ _) hc0
        have := denseStep_pos cfg (lcPerReq cfg b r)
        exact lt_min (by omega) (by omega)
    · split
      next => exact .inl rfl
      next => exact .inr ⟨r, _, List.mem_range.mp hr, rfl⟩

/-- **The dense consumer is wrong** when a request finds a mask with another first row. -/
theorem denseConsume_wrong (hv : v.Laid b) {masks : List CandidateMask} {r : ℕ} (hr : r < b.bs)
    (hlc : 0 < lcPerReq cfg b r) (hq : 0 < v.qLens r) {mask : CandidateMask}
    (hmask : masks[r]? = some mask)
    (hfirst : mask.rows.getD 0 none ≠ some (r, b.seqLens r - v.qLens r)) :
    ¬∃ filters, denseConsume cfg b v masks = .ok filters ∧ IsRight cfg b v filters := by
  rintro ⟨filters, hrun, hright⟩
  rw [denseConsume, denseNothing_eq_false hv hr hlc hq, if_neg (by decide)] at hrun
  obtain ⟨part, hpart, hsub⟩ := collect_mem hrun
    (List.mem_map.mpr ⟨r, List.mem_range.mpr hr, rfl⟩)
  dsimp only at hpart
  rw [if_neg (by omega), hmask] at hpart
  have hstep := denseStep_pos cfg (lcPerReq cfg b r)
  obtain ⟨part₀, hpart₀, hsub₀⟩ := collect_mem hpart
    (List.mem_map.mpr ⟨0, zero_mem_chunkStarts hstep hq, rfl⟩)
  have hpos : 0 < min (0 + denseStep cfg (lcPerReq cfg b r)) (v.qLens r) :=
    lt_min (by omega) hq
  refine not_isRight_of_first hv hr hq hfirst hpart₀ ?_ hpos ?_
    (fun f hf => hsub f (hsub₀ f hf)) hright
  · exact List.ne_nil_of_length_pos (by simpa using ⟨hstep, hq⟩)
  · rw [List.getD_eq_getElem _ _ (by simpa using ⟨hstep, hq⟩)]
    simp

/-! ## The torch indexer -/

theorem torchStep_pos (cfg : IndexerConfig) (lc : ℕ) : 0 < torchStep cfg lc :=
  lt_of_lt_of_le Nat.one_pos (le_max_left _ _)

/-- The requests that have rows. -/
def reqsOf (b : ExtendBatch) (v : IndexView) : List ℕ :=
  (List.range b.bs).filter fun r => decide (0 < v.qLens r)

/-- A list that does not have the last element goes on with a new one. -/
theorem destutter'_of_notMem {a : ℕ} {l : List ℕ} (h : a ∉ l) :
    l.destutter' (· ≠ ·) a = a :: l.destutter (· ≠ ·) := by
  cases l with
  | nil => rfl
  | cons x l =>
    have hne : a ≠ x := fun heq => h (heq ▸ List.mem_cons_self ..)
    rw [List.destutter'_cons_pos _ hne]
    rfl

/-- Runs of distinct elements, from which repetitions are taken out, leave the elements whose runs
are not empty. -/
theorem destutter_runs (f n : ℕ → ℕ) {l : List ℕ} (h : (l.map f).Nodup) :
    (l.flatMap fun r => List.replicate (n r) (f r)).destutter (· ≠ ·) =
      (l.filter fun r => decide (0 < n r)).map f := by
  induction l with
  | nil => rfl
  | cons r l ih =>
    rw [List.map_cons, List.nodup_cons] at h
    have hnot : f r ∉ l.flatMap fun r => List.replicate (n r) (f r) := by
      intro hmem
      obtain ⟨r', hr', hmem⟩ := List.mem_flatMap.mp hmem
      exact h.1 (List.mem_map.mpr ⟨r', hr', (List.eq_of_mem_replicate hmem).symm⟩)
    have hrun : ∀ k, (List.replicate k (f r) ++
        l.flatMap fun r => List.replicate (n r) (f r)).destutter' (· ≠ ·) (f r) =
        f r :: (l.filter fun r => decide (0 < n r)).map f := by
      intro k
      induction k with
      | zero => rw [List.replicate_zero, List.nil_append, destutter'_of_notMem hnot, ih h.2]
      | succ k ihk =>
        rw [List.replicate_succ, List.cons_append, List.destutter'_cons_neg _ (by simp), ihk]
    rw [List.flatMap_cons, List.filter_cons]
    cases hn : n r with
    | zero => simpa using ih h.2
    | succ k =>
      rw [List.replicate_succ, List.cons_append, List.destutter_cons', hrun k]
      simp

variable (hv : v.Laid b)
  (hinj : ∀ r r', r < b.bs → r' < b.bs → b.reqs r = b.reqs r' → r = r')

include hv hinj

/-- The ids that `unique_consecutive` finds are those of the requests that have rows, in order. -/
theorem torchReqs_eq : torchReqs b v = (reqsOf b v).map b.reqs := by
  rw [torchReqs, hv.numTokens, range_segStart, List.map_flatMap]
  have hruns : ((List.range b.bs).flatMap fun r =>
      ((List.range (v.qLens r)).map (segStart v.qLens r + ·)).map fun i => b.reqs (v.id i).1) =
      (List.range b.bs).flatMap fun r => List.replicate (v.qLens r) (b.reqs r) := by
    refine List.flatMap_congr fun r hr => List.eq_replicate_iff.mpr ⟨by simp, fun x hx => ?_⟩
    obtain ⟨i, hi, rfl⟩ := List.mem_map.mp hx
    obtain ⟨j, hj, rfl⟩ := List.mem_map.mp hi
    rw [hv.id r j (List.mem_range.mp hr) (List.mem_range.mp hj)]
  rw [hruns, destutter_runs]
  · rfl
  · refine List.Nodup.map_on (fun r hr r' hr' heq => ?_) List.nodup_range
    exact hinj r r' (List.mem_range.mp hr) (List.mem_range.mp hr') heq

/-- The rows that `tok` has for a request's id are the request's own rows, in order. -/
theorem torchTok_eq {r : ℕ} (hr : r < b.bs) :
    torchTok b v (b.reqs r) = (List.range (v.qLens r)).map (segStart v.qLens r + ·) := by
  rw [torchTok, hv.numTokens, range_segStart, List.filter_flatMap,
    flatMap_range_single hr fun r' hr' hne => ?_]
  · refine List.filter_eq_self.mpr fun i hi => ?_
    obtain ⟨j, hj, rfl⟩ := List.mem_map.mp hi
    rw [hv.id r j hr (List.mem_range.mp hj)]
    simp
  · refine List.filter_eq_nil_iff.mpr fun i hi heq => hne ?_
    obtain ⟨j, hj, rfl⟩ := List.mem_map.mp hi
    rw [hv.id r' j hr' (List.mem_range.mp hj), decide_eq_true_eq] at heq
    exact hinj r' r hr' hr heq

/-- The largest of a request's lengths is how many positions its newest token sees. -/
theorem torchLc_eq {r : ℕ} (hr : r < b.bs) (hq : 0 < v.qLens r) :
    torchLc cfg v (torchTok b v (b.reqs r)) = lcPerReq cfg b r := by
  have hle := hv.qLens_le r hr
  have hlens : (torchTok b v (b.reqs r)).map (fun i => ((v.id i).2 + 1) / cfg.ratio) =
      (List.range (v.qLens r)).map fun j => (b.seqLens r - v.qLens r + j + 1) / cfg.ratio := by
    rw [torchTok_eq hv hinj hr, List.map_map]
    refine List.map_congr_left fun j hj => ?_
    rw [Function.comp_apply, hv.id r j hr (List.mem_range.mp hj)]
  rw [torchLc, hlens, lcPerReq]
  refine le_antisymm (List.max_le_of_forall_le _ _ fun x hx => ?_) ?_
  · obtain ⟨j, hj, rfl⟩ := List.mem_map.mp hx
    have hj := List.mem_range.mp hj
    exact Nat.div_le_div_right (by omega)
  · refine List.le_max_of_le (x := b.seqLens r / cfg.ratio) ?_ le_rfl
    refine List.mem_map.mpr ⟨v.qLens r - 1, List.mem_range.mpr (by omega), ?_⟩
    congr 1
    omega

/-- **The torch source** leaves the masks of the requests that have rows. -/
theorem torchPublish_eq : torchPublish cfg b v =
    (reqsOf b v).map fun r =>
      if lcPerReq cfg b r = 0 then emptyMask else reqMask cfg b r (v.qLens r) := by
  rw [torchPublish, torchReqs_eq hv hinj, List.map_map]
  refine List.map_congr_left fun r hr => ?_
  obtain ⟨hr, hq⟩ := List.mem_filter.mp hr
  have hr := List.mem_range.mp hr
  rw [decide_eq_true_eq] at hq
  dsimp only [Function.comp_apply]
  rw [torchLc_eq hv hinj hr hq]
  refine if_congr Iff.rfl rfl ?_
  rw [reqMask, torchTok_eq hv hinj hr, List.length_map, List.length_range,
    ← flatMap_chunks (fun j => some (r, b.seqLens r - v.qLens r + j))
      (torchStep_pos cfg (lcPerReq cfg b r))]
  congr 1
  refine List.flatMap_congr fun c _ => ?_
  rw [slice_map_range, List.map_map]
  refine List.map_congr_left fun k hk => ?_
  have hk := List.mem_range.mp hk
  rw [Function.comp_apply, hv.id r (c + k) hr (by omega)]

/-- The id at a place is that of the request that is at this place among those with rows. -/
theorem torchReqs_get {k r : ℕ} (hk : (reqsOf b v)[k]? = some r) :
    r < b.bs ∧ 0 < v.qLens r ∧ (torchReqs b v).getD k 0 = b.reqs r := by
  obtain ⟨hlt, hget⟩ := List.getElem?_eq_some_iff.mp hk
  obtain ⟨hr, hq⟩ := List.mem_filter.mp (hget ▸ List.getElem_mem hlt)
  refine ⟨List.mem_range.mp hr, by simpa using hq, ?_⟩
  rw [torchReqs_eq hv hinj, List.getD_eq_getElem _ _ (by simpa using hlt), List.getElem_map, hget]

/-- **The torch consumer is right** when every request that has rows finds its mask, by its
place among them. -/
theorem torchConsume_right {masks : List CandidateMask}
    (hmasks : ∀ k r : ℕ, (reqsOf b v)[k]? = some r → 0 < lcPerReq cfg b r →
      masks[k]? = some (reqMask cfg b r (v.qLens r))) :
    ∃ filters, torchConsume cfg b v masks = .ok filters ∧ IsRight cfg b v filters := by
  have hlen : (torchReqs b v).length = (reqsOf b v).length := by
    rw [torchReqs_eq hv hinj, List.length_map]
  have hget : ∀ k, k < (torchReqs b v).length → ∃ r, (reqsOf b v)[k]? = some r := fun k hk =>
    ⟨_, List.getElem?_eq_getElem (hlen ▸ hk)⟩
  refine ⟨_, collect_ok (g := fun k =>
    let r := (reqsOf b v).getD k 0
    if lcPerReq cfg b r = 0 then []
    else reqFilters cfg b v (torchStep cfg (lcPerReq cfg b r)) r) fun k hk => ?_,
    isRight_of_reqFilters hv (fun k hk => ?_) fun r hr hlc hq => ?_⟩
  · obtain ⟨r, hk⟩ := hget k (List.mem_range.mp hk)
    obtain ⟨hr, hq, hreq⟩ := torchReqs_get hv hinj hk
    have hgetD : (reqsOf b v).getD k 0 = r := by rw [List.getD_eq_getElem?_getD, hk]; rfl
    dsimp only
    rw [hreq, torchLc_eq hv hinj hr hq, hgetD]
    split
    next => rfl
    next hlc =>
      rw [hmasks k r hk (by omega)]
      have hstep := torchStep_pos cfg (lcPerReq cfg b r)
      rw [torchTok_eq hv hinj hr, List.length_map, List.length_range]
      refine collect_ok fun c hc => ?_
      have hc := mem_chunkStarts hstep hc
      rw [slice_map_range]
      have hrows : ((List.range (min (c + torchStep cfg (lcPerReq cfg b r)) (v.qLens r) - c)).map
          fun k => segStart v.qLens r + (c + k)) =
          (List.range (min (c + torchStep cfg (lcPerReq cfg b r)) (v.qLens r) - c)).map
            (segStart v.qLens r + c + ·) :=
        List.map_congr_left fun k _ => (Nat.add_assoc ..).symm
      rw [hrows]
      exact maskedFill_right hv hr rfl (lt_min (by omega) hc)
  · obtain ⟨r, hk⟩ := hget k (List.mem_range.mp hk)
    obtain ⟨hr, -, -⟩ := torchReqs_get hv hinj hk
    have hgetD : (reqsOf b v).getD k 0 = r := by rw [List.getD_eq_getElem?_getD, hk]; rfl
    dsimp only
    rw [hgetD]
    split
    next => exact .inl rfl
    next => exact .inr ⟨r, _, hr, rfl⟩
  · have hmem : r ∈ reqsOf b v :=
      List.mem_filter.mpr ⟨List.mem_range.mpr hr, by simpa using hq⟩
    obtain ⟨k, hk, hget⟩ := List.getElem_of_mem hmem
    refine ⟨k, List.mem_range.mpr (hlen ▸ hk), _, torchStep_pos cfg (lcPerReq cfg b r), ?_⟩
    dsimp only
    rw [List.getD_eq_getElem _ _ hk, hget, if_neg (by omega)]

/-- **The torch consumer is wrong** when a request finds, at its place among those that have
rows, a mask with another first row. -/
theorem torchConsume_wrong {masks : List CandidateMask} {k r : ℕ}
    (hk : (reqsOf b v)[k]? = some r) (hlc : 0 < lcPerReq cfg b r) {mask : CandidateMask}
    (hmask : masks[k]? = some mask)
    (hfirst : mask.rows.getD 0 none ≠ some (r, b.seqLens r - v.qLens r)) :
    ¬∃ filters, torchConsume cfg b v masks = .ok filters ∧ IsRight cfg b v filters := by
  rintro ⟨filters, hrun, hright⟩
  obtain ⟨hr, hq, hreq⟩ := torchReqs_get hv hinj hk
  have hlen : k < (torchReqs b v).length := by
    rw [torchReqs_eq hv hinj, List.length_map]
    exact (List.getElem?_eq_some_iff.mp hk).1
  obtain ⟨part, hpart, hsub⟩ := collect_mem hrun
    (List.mem_map.mpr ⟨k, List.mem_range.mpr hlen, rfl⟩)
  dsimp only at hpart
  rw [hreq, torchLc_eq hv hinj hr hq, if_neg (by omega), hmask, torchTok_eq hv hinj hr,
    List.length_map, List.length_range] at hpart
  have hstep := torchStep_pos cfg (lcPerReq cfg b r)
  obtain ⟨part₀, hpart₀, hsub₀⟩ := collect_mem hpart
    (List.mem_map.mpr ⟨0, zero_mem_chunkStarts hstep hq, rfl⟩)
  rw [slice_map_range] at hpart₀
  have hpos : 0 < min (0 + torchStep cfg (lcPerReq cfg b r)) (v.qLens r) - 0 := by
    have := lt_min (show 0 < 0 + torchStep cfg (lcPerReq cfg b r) by omega) hq
    omega
  refine not_isRight_of_first hv hr hq hfirst hpart₀ ?_ (by omega) ?_
    (fun f hf => hsub f (hsub₀ f hf)) hright
  · exact List.ne_nil_of_length_pos (by rw [List.length_map, List.length_range]; exact hpos)
  · rw [List.getD_eq_getElem _ _ (by rw [List.length_map, List.length_range]; exact hpos)]
    simp

end

end LuzServing

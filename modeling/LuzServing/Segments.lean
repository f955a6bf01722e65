import LuzServing.Stores
import Mathlib.Data.List.GetD

/-!
# Segments: a batch laid out flat

A batch of requests travels as one flat tensor: the rows of request 0, then those of
request 1, and so on. `segStart` is where the rows of a request begin, `segRows`
names the request of every row. A row is one request's and one offset's
(`exists_seg`, `seg_inj`). The cumulative maxima and minima by which kernels find the
ends of a segment are scans (`scan`), and what a scan yields is what a place up to there
attains (`scan_max_eq`, `scan_min_eq`).

Rows that are too many to be worked on at once are worked on in chunks (`chunkStarts`). The
chunks, one after the other, are the rows (`flatMap_chunks`), and a table of the last rows is
filled by what the chunks have of them (`storeAll_lastRows`).
-/

namespace LuzServing

/-! ## Where a segment begins -/

section

variable (lens : ℕ → ℕ)

/-- The rows before segment `r`. -/
def segStart : ℕ → ℕ
  | 0 => 0
  | r + 1 => segStart r + lens r

@[simp] theorem segStart_zero : segStart lens 0 = 0 := rfl

theorem segStart_succ (r : ℕ) : segStart lens (r + 1) = segStart lens r + lens r := rfl

theorem segStart_mono : Monotone (segStart lens) :=
  monotone_nat_of_le_succ fun r => Nat.le_add_right (segStart lens r) (lens r)

variable {lens}

/-- Where a segment begins depends on the segments before it only. -/
theorem segStart_congr {lens lens' : ℕ → ℕ} {R : ℕ} (h : ∀ r, r < R → lens r = lens' r) :
    segStart lens R = segStart lens' R := by
  induction R with
  | zero => rfl
  | succ R ih =>
    rw [segStart_succ, segStart_succ, h R (Nat.lt_succ_self R),
      ih fun r hr => h r (hr.trans (Nat.lt_succ_self R))]

/-- When all the segments have one length, a segment begins at its number times this length. -/
theorem segStart_const {n R : ℕ} (h : ∀ r, r < R → lens r = n) : segStart lens R = R * n := by
  induction R with
  | zero => rw [segStart_zero, Nat.zero_mul]
  | succ R ih =>
    rw [segStart_succ, h R (Nat.lt_succ_self R), ih fun r hr => h r (hr.trans (Nat.lt_succ_self R)),
      Nat.succ_mul]

/-- What is added up over the first places is where a segment begins. -/
theorem sum_map_range (lens : ℕ → ℕ) (R : ℕ) :
    ((List.range R).map lens).sum = segStart lens R := by
  induction R with
  | zero => rfl
  | succ R ih => rw [List.sum_range_succ, ih, segStart_succ]

/-- A segment ends before any later segment begins, or where it begins. -/
theorem segStart_add_le {r r' : ℕ} (h : r < r') :
    segStart lens r + lens r ≤ segStart lens r' :=
  segStart_mono lens h

/-- A row of a segment is a row of the batch. -/
theorem seg_lt {R r j : ℕ} (hr : r < R) (hj : j < lens r) :
    segStart lens r + j < segStart lens R :=
  lt_of_lt_of_le (Nat.add_lt_add_left hj _) (segStart_add_le hr)

/-- Every row of the batch lies in one of its segments, at an offset within the segment. -/
theorem exists_seg {R i : ℕ} (h : i < segStart lens R) :
    ∃ r, r < R ∧ ∃ j, j < lens r ∧ i = segStart lens r + j := by
  induction R with
  | zero => exact absurd h (Nat.not_lt_zero i)
  | succ R ih =>
    by_cases hR : i < segStart lens R
    · obtain ⟨r, hr, hj⟩ := ih hR
      exact ⟨r, hr.trans (Nat.lt_succ_self R), hj⟩
    · rw [segStart_succ] at h
      exact ⟨R, Nat.lt_succ_self R, i - segStart lens R, by omega, by omega⟩

/-- A row lies in one segment only, and at one offset within it. -/
theorem seg_inj {r j r' j' : ℕ} (hj : j < lens r) (hj' : j' < lens r')
    (h : segStart lens r + j = segStart lens r' + j') : r = r' ∧ j = j' := by
  rcases lt_trichotomy r r' with hlt | rfl | hlt
  · have hle : segStart lens r + lens r ≤ segStart lens r' := segStart_add_le hlt
    omega
  · exact ⟨rfl, by omega⟩
  · have hle : segStart lens r' + lens r' ≤ segStart lens r := segStart_add_le hlt
    omega

/-- Where no segment is empty, `r` segments have at least `r` rows. -/
theorem le_segStart {R : ℕ} (hpos : ∀ r, r < R → 0 < lens r) : R ≤ segStart lens R := by
  induction R with
  | zero => exact Nat.zero_le _
  | succ R ih =>
    have := ih fun r hr => hpos r (hr.trans (Nat.lt_succ_self R))
    have := hpos R (Nat.lt_succ_self R)
    rw [segStart_succ]
    omega

/-- Rows by segment: what holds of a segment's first row, and goes from a row to the next
and from a segment's last row to the next segment, holds of every row. -/
theorem seg_induction {R : ℕ} (hpos : ∀ r, r < R → 0 < lens r) {P : ℕ → ℕ → Prop}
    (hzero : 0 < R → P 0 0)
    (hrow : ∀ r j, r < R → j + 1 < lens r → P r j → P r (j + 1))
    (hseg : ∀ r, r + 1 < R → P r (lens r - 1) → P (r + 1) 0) {r : ℕ} (hr : r < R) {j : ℕ}
    (hj : j < lens r) : P r j := by
  have hrun : ∀ r, r < R → P r 0 → ∀ j, j < lens r → P r j := by
    intro r hr h0 j
    induction j with
    | zero => exact fun _ => h0
    | succ j ih => exact fun hj => hrow r j hr hj (ih (by omega))
  have hfirst : ∀ r, r < R → P r 0 := by
    intro r
    induction r with
    | zero => exact hzero
    | succ r ih =>
      intro hr
      have hr' : r < R := by omega
      have := hpos r hr'
      exact hseg r hr (hrun r hr' (ih hr') _ (by omega))
  exact hrun r hr (hfirst r hr) j hj

end

/-- A place in a table of rows of one width is of one row, at one place of the row. -/
theorem mul_add_inj {w i j i' j' : ℕ} (hj : j < w) (hj' : j' < w) (h : i * w + j = i' * w + j') :
    i = i' ∧ j = j' := by
  have hdiv : (i * w + j) / w = i := Nat.div_eq_of_lt_le (Nat.le_add_right _ _) (by
    rw [Nat.succ_mul]
    omega)
  have hdiv' : (i' * w + j') / w = i' := Nat.div_eq_of_lt_le (Nat.le_add_right _ _) (by
    rw [Nat.succ_mul]
    omega)
  obtain rfl : i = i' := by rw [← hdiv, h, hdiv']
  exact ⟨rfl, by omega⟩

/-! ## The segment of every row -/

/-- The segment of every row: `repeat_interleave(arange(R), lens)`. -/
def segRows (lens : ℕ → ℕ) (R : ℕ) : List ℕ :=
  (List.range R).flatMap fun r => List.replicate (lens r) r

section

variable {lens : ℕ → ℕ}

theorem segRows_succ (R : ℕ) :
    segRows lens (R + 1) = segRows lens R ++ List.replicate (lens R) R := by
  rw [segRows, List.range_succ, List.flatMap_append]
  simp [segRows]

/-- Rows that are listed by segment are as many as the segments have. -/
theorem length_flatMap_range {α : Type*} {g : ℕ → List α} {R : ℕ}
    (h : ∀ r, r < R → (g r).length = lens r) :
    ((List.range R).flatMap g).length = segStart lens R := by
  induction R with
  | zero => rfl
  | succ R ih =>
    rw [List.range_succ, List.flatMap_append, List.length_append,
      ih fun r hr => h r (hr.trans (Nat.lt_succ_self _)), segStart_succ,
      ← h R (Nat.lt_succ_self R)]
    simp

theorem length_segRows (R : ℕ) : (segRows lens R).length = segStart lens R :=
  length_flatMap_range fun _ _ => List.length_replicate

/-- What is listed by segment, at an offset of a segment. -/
theorem getD_flatMap_range {α : Type*} {g : ℕ → List α} {R : ℕ}
    (h : ∀ r, r < R → (g r).length = lens r) {r j : ℕ} (hr : r < R) (hj : j < lens r) (d : α) :
    ((List.range R).flatMap g).getD (segStart lens r + j) d = (g r).getD j d := by
  induction R with
  | zero => exact absurd hr (Nat.not_lt_zero r)
  | succ R ih =>
    have hlen : ((List.range R).flatMap g).length = segStart lens R :=
      length_flatMap_range fun r hr => h r (hr.trans (Nat.lt_succ_self _))
    rw [List.range_succ, List.flatMap_append]
    rcases Nat.lt_succ_iff_lt_or_eq.mp hr with hlt | rfl
    · rw [List.getD_append _ _ _ _ (by rw [hlen]; exact seg_lt hlt hj)]
      exact ih (fun r hr => h r (hr.trans (Nat.lt_succ_self _))) hlt
    · rw [List.getD_append_right _ _ _ _ (by rw [hlen]; exact Nat.le_add_right _ _), hlen,
        Nat.add_sub_cancel_left]
      simp

/-- The row at offset `j` of segment `r` is segment `r`'s. -/
theorem getD_segRows {R r j : ℕ} (hr : r < R) (hj : j < lens r) (d : ℕ) :
    (segRows lens R).getD (segStart lens r + j) d = r := by
  rw [segRows, getD_flatMap_range (fun _ _ => List.length_replicate) hr hj]
  exact List.getD_replicate _ hj

end

/-! ## Lists by segment -/

section

variable {α : Type*} {β : Type*}

/-- The rows by segment depend on the lengths of the segments and on nothing else. -/
theorem segRows_congr {lens lens' : ℕ → ℕ} {R : ℕ} (h : ∀ r, r < R → lens r = lens' r) :
    segRows lens R = segRows lens' R := by
  rw [segRows, segRows]
  refine List.flatMap_congr fun r hr => ?_
  rw [h r (List.mem_range.mp hr)]

/-- Rows that are listed by segment, combined each with its segment's number, are so listed by
segment. -/
theorem zipWith_segRows {lens : ℕ → ℕ} (f : α → ℕ → β) (g : ℕ → List α) {R : ℕ}
    (h : ∀ r, r < R → (g r).length = lens r) :
    List.zipWith f ((List.range R).flatMap g) (segRows lens R) =
      (List.range R).flatMap fun r => (g r).map fun x => f x r := by
  induction R with
  | zero => rfl
  | succ R ih =>
    have hlen : ((List.range R).flatMap g).length = (segRows lens R).length := by
      rw [length_segRows, length_flatMap_range fun r hr => h r (hr.trans (Nat.lt_succ_self _))]
    have hlast : List.zipWith f (g R) (List.replicate (lens R) R) =
        (g R).map fun x => f x R := by
      rw [← h R (Nat.lt_succ_self R)]
      induction g R with
      | nil => rfl
      | cons x xs ih => rw [List.length_cons, List.replicate_succ, List.zipWith_cons_cons, ih]; rfl
    rw [List.range_succ, List.flatMap_append, List.flatMap_append, segRows_succ,
      List.zipWith_append hlen, ih fun r hr => h r (hr.trans (Nat.lt_succ_self _))]
    simp only [List.flatMap_cons, List.flatMap_nil, List.append_nil, hlast]

/-- A list that is built by place has at each place what the place was given. -/
theorem getD_map_range (f : ℕ → α) {n k : ℕ} (hk : k < n) (d : α) :
    ((List.range n).map f).getD k d = f k := by
  rw [List.getD_eq_getElem _ _ (by rwa [List.length_map, List.length_range])]
  simp

/-- The rows of the batch, in order, are the rows of its segments, one segment after the other. -/
theorem range_segStart (lens : ℕ → ℕ) (R : ℕ) :
    List.range (segStart lens R) =
      (List.range R).flatMap fun r => (List.range (lens r)).map (segStart lens r + ·) := by
  induction R with
  | zero => rfl
  | succ R ih =>
    rw [List.range_succ, List.flatMap_append, ← ih, segStart_succ, List.range_add]
    simp

/-- A list made up by segment, where only one segment has anything, is what this segment has. -/
theorem flatMap_range_single {g : ℕ → List β} {R r : ℕ} (hr : r < R)
    (h : ∀ r', r' < R → r' ≠ r → g r' = []) : (List.range R).flatMap g = g r := by
  induction R with
  | zero => exact absurd hr (Nat.not_lt_zero r)
  | succ R ih =>
    rw [List.range_succ, List.flatMap_append]
    rcases Nat.lt_succ_iff_lt_or_eq.mp hr with hlt | rfl
    · rw [ih hlt fun r' hr' => h r' (hr'.trans (Nat.lt_succ_self _))]
      simp [h R (Nat.lt_succ_self R) (Nat.ne_of_gt hlt)]
    · have hnil : (List.range r).flatMap g = [] := by
        refine List.flatMap_eq_nil_iff.mpr fun r' hr' => ?_
        have hlt := List.mem_range.mp hr'
        exact h r' (hlt.trans (Nat.lt_succ_self r)) hlt.ne
      rw [hnil]
      simp

/-- To go through the elements that are kept is to go through all and pass over the others. -/
theorem flatMap_filter_ite (p : α → Bool) (g : α → List β) (l : List α) :
    (l.filter p).flatMap g = l.flatMap fun x => if p x then g x else [] := by
  induction l with
  | nil => rfl
  | cons x l ih =>
    rw [List.filter_cons, List.flatMap_cons, ← ih]
    split <;> rfl

/-- The place of a number among those below `n` that are kept is how many before it are. -/
theorem getElem?_filter_range {p : ℕ → Bool} {n k r : ℕ}
    (h : ((List.range n).filter p)[k]? = some r) : k = ((List.range r).filter p).length := by
  induction n with
  | zero => simp at h
  | succ n ih =>
    rw [List.range_succ, List.filter_append] at h
    rcases lt_or_ge k ((List.range n).filter p).length with hlt | hge
    · rw [List.getElem?_append_left hlt] at h
      exact ih h
    · rw [List.getElem?_append_right hge, List.filter_singleton] at h
      cases hp : p n with
      | false => simp [hp] at h
      | true =>
        rw [hp, cond_true] at h
        obtain ⟨hk, hr⟩ := List.getElem?_eq_some_iff.mp h
        rw [List.length_singleton] at hk
        rw [List.getElem_singleton] at hr
        rw [← hr]
        omega

/-- So it is its own place when all before it are kept. -/
theorem getElem?_filter_range_self {p : ℕ → Bool} {n k r : ℕ}
    (h : ((List.range n).filter p)[k]? = some r) : r = k ↔ ∀ r', r' < r → p r' = true := by
  rw [getElem?_filter_range h]
  constructor
  · intro hlen r' hr'
    have hall := List.filter_eq_self.mp
      (List.filter_sublist.eq_of_length (by rw [List.length_range]; exact hlen.symm) :
        (List.range r).filter p = List.range r)
    exact hall r' (List.mem_range.mpr hr')
  · intro hall
    rw [List.filter_eq_self.mpr fun r' hr' => hall r' (List.mem_range.mp hr'), List.length_range]

/-- Reading a list at all of its places in order gives the list back. -/
theorem map_range_getD (l : List α) (d : α) :
    (List.range l.length).map (fun k => l.getD k d) = l := by
  refine List.ext_getElem (by simp) fun k hk _ => ?_
  simp only [List.length_map, List.length_range] at hk
  rw [List.getElem_map, List.getElem_range, List.getD_eq_getElem _ _ hk]

/-- To go through the places of a list is to go through the list. -/
theorem range_flatMap_getD (l : List ℕ) (f : ℕ → List β) :
    ((List.range l.length).flatMap fun k => f (l.getD k 0)) = l.flatMap f := by
  conv_rhs => rw [← map_range_getD l 0, List.flatMap_map]

/-- A table of what is listed by place up to a place, and of one value from there on. -/
theorem map_range_ite (g : ℕ → β) (d : β) {m n : ℕ} (hmn : m ≤ n) :
    (List.range n).map (fun j => if j < m then g j else d) =
      (List.range m).map g ++ List.replicate (n - m) d := by
  obtain ⟨k, rfl⟩ := Nat.exists_eq_add_of_le hmn
  rw [List.range_add, List.map_append, List.map_map, Nat.add_sub_cancel_left]
  congr 1
  · exact List.map_congr_left fun j hj => if_pos (List.mem_range.mp hj)
  · refine List.eq_replicate_iff.mpr ⟨by simp, fun x hx => ?_⟩
    obtain ⟨j, -, rfl⟩ := List.mem_map.mp hx
    exact if_neg (not_lt.mpr (Nat.le_add_right m j))

end

/-! ## Scans -/

/-- The running value of an operation: `cumsum`, `cummax`, `cummin`. -/
def scan (op : ℕ → ℕ → ℕ) (f : ℕ → ℕ) : ℕ → ℕ
  | 0 => f 0
  | i + 1 => op (scan op f i) (f (i + 1))

/-- A running maximum is what a place up to there attains and none exceeds. -/
theorem scan_max_eq {f : ℕ → ℕ} {i m : ℕ} (hmem : ∃ j, j ≤ i ∧ f j = m)
    (hle : ∀ j, j ≤ i → f j ≤ m) : scan max f i = m := by
  refine le_antisymm ?_ ?_
  · clear hmem
    induction i with
    | zero => exact hle 0 le_rfl
    | succ i ih =>
      exact max_le (ih fun j hj => hle j (hj.trans (Nat.le_succ i))) (hle (i + 1) le_rfl)
  · clear hle
    induction i with
    | zero =>
      obtain ⟨j, hj, rfl⟩ := hmem
      rw [Nat.le_zero.mp hj]
      exact le_rfl
    | succ i ih =>
      obtain ⟨j, hj, hm⟩ := hmem
      rcases Nat.le_succ_iff.mp hj with hj | rfl
      · exact (ih ⟨j, hj, hm⟩).trans (le_max_left _ _)
      · exact hm.ge.trans (le_max_right _ _)

/-- A running minimum is what a place up to there attains and none undercuts. -/
theorem scan_min_eq {f : ℕ → ℕ} {i m : ℕ} (hmem : ∃ j, j ≤ i ∧ f j = m)
    (hle : ∀ j, j ≤ i → m ≤ f j) : scan min f i = m := by
  refine le_antisymm ?_ ?_
  · clear hle
    induction i with
    | zero =>
      obtain ⟨j, hj, rfl⟩ := hmem
      rw [Nat.le_zero.mp hj]
      exact le_rfl
    | succ i ih =>
      obtain ⟨j, hj, hm⟩ := hmem
      rcases Nat.le_succ_iff.mp hj with hj | rfl
      · exact (min_le_left _ _).trans (ih ⟨j, hj, hm⟩)
      · exact (min_le_right _ _).trans hm.le
  · clear hmem
    induction i with
    | zero => exact hle 0 le_rfl
    | succ i ih =>
      exact le_min (ih fun j hj => hle j (hj.trans (Nat.le_succ i))) (hle (i + 1) le_rfl)

/-! ## Chunks -/

/-- `range(0, n, step)`. -/
def chunkStarts (n step : ℕ) : List ℕ := (List.range ((n + step - 1) / step)).map (· * step)

theorem mem_chunkStarts {n step c : ℕ} (hstep : 0 < step) (h : c ∈ chunkStarts n step) : c < n := by
  obtain ⟨k, hk, rfl⟩ := List.mem_map.mp h
  have hk := List.mem_range.mp hk
  rw [Nat.lt_div_iff_mul_lt hstep] at hk
  omega

/-- Every row lies in one of the chunks that the rows are cut into. -/
theorem exists_chunk {n step j : ℕ} (hstep : 0 < step) (hj : j < n) :
    ∃ c ∈ chunkStarts n step, c ≤ j ∧ j < c + step := by
  refine ⟨j / step * step, List.mem_map.mpr ⟨j / step, List.mem_range.mpr ?_, rfl⟩,
    Nat.div_mul_le_self j step, ?_⟩
  · rw [Nat.div_lt_iff_lt_mul hstep]
    have hdiv := Nat.div_add_mod' (n + step - 1) step
    have hmod := Nat.mod_lt (n + step - 1) hstep
    omega
  · have hdiv := Nat.div_add_mod' j step
    have hmod := Nat.mod_lt j hstep
    omega

/-- When there are rows at all, the first chunk starts at the first row. -/
theorem zero_mem_chunkStarts {n step : ℕ} (hstep : 0 < step) (hn : 0 < n) :
    0 ∈ chunkStarts n step := by
  obtain ⟨c, hc, hle, -⟩ := exists_chunk hstep hn
  rwa [Nat.le_zero.mp hle] at hc

/-- The rows of the chunks, one chunk after the other, are all the rows in order. -/
theorem flatMap_chunkStarts {n step : ℕ} (hstep : 0 < step) :
    ((chunkStarts n step).flatMap fun c => (List.range (min (c + step) n - c)).map (c + ·)) =
      List.range n := by
  have hdiv := Nat.div_add_mod' (n + step - 1) step
  have hmod := Nat.mod_lt (n + step - 1) hstep
  have hstart : ∀ k, segStart (fun k => min ((k + 1) * step) n - k * step) k =
      min (k * step) n := by
    intro k
    induction k with
    | zero => simp
    | succ k ih =>
      rw [segStart_succ, ih, Nat.succ_mul]
      omega
  have hall : segStart (fun k => min ((k + 1) * step) n - k * step) ((n + step - 1) / step) =
      n := by
    rw [hstart]
    omega
  conv_rhs => rw [← hall, range_segStart]
  rw [chunkStarts, List.flatMap_map]
  refine List.flatMap_congr fun k hk => ?_
  have hk := List.mem_range.mp hk
  rw [Nat.lt_div_iff_mul_lt hstep] at hk
  rw [hstart, Nat.succ_mul, min_eq_left (by omega : k * step ≤ n)]

/-- What chunks list of their rows is what is listed of all rows. -/
theorem flatMap_chunks {α : Type*} (f : ℕ → α) {n step : ℕ} (hstep : 0 < step) :
    ((chunkStarts n step).flatMap fun c =>
      (List.range (min (c + step) n - c)).map fun k => f (c + k)) = (List.range n).map f := by
  rw [← flatMap_chunkStarts (n := n) hstep, List.map_flatMap]
  refine List.flatMap_congr fun c _ => ?_
  rw [List.map_map]
  rfl

/-- A table of the last `m` of `n` rows is filled when each chunk writes what it has of
them. -/
theorem storeAll_lastRows {α : Type*} (f : ℕ → α) (table : ℕ → α) {n m step k : ℕ}
    (hstep : 0 < step) (hm : m ≤ n) (hk : k < m) :
    storeAll table ((chunkStarts n step).flatMap fun c =>
        (List.range (min (c + step) n - max c (n - m))).map fun k =>
          (max c (n - m) - (n - m) + k, f (max c (n - m) + k))) k = f (n - m + k) := by
  refine storeAll_eq (fun s hs hsk => ?_) ?_
  · obtain ⟨c, -, hs⟩ := List.mem_flatMap.mp hs
    obtain ⟨i, -, rfl⟩ := List.mem_map.mp hs
    have hmax := le_max_right c (n - m)
    dsimp only at hsk ⊢
    congr 1
    omega
  · obtain ⟨c, hc, hle, hlt⟩ := exists_chunk (n := n) (j := n - m + k) hstep (by omega)
    refine ⟨_, List.mem_flatMap.mpr ⟨c, hc, List.mem_map.mpr
      ⟨n - m + k - max c (n - m), List.mem_range.mpr ?_, rfl⟩⟩, ?_⟩
    · omega
    · dsimp only
      omega

/-! ## Launches -/

/-- A launch of one program a block of `n` places: each stores a value at those of its lanes
that the mask `offs < n` keeps. -/
def launch {α : Type*} (out : ℕ → α) (n block : ℕ) (value : ℕ → α) : ℕ → α :=
  storeAll out ((chunkStarts n block).flatMap fun start =>
    ((List.range block).filter fun lane => start + lane < n).map fun lane =>
      (start + lane, value (start + lane)))

/-- A launch over the blocks gives each place within the range its value, whatever was there
before. -/
theorem launch_eq {α : Type*} {out value : ℕ → α} {n block k : ℕ} (hblock : 0 < block)
    (hk : k < n) : launch out n block value k = value k := by
  refine storeAll_eq (fun s hs hsk => ?_) ?_
  · obtain ⟨start, -, hs⟩ := List.mem_flatMap.mp hs
    obtain ⟨lane, -, rfl⟩ := List.mem_map.mp hs
    exact congrArg value hsk
  · obtain ⟨start, hstart, hle, hlt⟩ := exists_chunk hblock hk
    refine ⟨_, List.mem_flatMap.mpr ⟨start, hstart, List.mem_map.mpr ⟨k - start, ?_, rfl⟩⟩,
      Nat.add_sub_cancel' hle⟩
    refine List.mem_filter.mpr ⟨List.mem_range.mpr (by omega), decide_eq_true ?_⟩
    omega

end LuzServing

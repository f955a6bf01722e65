import LuzServing.CandidateMaskRuns

/-!
# The tail's metadata and the relayout

The rows of the late layers' tail have three numbers each: in the batch, among the rows of
the requests that are kept, and in the tail. The metadata of the tail are gathered by the
first (`tailMetadata`), and what comes out of the late layers is in the order of the last.

The logits processor goes through the requests of the batch. Where a request was dropped,
`relayTail` lays the outputs out for it: a dropped request borrows the first row of the
tail. All outputs are laid out by one list of rows, so what a row gets is of one token, its
own (`late_layer_tail`).
-/

namespace LuzServing

/-! ## The metadata -/

/-- The part of the tail's metadata that is its rows' own. -/
structure TailMetadata : Type where
  /-- `positions` -/
  positions : List ℕ
  /-- `out_cache_loc` -/
  outCacheLoc : List ℕ
  /-- `low_ratio_req_indices` -/
  lowRatioReqIndices : List ℕ

/-- `_build_late_layer_tail_metadata`, past the tail itself. -/
def tailMetadata (b : ExtendBatch) (t : LateLayerTail) (outCacheLoc : ℕ → ℕ) : TailMetadata where
  positions := t.rows ((List.range b.numRows).map b.position)
  outCacheLoc := t.rows ((List.range b.numRows).map outCacheLoc)
  lowRatioReqIndices := (segRows t.extendSeqLens t.numReqs).map t.reqs

/-- `_scatter_tail_rows`: the tail's rows at their places in the batch; the others' are left
uninitialized. -/
def scatterTailRows {H : Type} [Inhabited H] (t : LateLayerTail) (rows : List H)
    (uninit : ℕ → H) : ℕ → H :=
  match t.contiguousStart with
  | some start => fun i => if start ≤ i then rows.getD (i - start) default else uninit i
  | none => storeAll uninit (t.tokenIndices.zip rows)

/-! ## The relayout -/

/-- What the logits processor is given. -/
structure LogitsInput (H : Type) : Type where
  /-- `input_ids` -/
  inputIds : List ℕ
  /-- `hidden_states` -/
  hiddenStates : List H
  /-- `aux_hidden_states` -/
  auxHiddenStates : List (List H)
  /-- `extend_seq_lens_cpu` -/
  extendSeqLens : List ℕ
  /-- `extend_logprob_start_lens_cpu` -/
  extendLogprobStartLens : List ℕ
  /-- `hidden_states_token_indices` of the output -/
  tokenIndices : List ℕ

/-- `extend_lens`: a request that is marked takes the next of the tail's lengths. -/
def relayLens : List Bool → List ℕ → Except String (List ℕ)
  | [], _ => .ok []
  | true :: _, [] => .error "StopIteration"
  | true :: marks, n :: subLens => (relayLens marks subLens).map (n :: ·)
  | false :: marks, subLens => (relayLens marks subLens).map (1 :: ·)

/-- `tail_src`: the tail rows of each request; one that is not marked borrows the first. -/
def relaySrc : List Bool → List ℕ → ℕ → Except String (List ℕ)
  | [], _, _ => .ok []
  | true :: _, [], _ => .error "StopIteration"
  | true :: marks, n :: subLens, row =>
    (relaySrc marks subLens (row + n)).map ((List.range n).map (row + ·) ++ ·)
  | false :: marks, subLens, row => (relaySrc marks subLens row).map (0 :: ·)

/-- The part of `forward` between the layers and the logits processor. -/
def relayTail {H : Type} [Inhabited H] (t : LateLayerTail) (lastChunkMask : Option (List Bool))
    (inputIds : List ℕ) (hiddenStates : List H) (auxHiddenStates : List (List H)) :
    Except String (LogitsInput H) :=
  let subLens := (List.range t.numReqs).map t.extendSeqLens
  let plain : LogitsInput H :=
    { inputIds := t.rows inputIds
      hiddenStates := hiddenStates
      auxHiddenStates := auxHiddenStates
      extendSeqLens := subLens
      extendLogprobStartLens := subLens
      tokenIndices := t.tokenIndices }
  match lastChunkMask with
  | none => .ok plain
  | some mask =>
    if t.numReqs = mask.length then .ok plain
    else do
      let extendLens ← relayLens mask subLens
      let tailSrc ← relaySrc mask subLens 0
      let tokenIndices := tailSrc.map fun s => t.tokenIndices.getD s 0
      pure
        { inputIds := tokenIndices.map fun i => inputIds.getD i 0
          hiddenStates := tailSrc.map fun s => hiddenStates.getD s default
          auxHiddenStates := auxHiddenStates.map fun h => tailSrc.map fun s => h.getD s default
          extendSeqLens := extendLens
          extendLogprobStartLens := extendLens
          tokenIndices := tokenIndices }

/-! ## The rows of the tail -/

section

variable {b : ExtendBatch} {layout : TailLayout} {mask : Option (List Bool)}

/-- The request of the tail's `k`-th segment is the `k`-th of the requests that are kept. -/
theorem tail_req (hlayout : IsTailLayout layout) (hmask : ∀ mk ∈ mask, mk.length = b.bs) {k : ℕ}
    (hk : k < (keptOf b mask).length) :
    (buildLateLayerTail layout b mask).reqs k = b.reqs ((keptOf b mask).getD k 0) ∧
      (buildLateLayerTail layout b mask).extendSeqLens k =
        min swaWindow (b.extendLens ((keptOf b mask).getD k 0)) := by
  rcases buildLateLayerTail_cases layout hmask with ⟨hall, htail⟩ | ⟨-, htail⟩
  · have hkept : keptOf b mask = List.range b.bs := by
      rw [keptOf_eq_filter hmask]
      refine List.filter_eq_self.mpr fun r hr => ?_
      exact decide_eq_true (hall r (List.mem_range.mp hr))
    rw [hkept, List.length_range] at hk
    have hget : (keptOf b mask).getD k 0 = k := by
      rw [hkept, List.getD_eq_getElem _ _ (by rwa [List.length_range]), List.getElem_range]
    rw [htail, hget]
    exact ⟨rfl, hlayout.lens _ _ _ _ k hk⟩
  · rw [htail]
    exact ⟨rfl, hlayout.lens _ _ _ _ k hk⟩

/-- The tail has as many requests as the batch keeps. -/
theorem tail_numReqs (layout : TailLayout) (hmask : ∀ mk ∈ mask, mk.length = b.bs) :
    (buildLateLayerTail layout b mask).numReqs = (keptOf b mask).length := by
  rcases buildLateLayerTail_cases layout hmask with ⟨hall, htail⟩ | ⟨-, htail⟩
  · rw [htail, keptOf_eq_filter hmask, List.filter_eq_self.mpr fun r hr => ?_, List.length_range]
    · rfl
    · exact decide_eq_true (hall r (List.mem_range.mp hr))
  · rw [htail]
    rfl

/-- **The tail's rows** are the tails of the kept requests, one request after the other. -/
theorem tail_tokenIndices (hlayout : IsTailLayout layout)
    (hmask : ∀ mk ∈ mask, mk.length = b.bs) :
    (buildLateLayerTail layout b mask).tokenIndices = (keptOf b mask).flatMap (tailOf b) := by
  have hsorted : (keptOf b mask).Pairwise (· < ·) := by
    rw [keptOf_eq_filter hmask]
    exact List.pairwise_lt_range.filter _
  rcases buildLateLayerTail_cases layout hmask with ⟨hall, htail⟩ | ⟨-, htail⟩
  · rw [htail, fullTail_tokenIndices b hlayout, keptOf_eq_filter hmask,
      List.filter_eq_self.mpr fun r hr => ?_]
    exact decide_eq_true (hall r (List.mem_range.mp hr))
  · rw [htail]
    exact subsetTail_tokenIndices b hlayout hsorted

/-- What is gathered by the rows of the tail is theirs, also where the gather is a slice. -/
theorem tail_rows_map (hlayout : IsTailLayout layout) (hmask : ∀ mk ∈ mask, mk.length = b.bs)
    (f : ℕ → ℕ) :
    (buildLateLayerTail layout b mask).rows ((List.range b.numRows).map f) =
      ((keptOf b mask).flatMap (tailOf b)).map f := by
  rw [← buildLateLayerTail_rows b hlayout hmask]
  have htokens := tail_tokenIndices (b := b) hlayout hmask
  generalize buildLateLayerTail layout b mask = t at htokens ⊢
  rw [LateLayerTail.rows, LateLayerTail.rows]
  cases t.contiguousStart with
  | some start => exact List.map_drop.symm
  | none =>
    dsimp only
    rw [List.map_map]
    refine List.map_congr_left fun i hi => ?_
    rw [htokens] at hi
    obtain ⟨r, hr, hi⟩ := List.mem_flatMap.mp hi
    have hlt := tailOf_lt b (lt_of_mem_keptOf hmask hr) hi
    rw [getD_map_range f hlt, Function.comp_apply, List.getD_eq_getElem _ _ (by simpa using hlt),
      List.getElem_range]

/-- A row that lies in the tail of a request belongs to this request. -/
theorem row_tailOf {r i : ℕ} (hr : r < b.bs) (hi : i ∈ tailOf b r) : b.row i = r := by
  obtain ⟨k, hk, rfl⟩ := List.mem_map.mp hi
  have hk := List.mem_range.mp hk
  rw [Nat.add_assoc]
  exact (row_position hr (by omega)).1

/-- The requests that are listed for the tail's rows are those that the rows belong to. -/
theorem tail_lowRatioReqIndices (hlayout : IsTailLayout layout)
    (hmask : ∀ mk ∈ mask, mk.length = b.bs) :
    (segRows (buildLateLayerTail layout b mask).extendSeqLens
        (buildLateLayerTail layout b mask).numReqs).map (buildLateLayerTail layout b mask).reqs =
      ((keptOf b mask).flatMap (tailOf b)).map fun i => b.reqs (b.row i) := by
  rw [segRows, tail_numReqs layout hmask, ← range_flatMap_getD (keptOf b mask) (tailOf b),
    List.map_flatMap, List.map_flatMap]
  refine List.flatMap_congr fun k hk => ?_
  have hk := List.mem_range.mp hk
  obtain ⟨hreqs, hlens⟩ := tail_req (b := b) hlayout hmask hk
  rw [List.map_replicate, hreqs, hlens]
  refine (List.eq_replicate_iff.mpr ⟨?_, fun x hx => ?_⟩).symm
  · rw [List.length_map, tailOf, List.length_map, List.length_range]
  · obtain ⟨i, hi, rfl⟩ := List.mem_map.mp hx
    have hmem : (keptOf b mask).getD k 0 ∈ keptOf b mask := by
      rw [List.getD_eq_getElem _ _ hk]
      exact List.getElem_mem hk
    rw [row_tailOf (lt_of_mem_keptOf hmask hmem) hi]

/-- The lengths by request of the batch are those of the rows. -/
theorem segStart_tailLen (hmask : ∀ mk ∈ mask, mk.length = b.bs) :
    segStart (tailLen b mask) b.bs = ((keptOf b mask).flatMap (tailOf b)).length := by
  rw [flatMap_keptOf hmask]
  refine (length_flatMap_range fun r _ => ?_).symm
  rw [tailLen]
  split
  next => rw [tailOf, List.length_map, List.length_range]
  next => rfl

/-! ## The rows of the relayout -/

/-- The requests that are marked, from the `r`-th on. -/
def marked : ℕ → List Bool → List ℕ
  | _, [] => []
  | r, true :: marks => r :: marked (r + 1) marks
  | r, false :: marks => marked (r + 1) marks

theorem marked_eq (r : ℕ) (marks : List Bool) :
    marked r marks =
      ((List.range marks.length).filter fun i => marks.getD i false).map (r + ·) := by
  induction marks generalizing r with
  | nil => rfl
  | cons mark marks ih =>
    have htail : ((List.range marks.length).map Nat.succ).filter
        (fun i => (mark :: marks).getD i false) =
        ((List.range marks.length).filter fun i => marks.getD i false).map Nat.succ := by
      rw [List.filter_map]
      rfl
    have hshift : ((List.range marks.length).filter fun i => marks.getD i false).map (r + 1 + ·) =
        (((List.range marks.length).filter fun i => marks.getD i false).map Nat.succ).map
          (r + ·) := by
      rw [List.map_map]
      refine List.map_congr_left fun i _ => ?_
      exact Nat.succ_add_eq_add_succ r i
    rw [List.length_cons, List.range_succ_eq_map]
    cases mark with
    | true => rw [List.filter_cons_of_pos rfl, htail, List.map_cons, ← hshift, ← ih]; rfl
    | false => rw [List.filter_cons_of_neg Bool.false_ne_true, htail, ← hshift, ← ih]; rfl

/-- What is listed for a list of marks, from the `r`-th request on. -/
theorem flatMap_marks_cons {α : Type} (f : ℕ → Bool → List α) (mark : Bool) (marks : List Bool)
    (r : ℕ) :
    ((List.range (mark :: marks).length).flatMap fun i =>
        f (r + i) ((mark :: marks).getD i false)) =
      f r mark ++
        (List.range marks.length).flatMap fun i => f (r + 1 + i) (marks.getD i false) := by
  rw [List.length_cons, List.range_succ_eq_map, List.flatMap_cons, List.flatMap_map]
  refine congrArg (f r mark ++ ·) (List.flatMap_congr fun i _ => ?_)
  rw [Nat.succ_eq_add_one, Nat.add_right_comm r 1 i]
  rfl

/-- The relayout lists for each request its own length where it is marked, and one where it is
not. -/
theorem relayLens_eq (lens : ℕ → ℕ) (marks : List Bool) (r : ℕ) :
    relayLens marks ((marked r marks).map lens) = .ok ((List.range marks.length).flatMap fun i =>
      [if marks.getD i false then lens (r + i) else 1]) := by
  induction marks generalizing r with
  | nil => rfl
  | cons mark marks ih =>
    have hcons := flatMap_marks_cons (fun r mark => [if mark then lens r else 1]) mark marks r
    rw [hcons]
    cases mark with
    | true => rw [marked, List.map_cons, relayLens, ih]; rfl
    | false => rw [marked, relayLens, ih]; rfl

/-- **The rows of the relayout**: with a tail that has the rows of the marked requests from
`row` on, they are these rows, and the tail's first for each request that is not marked. -/
theorem relaySrc_eq {T : List ℕ} (hT : T ≠ []) (tails : ℕ → List ℕ) (marks : List Bool)
    (r row : ℕ) (hdrop : T.drop row = (marked r marks).flatMap tails) :
    ∃ src, relaySrc marks ((marked r marks).map fun r => (tails r).length) row = .ok src ∧
      (∀ s ∈ src, s < T.length) ∧
      (src.map fun s => T.getD s 0) = (List.range marks.length).flatMap fun i =>
        if marks.getD i false then tails (r + i) else [T.getD 0 0] := by
  induction marks generalizing r row with
  | nil => exact ⟨[], rfl, fun s hs => absurd hs List.not_mem_nil, rfl⟩
  | cons mark marks ih =>
    rw [flatMap_marks_cons (fun r mark => if mark then tails r else [T.getD 0 0])]
    cases mark with
    | false =>
      obtain ⟨src, hrun, hlt, hsrc⟩ := ih (r + 1) row hdrop
      refine ⟨0 :: src, by rw [marked, relaySrc, hrun]; rfl, fun s hs => ?_, ?_⟩
      · rcases List.mem_cons.mp hs with rfl | hs
        · exact List.length_pos_of_ne_nil hT
        · exact hlt s hs
      · rw [List.map_cons, hsrc]
        rfl
    | true =>
      rw [marked, List.flatMap_cons] at hdrop
      have hnext : T.drop (row + (tails r).length) = (marked (r + 1) marks).flatMap tails := by
        rw [← List.drop_drop, hdrop, List.drop_left]
      have hlen : (T.drop row).length = (tails r ++ (marked (r + 1) marks).flatMap tails).length :=
        congrArg List.length hdrop
      rw [List.length_drop, List.length_append] at hlen
      obtain ⟨src, hrun, hlt, hsrc⟩ := ih (r + 1) (row + (tails r).length) hnext
      refine ⟨(List.range (tails r).length).map (row + ·) ++ src,
        by rw [marked, List.map_cons, relaySrc, hrun]; rfl, fun s hs => ?_, ?_⟩
      · rcases List.mem_append.mp hs with hs | hs
        · obtain ⟨i, hi, rfl⟩ := List.mem_map.mp hs
          have hi := List.mem_range.mp hi
          omega
        · exact hlt s hs
      · rw [List.map_append, hsrc, if_pos rfl, List.map_map]
        congr 1
        refine List.ext_getElem (by simp) fun i hi _ => ?_
        rw [List.length_map, List.length_range] at hi
        have hget : T[row + i]? = (tails r)[i]? := by
          rw [← List.getElem?_drop, hdrop, List.getElem?_append_left hi]
        rw [List.getElem_map, List.getElem_range, Function.comp_apply, List.getD_eq_getElem?_getD,
          hget, List.getElem?_eq_getElem hi]
        rfl

/-! ## The layout -/

/-- The rows of the batch that the logits processor is given: a request's tail, or the row that
it borrows. -/
def relaidRows (b : ExtendBatch) (mask : List Bool) (borrowed : ℕ) : List ℕ :=
  (List.range b.bs).flatMap fun r => if mask.getD r false then tailOf b r else [borrowed]

/-- How many of them are a request's. -/
def relaidLen (b : ExtendBatch) (mask : List Bool) (r : ℕ) : ℕ :=
  if mask.getD r false then min swaWindow (b.extendLens r) else 1

theorem length_relaid (b : ExtendBatch) (mask : List Bool) (borrowed r : ℕ) :
    (if mask.getD r false then tailOf b r else [borrowed]).length = relaidLen b mask r := by
  rw [relaidLen]
  split
  next => rw [tailOf, List.length_map, List.length_range]
  next => rfl

/-- The last row of a marked request is its last token's. -/
theorem relaidRows_last {marks : List Bool} {borrowed r : ℕ} (hr : r < b.bs)
    (hpos : 0 < b.extendLens r) (hmark : marks.getD r false = true) :
    (relaidRows b marks borrowed).getD (segStart (relaidLen b marks) (r + 1) - 1) 0 =
      segStart b.extendLens r + (b.extendLens r - 1) := by
  have hlen : relaidLen b marks r = min swaWindow (b.extendLens r) := if_pos hmark
  have hwindow : 0 < swaWindow := by decide
  have hlast : segStart (relaidLen b marks) (r + 1) - 1 =
      segStart (relaidLen b marks) r + (min swaWindow (b.extendLens r) - 1) := by
    rw [segStart_succ, hlen]
    omega
  rw [hlast, relaidRows, getD_flatMap_range (fun r _ => length_relaid b marks borrowed r) hr
    (by omega), if_pos hmark, tailOf, getD_map_range _ (by omega)]
  omega

/-- With a row to borrow from the tail, they are rows of the tail, and all of them. -/
theorem mem_relaidRows {marks : List Bool} (hlen : marks.length = b.bs) {borrowed : ℕ}
    (hborrowed : borrowed ∈ (keptReqs marks).flatMap (tailOf b)) {i : ℕ} :
    i ∈ relaidRows b marks borrowed ↔ i ∈ (keptReqs marks).flatMap (tailOf b) := by
  rw [relaidRows, List.mem_flatMap]
  constructor
  · rintro ⟨r, hr, hi⟩
    split at hi
    next hmark => exact List.mem_flatMap.mpr ⟨r, mem_keptReqs.mpr hmark, hi⟩
    next => rwa [List.mem_singleton.mp hi]
  · intro hi
    obtain ⟨r, hr, hi⟩ := List.mem_flatMap.mp hi
    have hmark := mem_keptReqs.mp hr
    have hlt : r < b.bs := hlen ▸ List.mem_range.mp (List.mem_filter.mp hr).1
    refine ⟨r, List.mem_range.mpr hlt, ?_⟩
    rwa [if_pos hmark]

/-- The lengths of the tail's segments are those of the tails of the kept requests. -/
theorem tail_subLens (hlayout : IsTailLayout layout) (hmask : ∀ mk ∈ mask, mk.length = b.bs) :
    (List.range (buildLateLayerTail layout b mask).numReqs).map
        (buildLateLayerTail layout b mask).extendSeqLens =
      (keptOf b mask).map fun r => (tailOf b r).length := by
  rw [tail_numReqs layout hmask]
  refine List.ext_getElem (by simp) fun k hk _ => ?_
  rw [List.length_map, List.length_range] at hk
  rw [List.getElem_map, List.getElem_range, (tail_req hlayout hmask hk).2, List.getElem_map,
    List.getD_eq_getElem _ _ hk, tailOf, List.length_map, List.length_range]

/-- Gathering states that are listed by the tail's rows gives the states of the gathered rows. -/
theorem gather_map {H : Type} (T : List ℕ) (state : ℕ → H) (d : H) {src : List ℕ}
    (hlt : ∀ s ∈ src, s < T.length) :
    (src.map fun s => (T.map state).getD s d) = (src.map fun s => T.getD s 0).map state := by
  rw [List.map_map]
  refine List.map_congr_left fun s hs => ?_
  have hs := hlt s hs
  rw [Function.comp_apply, List.getD_eq_getElem _ _ (by rwa [List.length_map]), List.getElem_map,
    List.getD_eq_getElem _ _ hs]

section
variable {marks : List Bool}

/-- If every request is marked and nobody borrows, the rows are those of all the tails. -/
theorem relaidRows_of_all (hall : ∀ r, r < b.bs → marks.getD r false = true) (borrowed : ℕ) :
    relaidRows b marks borrowed = (List.range b.bs).flatMap (tailOf b) := by
  rw [relaidRows]
  refine List.flatMap_congr fun r hr => ?_
  rw [if_pos (hall r (List.mem_range.mp hr))]

/-- If every request is marked, the numbers of the rows are those of all the tails. -/
theorem relaidLens_of_all (hall : ∀ r, r < b.bs → marks.getD r false = true) :
    (List.range b.bs).map (relaidLen b marks) =
      (List.range b.bs).map fun r => (tailOf b r).length := by
  refine List.map_congr_left fun r hr => ?_
  rw [relaidLen, if_pos (hall r (List.mem_range.mp hr)), tailOf, List.length_map,
    List.length_range]

/-- The numbers of rows that the relayout lists are those of the requests in the relaid batch. -/
theorem relaidLens_eq (hlen : marks.length = b.bs) :
    ((List.range marks.length).flatMap fun i =>
        [if marks.getD i false then (tailOf b (0 + i)).length else 1]) =
      (List.range b.bs).map (relaidLen b marks) := by
  rw [← List.map_eq_flatMap, hlen]
  refine List.map_congr_left fun r _ => ?_
  rw [relaidLen, Nat.zero_add, tailOf, List.length_map, List.length_range]

/-- Whatever is listed by the rows of the batch can be looked up at them. -/
theorem relaidRows_getD (hlen : marks.length = b.bs) {borrowed : ℕ}
    (hborrowed : borrowed ∈ (keptReqs marks).flatMap (tailOf b)) (ids : ℕ → ℕ) :
    ((relaidRows b marks borrowed).map fun i => ((List.range b.numRows).map ids).getD i 0) =
      (relaidRows b marks borrowed).map ids := by
  refine List.map_congr_left fun i hi => getD_map_range ids ?_ 0
  obtain ⟨r, hr, hi⟩ := List.mem_flatMap.mp ((mem_relaidRows hlen hborrowed).mp hi)
  exact tailOf_lt b (hlen ▸ List.mem_range.mp (List.mem_filter.mp hr).1) hi

end

/-- **The relayout** lays everything out by one list of rows: ids, states, auxiliary states and
lengths. -/
theorem relayTail_eq (hlayout : IsTailLayout layout) {marks : List Bool}
    (hlen : marks.length = b.bs) (hsome : (keptReqs marks).flatMap (tailOf b) ≠ []) {H : Type}
    [Inhabited H] (ids : ℕ → ℕ) (state : ℕ → H) (aux : List (ℕ → H)) :
    let t := buildLateLayerTail layout b (some marks)
    let rows := relaidRows b marks (t.tokenIndices.getD 0 0)
    let lens := (List.range b.bs).map (relaidLen b marks)
    relayTail t (some marks) ((List.range b.numRows).map ids) (t.tokenIndices.map state)
        (aux.map fun f => t.tokenIndices.map f) =
      .ok ⟨rows.map ids, rows.map state, aux.map fun f => rows.map f, lens, lens, rows⟩ := by
  have hmask : ∀ mk ∈ some marks, mk.length = b.bs := by
    rintro mk ⟨⟩
    exact hlen
  have htokens := tail_tokenIndices (b := b) hlayout hmask
  have hrows := tail_rows_map (b := b) hlayout hmask ids
  have hsub := tail_subLens (b := b) hlayout hmask
  have hnum := numReqs_iff (b := b) layout hmask
  dsimp only
  generalize buildLateLayerTail layout b (some marks) = t at htokens hrows hsub hnum ⊢
  have hkept : keptOf b (some marks) = keptReqs marks := rfl
  rw [hkept] at htokens hrows hsub hnum
  rw [relayTail]
  dsimp only
  split
  next hall =>
    -- nobody borrows
    have hmarked : ∀ r, r < b.bs → marks.getD r false = true :=
      fun r hr => mem_keptReqs.mp (hnum.mp (hall.trans hlen) r hr)
    have hfull : keptReqs marks = List.range b.bs := by
      rw [keptReqs, hlen]
      exact List.filter_eq_self.mpr fun r hr => hmarked r (List.mem_range.mp hr)
    have hrelaid : relaidRows b marks (t.tokenIndices.getD 0 0) = t.tokenIndices := by
      rw [relaidRows_of_all hmarked, htokens, hfull]
    have hlens : (List.range t.numReqs).map t.extendSeqLens =
        (List.range b.bs).map (relaidLen b marks) := by
      rw [hsub, hfull, relaidLens_of_all hmarked]
    rw [hrelaid, hlens, hrows, htokens]
  next hmixed =>
    have hmarks : marked 0 marks = keptReqs marks := by
      rw [marked_eq, keptReqs]
      simp
    have hT : t.tokenIndices ≠ [] := by rwa [htokens]
    obtain ⟨src, hsrc, hlt, hgather⟩ := relaySrc_eq hT (tailOf b) marks 0 0
      (by rw [List.drop_zero, htokens, hmarks])
    have hlens := relayLens_eq (fun r => (tailOf b r).length) marks 0
    rw [hmarks] at hsrc hlens
    have hrelaid : (src.map fun s => t.tokenIndices.getD s 0) =
        relaidRows b marks (t.tokenIndices.getD 0 0) := by
      rw [hgather, relaidRows, hlen]
      simp only [Nat.zero_add]
    rw [relaidLens_eq hlen] at hlens
    have hborrowed : t.tokenIndices.getD 0 0 ∈ (keptReqs marks).flatMap (tailOf b) := by
      rw [← htokens, List.getD_eq_getElem _ _ (List.length_pos_of_ne_nil hT)]
      exact List.getElem_mem _
    have haux : ((aux.map fun f => t.tokenIndices.map f).map fun h =>
        src.map fun s => h.getD s default) =
        aux.map fun f => (relaidRows b marks (t.tokenIndices.getD 0 0)).map f := by
      rw [List.map_map]
      refine List.map_congr_left fun f _ => ?_
      rw [Function.comp_apply, gather_map _ _ _ hlt, hrelaid]
    rw [hsub, hlens, hsrc]
    simp only [bind, Except.bind, pure, Except.pure]
    rw [hrelaid, relaidRows_getD hlen hborrowed, gather_map _ _ _ hlt, hrelaid, haux]

/-- A state that is scattered to the full batch is read back at every row of the tail. -/
theorem scatterTailRows_eq (hlayout : IsTailLayout layout) {H : Type} [Inhabited H]
    (state uninit : ℕ → H) (hmask : ∀ mk ∈ mask, mk.length = b.bs) {i : ℕ}
    (hi : i ∈ (buildLateLayerTail layout b mask).tokenIndices) :
    scatterTailRows (buildLateLayerTail layout b mask)
      ((buildLateLayerTail layout b mask).tokenIndices.map state) uninit i = state i := by
  rcases buildLateLayerTail_cases layout hmask with ⟨-, htail⟩ | ⟨-, htail⟩
  · rw [htail] at hi ⊢
    by_cases hbs : b.bs = 1
    · have htokens : (fullTail layout b).tokenIndices = tailOf b 0 := by
        rw [fullTail_tokenIndices b hlayout, hbs]
        simp
      have hstart : (fullTail layout b).contiguousStart =
          some (b.extendLens 0 - min swaWindow (b.extendLens 0)) := by
        rw [← hlayout.lens b.bs b.extendLens b.seqLens swaWindow 0 (by omega)]
        exact if_pos hbs
      rw [htokens] at hi ⊢
      obtain ⟨k, hk, rfl⟩ := List.mem_map.mp hi
      have hk := List.mem_range.mp hk
      rw [scatterTailRows, hstart]
      dsimp only
      rw [segStart_zero, Nat.zero_add, if_pos (Nat.le_add_right _ _), Nat.add_sub_cancel_left,
        tailOf, List.map_map, getD_map_range _ hk, Function.comp_apply, segStart_zero, Nat.zero_add]
    · have hstart : (fullTail layout b).contiguousStart = none := if_neg hbs
      rw [scatterTailRows, hstart]
      exact storeAll_zip_map hi
  · rw [htail] at hi ⊢
    exact storeAll_zip_map hi

/-- **The late layers' tail**. Of every batch and every marks of which one is set, the tail's
rows are the last of each request that is marked, in order; its positions, cache slots and
requests are those rows' own; and its lengths by request of the batch are zero for the
requests that are dropped only.

What comes out of the late layers is laid out for the logits processor by one list of rows:
input ids, hidden states and token indices of a row are one token's. A request that is marked
has its tail, up to its last token, another one a row, which it borrows from the tail. And the
rows of the tail are where they were in the batch when they are scattered instead. -/
theorem late_layer_tail (hlayout : IsTailLayout layout)
    (hpos : ∀ r, r < b.bs → 0 < b.extendLens r) (hle : ∀ r, r < b.bs → b.extendLens r ≤ b.seqLens r)
    {marks : List Bool} (hlen : marks.length = b.bs) (hsome : true ∈ marks)
    (outCacheLoc : ℕ → ℕ) :
    let t := buildLateLayerTail layout b (some marks)
    let tailLens := t.fullBatchTailLens.getD t.extendSeqLens
    (t.tokenIndices = (keptReqs marks).flatMap (tailOf b) ∧
      tailMetadata b t outCacheLoc = ⟨t.tokenIndices.map b.position,
        t.tokenIndices.map outCacheLoc, t.tokenIndices.map fun i => b.reqs (b.row i)⟩ ∧
      (∀ r, r < b.bs → (tailLens r = 0 ↔ marks.getD r false = false)) ∧
      segStart tailLens b.bs = t.tokenIndices.length) ∧
    ∀ (H : Type) [Inhabited H] (ids : ℕ → ℕ) (state uninit : ℕ → H) (aux : List (ℕ → H)),
      ∃ rows lens,
        relayTail t (some marks) ((List.range b.numRows).map ids) (t.tokenIndices.map state)
            (aux.map fun f => t.tokenIndices.map f) =
          .ok ⟨rows.map ids, rows.map state, aux.map fun f => rows.map f,
            (List.range b.bs).map lens, (List.range b.bs).map lens, rows⟩ ∧
        (∀ i, i ∈ rows ↔ i ∈ t.tokenIndices) ∧ rows.length = segStart lens b.bs ∧
        (∀ r, r < b.bs → marks.getD r false = false → lens r = 1) ∧
        (∀ r, r < b.bs → marks.getD r false = true →
          lens r = min swaWindow (b.extendLens r) ∧
          b.row (rows.getD (segStart lens (r + 1) - 1) 0) = r ∧
          b.position (rows.getD (segStart lens (r + 1) - 1) 0) + 1 = b.seqLens r) ∧
        ∀ i ∈ t.tokenIndices, scatterTailRows t (t.tokenIndices.map state) uninit i = state i := by
  have hmask : ∀ mk ∈ some marks, mk.length = b.bs := by
    rintro mk ⟨⟩
    exact hlen
  have hwindow : 0 < swaWindow := by decide
  have htokens := tail_tokenIndices (b := b) hlayout hmask
  have hkept : keptOf b (some marks) = keptReqs marks := rfl
  have htail : (keptReqs marks).flatMap (tailOf b) ≠ [] := by
    obtain ⟨r, hr, hget⟩ := List.getElem_of_mem hsome
    have hmark : marks.getD r false = true := by rw [List.getD_eq_getElem _ _ hr, hget]
    refine List.ne_nil_of_mem (List.mem_flatMap.mpr ⟨r, mem_keptReqs.mpr hmark,
      (mem_tailOf b (j := b.extendLens r - 1) ?_).mpr ?_⟩)
    · have := hpos r (hlen ▸ hr)
      omega
    · omega
  rw [hkept] at htokens
  intro t tailLens
  refine ⟨⟨htokens, ?_, fun r hr => ?_, ?_⟩, ?_⟩
  · rw [tailMetadata, tail_rows_map hlayout hmask, tail_rows_map hlayout hmask,
      tail_lowRatioReqIndices hlayout hmask, hkept, ← htokens]
  · have htailLen : tailLens r = tailLen b (some marks) r := tail_lens hlayout hmask hr
    have hr := hpos r hr
    rw [htailLen, tailLen, hkept]
    split
    next hmem =>
      have hmark := mem_keptReqs.mp hmem
      exact iff_of_false (by omega) (by rw [hmark]; decide)
    next hmem =>
      exact iff_of_true rfl (Bool.eq_false_iff.mpr fun hmark => hmem (mem_keptReqs.mpr hmark))
  · have hcongr : segStart tailLens b.bs = segStart (tailLen b (some marks)) b.bs :=
      segStart_congr fun r hr => tail_lens hlayout hmask hr
    rw [hcongr, segStart_tailLen hmask, hkept, htokens]
  · intro H _ ids state uninit aux
    have hborrowed : t.tokenIndices.getD 0 0 ∈ (keptReqs marks).flatMap (tailOf b) := by
      rw [← htokens, List.getD_eq_getElem _ _ (List.length_pos_of_ne_nil (htokens ▸ htail))]
      exact List.getElem_mem _
    refine ⟨relaidRows b marks (t.tokenIndices.getD 0 0), relaidLen b marks,
      relayTail_eq hlayout hlen htail ids state aux, fun i => ?_, ?_, fun r _ hmark => ?_,
      fun r hr hmark => ⟨if_pos hmark, ?_⟩, fun i hi => scatterTailRows_eq hlayout _ _ hmask hi⟩
    · rw [mem_relaidRows hlen hborrowed, ← htokens]
    · exact length_flatMap_range fun r _ => length_relaid b marks _ r
    · rw [relaidLen, hmark]
      rfl
    · have hr' := hpos r hr
      obtain ⟨hrow, hposition⟩ := row_position (b := b) (j := b.extendLens r - 1) hr (by omega)
      rw [relaidRows_last hr hr' hmark]
      refine ⟨hrow, ?_⟩
      have := hle r hr
      omega

end

/-! ## Three requests -/

/-- A batch of three, of which the second is dropped. -/
def droppedSecond : ExtendBatch where
  bs := 3
  reqs r := 7 + r
  extendLens r := [200, 5, 3].getD r 0
  seqLens r := [200, 9, 4].getD r 0
  lastChunkMask := some [true, false, true]
  returnLogprob := false
  logprobStartLens := fun _ => 0
  captureFull := false

/-- The tail of the first and the third, and its rows relaid. -/
theorem late_layer_tail_dropped :
    (buildLateLayerTail lastRows droppedSecond (some [true, false, true])).tokenIndices =
      (keptReqs [true, false, true]).flatMap (tailOf droppedSecond) ∧
    ∃ out, relayTail (buildLateLayerTail lastRows droppedSecond (some [true, false, true]))
      (some [true, false, true]) ((List.range droppedSecond.numRows).map id)
      ((buildLateLayerTail lastRows droppedSecond (some [true, false, true])).tokenIndices.map id)
      [] = .ok out := by
  have hpos : ∀ r, r < droppedSecond.bs → 0 < droppedSecond.extendLens r := by decide
  have hle : ∀ r, r < droppedSecond.bs → droppedSecond.extendLens r ≤ droppedSecond.seqLens r := by
    decide
  have hlen : [true, false, true].length = droppedSecond.bs := rfl
  obtain ⟨⟨htokens, -⟩, hrelay⟩ :=
    late_layer_tail lastRows_isTailLayout hpos hle hlen (by decide) id
  obtain ⟨rows, lens, hrun, -⟩ := hrelay ℕ id id id []
  exact ⟨htokens, _, hrun⟩

end LuzServing

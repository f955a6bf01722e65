import Mathlib.Tactic

/-!
# Top-k

What a top-k routine promises, whatever it does with ties: as many places as it is asked for,
none twice, and none below a place that it leaves out (`IsTopk`). So it takes all of a class
of places that is above the rest and not too large (`IsTopk.mem_of_card_le`), and any two
routines take the same places up to ties (`IsTopk.eqUpToTies`). A routine that writes a row of a
table pads it with `-1`; readers want the places ascending and the padding last (`layOut_eq`).
-/

namespace LuzServing

universe u

variable {S : Type u} [LinearOrder S]

/-- `idx` are `k` places of the best scores among the first `n`. -/
structure IsTopk (score : ℕ → S) (n k : ℕ) (idx : List ℕ) : Prop where
  /-- none twice -/
  nodup : idx.Nodup
  /-- places -/
  lt : ∀ i ∈ idx, i < n
  /-- as many as asked for, or all -/
  length : idx.length = min k n
  /-- none is below one left out -/
  best : ∀ i ∈ idx, ∀ j, j < n → j ∉ idx → score j ≤ score i

/-- A top-k routine: what it returns depends on the scores of the places only. -/
structure TopkOp (S : Type u) [LinearOrder S] where
  /-- scores, number of places, `k` -/
  run : (ℕ → S) → ℕ → ℕ → List ℕ
  /-- it returns top-k places -/
  spec : ∀ score n k, IsTopk score n k (run score n k)
  /-- from the scores -/
  congr : ∀ score score' n k, (∀ i, i < n → score i = score' i) →
    run score n k = run score' n k

/-- A top-k routine that writes a row of `k` entries, `none` for padding, anywhere. -/
structure RaggedTopk (S : Type u) [LinearOrder S] where
  /-- scores, number of places, `k` -/
  run : (ℕ → S) → ℕ → ℕ → List (Option ℕ)
  /-- a row -/
  length : ∀ score n k, (run score n k).length = k
  /-- it holds top-k places -/
  spec : ∀ score n k, IsTopk score n k ((run score n k).filterMap id)
  /-- from the scores -/
  congr : ∀ score score' n k, (∀ i, i < n → score i = score' i) →
    run score n k = run score' n k

variable {score : ℕ → S} {n k : ℕ} {idx : List ℕ}

/-- All places of a class that is above the rest are taken, when there are not more than
`k`. -/
theorem IsTopk.mem_of_card_le (h : IsTopk score n k idx) {P : ℕ → Prop} [DecidablePred P]
    (habove : ∀ i j, i < n → j < n → P i → ¬ P j → score j < score i)
    (hcard : ((Finset.range n).filter P).card ≤ k) {i : ℕ} (hi : i < n) (hP : P i) : i ∈ idx := by
  by_contra hmem
  -- everything taken is at least as good as `i`, so it is of the class, and there are too many
  have hclass : insert i idx.toFinset ⊆ (Finset.range n).filter P := by
    intro j hj
    rcases Finset.mem_insert.mp hj with rfl | hj
    · exact Finset.mem_filter.mpr ⟨Finset.mem_range.mpr hi, hP⟩
    · have hj := List.mem_toFinset.mp hj
      have hlt := h.lt j hj
      refine Finset.mem_filter.mpr ⟨Finset.mem_range.mpr hlt, ?_⟩
      by_contra hPj
      exact absurd (h.best j hj i hi hmem) (not_le.mpr (habove i j hi hlt hP hPj))
  have hle := Finset.card_le_card hclass
  rw [Finset.card_insert_of_notMem (by rwa [List.mem_toFinset]),
    List.toFinset_card_of_nodup h.nodup, h.length] at hle
  have hsub : (Finset.range n).filter P ⊆ Finset.range n := Finset.filter_subset _ _
  have hn := Finset.card_le_card hsub
  rw [Finset.card_range] at hn
  omega

/-- All places are taken, when there are not more than `k`. -/
theorem IsTopk.toFinset_eq (h : IsTopk score n k idx) (hk : n ≤ k) :
    idx.toFinset = Finset.range n := by
  refine Finset.eq_of_subset_of_card_le (fun i hi => ?_) ?_
  · exact Finset.mem_range.mpr (h.lt i (List.mem_toFinset.mp hi))
  · rw [Finset.card_range, List.toFinset_card_of_nodup h.nodup, h.length, min_eq_right hk]

/-- Two sets of places are the same but for places of equal score. -/
structure EqUpToTies {T : Type*} (score : ℕ → T) (s t : Finset ℕ) : Prop where
  /-- they are as large -/
  card : s.card = t.card
  /-- what one has and the other does not scores the same -/
  ties : ∀ i ∈ s \ t, ∀ j ∈ t \ s, score i = score j

/-- A set and itself. -/
theorem EqUpToTies.rfl {T : Type*} {score : ℕ → T} {s : Finset ℕ} : EqUpToTies score s s :=
  ⟨Eq.refl _, fun i hi => absurd hi (by rw [sdiff_self]; exact Finset.notMem_empty i)⟩

/-- Whatever takes the `k` best places, it takes the same up to ties. -/
theorem IsTopk.eqUpToTies {idx' : List ℕ} (h : IsTopk score n k idx)
    (h' : IsTopk score n k idx') : EqUpToTies score idx.toFinset idx'.toFinset := by
  refine ⟨?_, fun i hi j hj => ?_⟩
  · rw [List.toFinset_card_of_nodup h.nodup, List.toFinset_card_of_nodup h'.nodup, h.length,
      h'.length]
  · rw [Finset.mem_sdiff, List.mem_toFinset, List.mem_toFinset] at hi hj
    exact le_antisymm (h'.best j hj.1 i (h.lt i hi.1) hi.2) (h.best i hi.1 j (h'.lt j hj.1) hj.2)

/-- So do those of them whose score is of a kind. -/
theorem EqUpToTies.filter {T : Type*} {score : ℕ → T} {s t : Finset ℕ}
    (h : EqUpToTies score s t) (P : T → Prop) [DecidablePred P] :
    EqUpToTies score (s.filter fun i => P (score i)) (t.filter fun i => P (score i)) := by
  have hsdiff : ∀ a b : Finset ℕ, (a.filter fun i => P (score i)) \
      (b.filter fun i => P (score i)) = (a \ b).filter fun i => P (score i) := by
    intro a b
    ext i
    simp only [Finset.mem_sdiff, Finset.mem_filter]
    tauto
  have hcard : (s \ t).card = (t \ s).card := Finset.card_sdiff_comm h.card
  refine ⟨Finset.card_sdiff_eq_card_sdiff_iff.mp ?_, fun i hi j hj => ?_⟩
  · rw [hsdiff, hsdiff]
    -- the places that differ all score the same, so all are of the kind or none is
    rcases (s \ t).eq_empty_or_nonempty with hempty | ⟨i, hi⟩
    · have hempty' : t \ s = ∅ := by
        rw [← Finset.card_eq_zero, ← hcard, hempty, Finset.card_empty]
      rw [hempty, hempty']
    · obtain ⟨j, hj⟩ : (t \ s).Nonempty := by
        rw [← Finset.card_pos, ← hcard, Finset.card_pos]
        exact ⟨i, hi⟩
      have hs : ∀ i' ∈ s \ t, score i' = score j := fun i' hi' => h.ties i' hi' j hj
      have ht : ∀ j' ∈ t \ s, score j' = score j := fun j' hj' =>
        (h.ties i hi j' hj').symm.trans (hs i hi)
      by_cases hP : P (score j)
      · rw [Finset.filter_true_of_mem fun i' hi' => (hs i' hi').symm ▸ hP,
          Finset.filter_true_of_mem fun j' hj' => (ht j' hj').symm ▸ hP]
        exact hcard
      · rw [Finset.filter_false_of_mem fun i' hi' => (hs i' hi').symm ▸ hP,
          Finset.filter_false_of_mem fun j' hj' => (ht j' hj').symm ▸ hP]
  · rw [hsdiff] at hi hj
    exact h.ties i (Finset.mem_of_mem_filter i hi) j (Finset.mem_of_mem_filter j hj)

/-- Only the scores of the places in the sets matter. -/
theorem EqUpToTies.congr {T T' : Type*} {score : ℕ → T} {score' : ℕ → T'} {s t : Finset ℕ}
    (h : EqUpToTies score s t)
    (hscore : ∀ i ∈ s ∪ t, ∀ j ∈ s ∪ t, score i = score j → score' i = score' j) :
    EqUpToTies score' s t := by
  refine ⟨h.card, fun i hi j hj => hscore i ?_ j ?_ (h.ties i hi j hj)⟩
  · exact Finset.mem_union_left _ (Finset.mem_sdiff.mp hi).1
  · exact Finset.mem_union_right _ (Finset.mem_sdiff.mp hj).1

/-- Sorting by score, best first, and taking `k`. -/
def sortTopk (S : Type u) [LinearOrder S] : TopkOp S where
  run score n k := ((List.range n).insertionSort fun i j => score j ≤ score i).take k
  spec score n k := by
    have hperm := List.perm_insertionSort (fun i j => score j ≤ score i) (List.range n)
    have hsorted := List.pairwise_insertionSort (fun i j => score j ≤ score i) (List.range n)
    have hnodup := (hperm.nodup_iff).mpr List.nodup_range
    generalize (List.range n).insertionSort (fun i j => score j ≤ score i) = l at *
    refine ⟨hnodup.sublist (List.take_sublist k l), fun i hi => ?_, ?_, fun i hi j hj hmem => ?_⟩
    · exact List.mem_range.mp (hperm.mem_iff.mp (List.mem_of_mem_take hi))
    · rw [List.length_take, hperm.length_eq, List.length_range]
    · have hdrop : j ∈ l.drop k := by
        have hj := hperm.mem_iff.mpr (List.mem_range.mpr hj)
        rw [← List.take_append_drop k l] at hj
        exact (List.mem_append.mp hj).resolve_left hmem
      rw [← List.take_append_drop k l] at hsorted
      exact (List.pairwise_append.mp hsorted).2.2 i hi j hdrop
  congr score score' n k h := by
    have hsame : ∀ i ∈ List.range n, ∀ j ∈ List.range n,
        score j ≤ score i ↔ score' (id j) ≤ score' (id i) := by
      intro i hi j hj
      rw [h i (List.mem_range.mp hi), h j (List.mem_range.mp hj)]
      rfl
    have hmap := List.map_insertionSort (fun i j => score j ≤ score i)
      (fun i j => score' j ≤ score' i) id (List.range n) hsame
    rw [List.map_id, List.map_id] at hmap
    rw [hmap]

/-- Such a routine, with the padding last. -/
def TopkOp.ragged (op : TopkOp S) : RaggedTopk S where
  run score n k := (op.run score n k).map some ++ List.replicate (k - min k n) none
  length score n k := by
    rw [List.length_append, List.length_map, (op.spec score n k).length, List.length_replicate]
    omega
  spec score n k := by
    rw [List.filterMap_append, List.filterMap_map, List.filterMap_replicate_of_none rfl,
      List.append_nil]
    simpa using op.spec score n k
  congr score score' n k h := by rw [op.congr score score' n k h]

/-! ## Ascending, padding last -/

/-- `row.masked_fill(row < 0, unselected).sort()`: `⊤` is the largest integer, above all
indices. -/
def layOut (row : List ℤ) : List (WithTop ℤ) :=
  (row.map fun x : ℤ => if x < 0 then ⊤ else (x : WithTop ℤ)).insertionSort (· ≤ ·)

/-- The entries of a row come out ascending, and then the padding. -/
theorem layOut_eq {row : List ℤ} {chosen : List ℕ} (hasc : chosen.Pairwise (· ≤ ·))
    (hperm : (chosen.map fun c : ℕ => (c : ℤ)).Perm (row.filter fun x : ℤ => 0 ≤ x)) :
    layOut row = (chosen.map fun c : ℕ => ((c : ℤ) : WithTop ℤ)) ++
      List.replicate (row.length - chosen.length) ⊤ := by
  have hlen : (row.filter fun x : ℤ => decide (0 ≤ x)).length = chosen.length := by
    rw [← hperm.length_eq, List.length_map]
  have hsplit := List.filter_append_perm (fun x : ℤ => decide (0 ≤ x)) row
  -- the entries are the chosen places, the others are padding
  have hkeep : (row.filter fun x : ℤ => decide (0 ≤ x)).map
      (fun x : ℤ => if x < 0 then ⊤ else (x : WithTop ℤ)) =
      (row.filter fun x : ℤ => decide (0 ≤ x)).map fun x : ℤ => (x : WithTop ℤ) := by
    refine List.map_congr_left fun x hx => if_neg ?_
    exact not_lt.mpr (of_decide_eq_true (List.mem_filter.mp hx).2)
  have hpad : (row.filter fun x : ℤ => !decide (0 ≤ x)).map
      (fun x : ℤ => if x < 0 then ⊤ else (x : WithTop ℤ)) =
      List.replicate (row.length - chosen.length) ⊤ := by
    rw [List.eq_replicate_iff, List.length_map]
    refine ⟨?_, fun y hy => ?_⟩
    · have hall := hsplit.length_eq
      rw [List.length_append] at hall
      omega
    · obtain ⟨x, hx, rfl⟩ := List.mem_map.mp hy
      have hneg : ¬ 0 ≤ x := by simpa using (List.mem_filter.mp hx).2
      exact if_pos (not_le.mp hneg)
  have hsame : (layOut row).Perm ((chosen.map fun c : ℕ => ((c : ℤ) : WithTop ℤ)) ++
      List.replicate (row.length - chosen.length) ⊤) := by
    refine (List.perm_insertionSort _ _).trans ((hsplit.symm.map _).trans ?_)
    rw [List.map_append, hkeep, hpad]
    refine List.Perm.append_right _ ?_
    have hchosen := hperm.symm.map fun x : ℤ => (x : WithTop ℤ)
    rwa [List.map_map] at hchosen
  refine hsame.eq_of_pairwise' (List.pairwise_insertionSort _ _) ?_
  refine List.pairwise_append.mpr ⟨?_, List.pairwise_replicate.mpr (.inr le_rfl), ?_⟩
  · refine List.pairwise_map.mpr (hasc.imp fun h => ?_)
    exact WithTop.coe_le_coe.mpr (by exact_mod_cast h)
  · intro x _ y hy
    rw [List.eq_of_mem_replicate hy]
    exact le_top

end LuzServing

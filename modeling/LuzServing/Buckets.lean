import LuzServing.Segments

/-!
# Sorting into buckets

A list that is sorted by a key is its buckets, one after the other (`flatMap_bucket`), and a
stable sort keeps each bucket as it was (`filter_mergeSort`). So a stable sort by the key lists
the buckets of the unsorted list (`mergeSort_eq_buckets`), and the place of an element in it is
its place in its bucket, behind the buckets before.
-/

namespace LuzServing

universe u

variable {α : Type u} {key : α → ℕ}

/-- In a list that is sorted by a key, the elements of smaller keys come first. -/
theorem filter_lt_append {l : List α} (n : ℕ) (h : l.Pairwise fun a b => key a ≤ key b) :
    l.filter (fun a => key a < n) ++ l.filter (fun a => ¬ key a < n) = l := by
  induction l with
  | nil => rfl
  | cons a l ih =>
    obtain ⟨hhead, htail⟩ := List.pairwise_cons.mp h
    by_cases ha : key a < n
    · rw [List.filter_cons_of_pos (by simpa using ha), List.filter_cons_of_neg (by simpa using ha),
        List.cons_append, ih htail]
    · have hge : ∀ b ∈ l, ¬ key b < n := fun b hb hlt => ha ((hhead b hb).trans_lt hlt)
      have hnone : l.filter (fun a => key a < n) = [] :=
        List.filter_eq_nil_iff.mpr fun b hb => by simpa using hge b hb
      have hall : l.filter (fun a => ¬ key a < n) = l :=
        List.filter_eq_self.mpr fun b hb => by simpa using hge b hb
      rw [List.filter_cons_of_neg (by simpa using ha), List.filter_cons_of_pos (by simpa using ha),
        hnone, hall, List.nil_append]

/-- A list that is sorted by a key is its buckets, one after the other. -/
theorem flatMap_bucket {l : List α} {n : ℕ} (h : l.Pairwise fun a b => key a ≤ key b)
    (hlt : ∀ a ∈ l, key a < n) :
    ((List.range n).flatMap fun r => l.filter fun a => key a = r) = l := by
  induction n generalizing l with
  | zero =>
    cases l with
    | nil => rfl
    | cons a l => exact absurd (hlt a (List.mem_cons_self ..)) (Nat.not_lt_zero _)
  | succ n ih =>
    have hlow := ih (l := l.filter fun a => key a < n) (h.sublist List.filter_sublist)
      fun a ha => by simpa using (List.mem_filter.mp ha).2
    have hbuckets : ((List.range n).flatMap fun r => l.filter fun a => key a = r) =
        l.filter fun a => key a < n := by
      rw [← hlow]
      refine List.flatMap_congr fun r hr => ?_
      rw [List.filter_filter]
      refine List.filter_congr fun a _ => ?_
      have hr := List.mem_range.mp hr
      by_cases ha : key a = r
      · simp [ha, hr]
      · simp [ha]
    have hlast : (l.filter fun a => key a = n) = l.filter fun a => ¬ key a < n := by
      refine List.filter_congr fun a ha => ?_
      have := hlt a ha
      rw [decide_eq_decide]
      omega
    rw [List.range_succ, List.flatMap_append, hbuckets]
    simp only [List.flatMap_cons, List.flatMap_nil, List.append_nil]
    rw [hlast, filter_lt_append n h]

/-- A stable sort by a key leaves the elements of one key in the order that they had. -/
theorem filter_mergeSort (l : List α) (r : ℕ) :
    ((l.mergeSort fun a b => key a ≤ key b).filter fun a => key a = r) =
      l.filter fun a => key a = r := by
  have hbucket : (l.filter fun a => key a = r).Pairwise fun a b => decide (key a ≤ key b) := by
    refine List.pairwise_of_forall_mem_list fun a ha b hb => ?_
    have ha := of_decide_eq_true (List.mem_filter.mp ha).2
    have hb := of_decide_eq_true (List.mem_filter.mp hb).2
    exact decide_eq_true (ha.trans hb.symm).le
  have hsub := List.sublist_mergeSort (fun a b c hab hbc => by simp at *; omega)
    (fun a b => by simp; omega) hbucket (List.filter_sublist (l := l))
  have hfilter := hsub.filter fun a => decide (key a = r)
  rw [List.filter_filter] at hfilter
  simp only [Bool.and_self] at hfilter
  refine (hfilter.eq_of_length ?_).symm
  exact ((List.mergeSort_perm l _).filter _).length_eq.symm

/-- **A stable sort by a key** lists the buckets one after the other, each in its old order. -/
theorem mergeSort_eq_buckets {l : List α} {n : ℕ} (hlt : ∀ a ∈ l, key a < n) :
    (l.mergeSort fun a b => key a ≤ key b) =
      (List.range n).flatMap fun r => l.filter fun a => key a = r := by
  have hsorted : (l.mergeSort fun a b => key a ≤ key b).Pairwise fun a b => key a ≤ key b := by
    have h : (l.mergeSort fun a b => key a ≤ key b).Pairwise fun a b =>
        decide (key a ≤ key b) = true :=
      List.pairwise_mergeSort (fun a b c hab hbc => by simp at *; omega)
        (fun a b => by simp; omega) l
    exact h.imp fun hab => of_decide_eq_true hab
  rw [← flatMap_bucket hsorted fun a ha => hlt a (List.mem_mergeSort.mp ha)]
  exact List.flatMap_congr fun r _ => filter_mergeSort l r

/-- The lengths of the buckets add up to the length of the list, since each element is in one. -/
theorem sum_length_buckets {l : List α} {n : ℕ} (hlt : ∀ a ∈ l, key a < n) :
    ((List.range n).map fun r => (l.filter fun a => key a = r).length).sum = l.length := by
  rw [← (List.mergeSort_perm l fun a b => key a ≤ key b).length_eq, mergeSort_eq_buckets hlt,
    List.length_flatMap]

/-! ## Counting -/

/-- `torch.bincount` -/
def bincount (xs : List ℕ) (minlength : ℕ) : List ℕ :=
  (List.range (max minlength (xs.foldl (fun m x => max m (x + 1)) 0))).map fun v => xs.count v

/-- Of numbers below the least length, the counts are as many. -/
theorem bincount_eq {xs : List ℕ} {n : ℕ} (hlt : ∀ x ∈ xs, x < n) :
    bincount xs n = (List.range n).map fun v => xs.count v := by
  have hfold : ∀ m, m ≤ n → xs.foldl (fun m x => max m (x + 1)) m ≤ n := by
    induction xs with
    | nil => exact fun m hm => hm
    | cons x xs ih =>
      intro m hm
      exact ih (fun y hy => hlt y (List.mem_cons_of_mem x hy)) _
        (max_le hm (hlt x (List.mem_cons_self ..)))
  rw [bincount, max_eq_left (hfold 0 (Nat.zero_le n))]

/-- The counts of the numbers below a bound add up to how many numbers there are. -/
theorem sum_bincount {xs : List ℕ} {n : ℕ} (hlt : ∀ x ∈ xs, x < n) :
    (bincount xs n).sum = xs.length := by
  have hbuckets : ((List.range n).map fun r => (xs.filter fun x => x = r).length).sum = xs.length :=
    sum_length_buckets hlt
  rw [bincount_eq hlt, ← hbuckets]
  refine congrArg List.sum (List.map_congr_left fun v _ => ?_)
  rw [List.count_eq_length_filter]
  rfl

end LuzServing

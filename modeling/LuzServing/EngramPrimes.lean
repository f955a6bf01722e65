import LuzServing.EngramLayout
import Mathlib.Data.Nat.Nth

/-!
# The primes of the layout

However often the search starts again at the vocabulary, the primes that were seen are at
every point the first ones above it (`Seen`): a search that starts below them passes over
them all and finds the next. So the columns have, in their order, the consecutive primes
from the vocabulary on (`build_primes`), and every search ends, since there are infinitely
many primes.
-/

namespace LuzServing

/-! ## Repeated steps -/

section

variable {α : Type*} {σ : Type*} {step : σ → Option (α × σ)}

/-- **The rule of repeated steps**: steps that each take an invariant from `K` to `K + w`, as
long as that is no more than `T`, and return what `f` says, return it one after the other. -/
theorem repeatStep_rule {Inv : ℕ → σ → Prop} {w T : ℕ} {f : ℕ → α}
    (hstep : ∀ K s, Inv K s → K + w ≤ T → ∃ s', step s = some (f K, s') ∧ Inv (K + w) s')
    (n : ℕ) {K : ℕ} {s : σ} (hs : Inv K s) (hT : K + n * w ≤ T) :
    ∃ s', repeatStep step n s = some ((List.range n).map fun j => f (K + j * w), s') ∧
      Inv (K + n * w) s' := by
  induction n generalizing K s with
  | zero =>
    rw [Nat.zero_mul, Nat.add_zero]
    exact ⟨s, rfl, hs⟩
  | succ n ih =>
    rw [Nat.succ_mul] at hT
    obtain ⟨s₁, hs₁, hinv₁⟩ := hstep K s hs (by omega)
    obtain ⟨s₂, hs₂, hinv₂⟩ := ih hinv₁ (by omega)
    refine ⟨s₂, ?_, ?_⟩
    · rw [repeatStep, hs₁]
      dsimp only [Option.bind_eq_bind, Option.bind_some]
      rw [hs₂, List.range_succ_eq_map, List.map_cons, List.map_map, Nat.zero_mul, Nat.add_zero]
      refine congrArg (fun xs => some (f K :: xs, s₂)) (List.map_congr_left fun j _ => ?_)
      dsimp only [Function.comp_apply]
      rw [Nat.succ_mul]
      congr 1
      omega
    · rw [Nat.succ_mul]
      have hadd : K + (n * w + w) = K + w + n * w := by omega
      rwa [hadd]

end

/-- A table that is numbered row after row, row after row. -/
theorem flatten_map_range {α : Type*} (f : ℕ → α) (n w : ℕ) :
    ((List.range n).map fun i => (List.range w).map fun j => f (i * w + j)).flatten =
      (List.range (n * w)).map f := by
  induction n with
  | zero => rw [Nat.zero_mul]; rfl
  | succ n ih =>
    rw [List.range_succ, List.map_append, List.flatten_append, ih, Nat.succ_mul, List.range_add,
      List.map_append, List.map_map]
    simp [Function.comp_def]

/-! ## The sequence of the primes -/

/-- The `k`-th prime from the vocabulary on. -/
noncomputable def primeFrom (vocabSize : ℤ) (k : ℕ) : ℤ :=
  (Nat.nth (fun q => q.Prime ∧ vocabSize - 1 < (q : ℤ)) k : ℕ)

section

variable {vocabSize : ℤ}

/-- There are infinitely many primes that are not below the vocabulary size, so the sequence of them
never ends. -/
theorem infinite_primes (vocabSize : ℤ) :
    {q : ℕ | q.Prime ∧ vocabSize - 1 < (q : ℤ)}.Infinite := by
  refine Set.infinite_of_forall_exists_gt fun n => ?_
  obtain ⟨p, hle, hp⟩ := Nat.exists_infinite_primes (n + vocabSize.toNat + 1)
  exact ⟨p, ⟨hp, by omega⟩, by omega⟩

/-- Each number of the sequence is a prime, and it is not below the vocabulary size. -/
theorem primeFrom_prime (k : ℕ) :
    IsPrime (primeFrom vocabSize k) ∧ vocabSize - 1 < primeFrom vocabSize k := by
  obtain ⟨hp, hlt⟩ := Nat.nth_mem_of_infinite (infinite_primes vocabSize) k
  exact ⟨⟨_, hp, rfl⟩, hlt⟩

/-- The numbers of the sequence ascend strictly, so their order is the order of their places. -/
theorem primeFrom_lt {k k' : ℕ} : primeFrom vocabSize k < primeFrom vocabSize k' ↔ k < k' := by
  rw [primeFrom, primeFrom, Int.ofNat_lt]
  exact (Nat.nth_strictMono (infinite_primes vocabSize)).lt_iff_lt

/-- The sequence leaves out no prime: each one from the vocabulary size on has a place in it. -/
theorem exists_primeFrom {q : ℤ} (hq : IsPrime q) (hlt : vocabSize - 1 < q) :
    ∃ k, primeFrom vocabSize k = q := by
  obtain ⟨p, hp, rfl⟩ := hq
  have hmem : p ∈ Set.range (Nat.nth fun q : ℕ => q.Prime ∧ vocabSize - 1 < (q : ℤ)) := by
    rw [Nat.range_nth_of_infinite (infinite_primes vocabSize)]
    exact ⟨hp, hlt⟩
  obtain ⟨k, hk⟩ := hmem
  exact ⟨k, congrArg Nat.cast hk⟩

/-- The primes that were seen are the first `K`. -/
def Seen (vocabSize : ℤ) (K : ℕ) (seen : List ℤ) : Prop :=
  ∀ q, q ∈ seen ↔ ∃ k, k < K ∧ primeFrom vocabSize k = q

/-- When the first primes of the sequence have been seen and the next one is put to them, one more
has been seen. -/
theorem Seen.cons {K : ℕ} {seen : List ℤ} (h : Seen vocabSize K seen) :
    Seen vocabSize (K + 1) (primeFrom vocabSize K :: seen) := by
  intro q
  rw [List.mem_cons, h q]
  constructor
  · rintro (rfl | ⟨k, hk, rfl⟩)
    · exact ⟨K, Nat.lt_succ_self K, rfl⟩
    · exact ⟨k, hk.trans (Nat.lt_succ_self K), rfl⟩
  · rintro ⟨k, hk, rfl⟩
    rcases Nat.lt_succ_iff_lt_or_eq.mp hk with hlt | rfl
    · exact .inr ⟨k, hlt, rfl⟩
    · exact .inl rfl

/-! ## The search -/

variable {isprime : ℤ → Bool}

/-- The loop stops at the first candidate that is a prime not seen, when there is fuel to
get there. -/
theorem nextPrimeLoop_eq {seen : List ℤ} {p : ℤ} (hp : isprime p = true) (hnot : p ∉ seen)
    {fuel : ℕ} {candidate : ℤ} (hle : candidate ≤ p) (hfuel : p - candidate < fuel)
    (hskip : ∀ q, candidate ≤ q → q < p → isprime q = true → q ∈ seen) :
    nextPrimeLoop isprime seen fuel candidate = some p := by
  induction fuel generalizing candidate with
  | zero => exact absurd hfuel (by omega)
  | succ fuel ih =>
    rw [nextPrimeLoop]
    rcases hle.eq_or_lt with rfl | hlt
    · rw [hp, decide_eq_false hnot]
      rfl
    · have hgo : (!isprime candidate || decide (candidate ∈ seen)) = true := by
        cases hc : isprime candidate with
        | false => rfl
        | true => simpa using hskip candidate le_rfl hlt hc
      rw [hgo, if_pos rfl]
      exact ih (by omega) (by push_cast at hfuel; omega) fun q hq => hskip q (by omega)

/-- **The search finds the next prime**, wherever it starts, when all primes up to there were
seen. -/
theorem findNextPrime_eq (hprime : IsPrimeTest isprime) {K fuel : ℕ} {seen : List ℤ}
    (hseen : Seen vocabSize K seen) {start : ℤ} (hstart : vocabSize - 1 ≤ start)
    (hpassed : ∀ k, primeFrom vocabSize k ≤ start → k < K)
    (hfuel : primeFrom vocabSize K - vocabSize < fuel) :
    findNextPrime isprime fuel start seen = some (primeFrom vocabSize K) := by
  have hnot : primeFrom vocabSize K ∉ seen := by
    intro hmem
    obtain ⟨k, hk, heq⟩ := (hseen _).mp hmem
    have hlt : primeFrom vocabSize k < primeFrom vocabSize K := primeFrom_lt.mpr hk
    omega
  have hlt : start < primeFrom vocabSize K := by
    by_contra hle
    exact absurd (hpassed K (not_lt.mp hle)) (lt_irrefl K)
  refine nextPrimeLoop_eq ((hprime _).mpr (primeFrom_prime K).1) hnot hlt (by omega) ?_
  intro q hq hqlt hqp
  obtain ⟨k, rfl⟩ := exists_primeFrom ((hprime q).mp hqp) (by omega : vocabSize - 1 < q)
  exact (hseen _).mpr ⟨k, primeFrom_lt.mp hqlt, rfl⟩

/-! ## The three loops -/

variable {fuel T : ℕ}

/-- A head that searches on gets the next prime of the sequence, given fuel enough to reach it. -/
theorem headStep_eq (hprime : IsPrimeTest isprime)
    (hfuel : primeFrom vocabSize T - vocabSize < fuel) (K : ℕ) (s : ℤ × List ℤ)
    (hs : Seen vocabSize K s.2 ∧ vocabSize - 1 ≤ s.1 ∧ ∀ k, primeFrom vocabSize k ≤ s.1 → k < K)
    (hT : K + 1 ≤ T) :
    ∃ s', headStep isprime fuel s = some (primeFrom vocabSize K, s') ∧
      (Seen vocabSize (K + 1) s'.2 ∧ vocabSize - 1 ≤ s'.1 ∧
        ∀ k, primeFrom vocabSize k ≤ s'.1 → k < K + 1) := by
  obtain ⟨hseen, hstart, hpassed⟩ := hs
  have hmono : primeFrom vocabSize K < primeFrom vocabSize T := primeFrom_lt.mpr hT
  refine ⟨(primeFrom vocabSize K, primeFrom vocabSize K :: s.2), ?_, hseen.cons,
    (primeFrom_prime K).2.le, fun k hk => ?_⟩
  · rw [headStep, findNextPrime_eq hprime hseen hstart hpassed (by omega)]
    rfl
  · by_contra hlt
    exact absurd (primeFrom_lt.mpr (Nat.lt_of_succ_le (not_lt.mp hlt))) (not_lt.mpr hk)

/-- An n-gram size gets the next primes, one for each head. -/
theorem ngramStep_eq (hprime : IsPrimeTest isprime)
    (hfuel : primeFrom vocabSize T - vocabSize < fuel) (nHeads K : ℕ) (seen : List ℤ)
    (hseen : Seen vocabSize K seen) (hT : K + nHeads ≤ T) :
    ∃ seen', ngramStep isprime fuel nHeads vocabSize seen =
        some ((List.range nHeads).map fun j => primeFrom vocabSize (K + j), seen') ∧
      Seen vocabSize (K + nHeads) seen' := by
  have hnone : ∀ k, primeFrom vocabSize k ≤ vocabSize - 1 → k < K := fun k hk =>
    absurd (primeFrom_prime k).2 (not_lt.mpr hk)
  obtain ⟨s', hs', hinv⟩ := repeatStep_rule (headStep_eq hprime hfuel) nHeads (K := K)
    (s := (vocabSize - 1, seen)) ⟨hseen, le_rfl, hnone⟩ (by omega)
  simp only [Nat.mul_one] at hs' hinv
  refine ⟨s'.2, ?_, hinv.1⟩
  rw [ngramStep, hs']
  rfl

/-- A layer gets the next primes, for each n-gram size one for each head. -/
theorem layerStep_eq (hprime : IsPrimeTest isprime)
    (hfuel : primeFrom vocabSize T - vocabSize < fuel) (nHeads nSizes K : ℕ) (seen : List ℤ)
    (hseen : Seen vocabSize K seen) (hT : K + nSizes * nHeads ≤ T) :
    ∃ seen', repeatStep (ngramStep isprime fuel nHeads vocabSize) nSizes seen =
        some ((List.range nSizes).map fun i =>
          (List.range nHeads).map fun j => primeFrom vocabSize (K + i * nHeads + j), seen') ∧
      Seen vocabSize (K + nSizes * nHeads) seen' :=
  repeatStep_rule (ngramStep_eq hprime hfuel nHeads) nSizes hseen hT

/-- **The primes of the layout**: the column of layer `l`, n-gram size `i` and head `j` has
the prime of its place in the sequence. -/
theorem build_eq (hprime : IsPrimeTest isprime) (layerIds numEmbeddings : List ℕ)
    (maxNgramSize nHeads headDim : ℕ)
    (hfuel : primeFrom vocabSize (layerIds.length * ((maxNgramSize - 1) * nHeads)) - vocabSize <
      fuel) :
    EngramLayout.build isprime fuel layerIds numEmbeddings maxNgramSize nHeads headDim vocabSize =
      some { maxNgramSize, layerIds, numEmbeddings, nHeads, headDim
             primes := (List.range layerIds.length).map fun l =>
               (List.range (maxNgramSize - 1)).map fun i => (List.range nHeads).map fun j =>
                 primeFrom vocabSize (l * ((maxNgramSize - 1) * nHeads) + i * nHeads + j) } := by
  obtain ⟨s', hs', -⟩ := repeatStep_rule
    (fun K s => layerStep_eq hprime hfuel nHeads (maxNgramSize - 1) K s) layerIds.length
    (K := 0) (s := []) (fun q => by simp) (by omega)
  rw [EngramLayout.build, hs']
  simp only [Nat.zero_add]
  rfl

/-- **Consecutive primes**: in ascending order, from the vocabulary on, none passed over. -/
structure ConsecutivePrimes (vocabSize : ℤ) (primes : List ℤ) : Prop where
  /-- in ascending order, so none is repeated -/
  ascending : primes.Pairwise (· < ·)
  /-- primes greater than `vocab_size - 1` -/
  prime : ∀ p ∈ primes, IsPrime p ∧ vocabSize - 1 < p
  /-- all of them up to the last -/
  none_skipped : ∀ p ∈ primes, ∀ q, IsPrime q → vocabSize - 1 < q → q < p → q ∈ primes

/-- The first numbers of the sequence are primes in ascending order with no prime left out between
them. -/
theorem consecutivePrimes_map_range (vocabSize : ℤ) (n : ℕ) :
    ConsecutivePrimes vocabSize ((List.range n).map (primeFrom vocabSize)) where
  ascending := by
    refine List.pairwise_map.mpr (List.pairwise_lt_range.imp fun hlt => ?_)
    exact primeFrom_lt.mpr hlt
  prime p hp := by
    obtain ⟨k, -, rfl⟩ := List.mem_map.mp hp
    exact primeFrom_prime k
  none_skipped p hp q hq hlt hqp := by
    obtain ⟨k, hk, rfl⟩ := List.mem_map.mp hp
    obtain ⟨k', rfl⟩ := exists_primeFrom hq hlt
    have hk' := (primeFrom_lt.mp hqp).trans (List.mem_range.mp hk)
    exact List.mem_map.mpr ⟨k', List.mem_range.mpr hk', rfl⟩

/-- **The layout has the consecutive primes**: `build` ends, and the primes that it returns,
in the order of layer, n-gram size and head, are as many as there are columns, ascend from
the vocabulary on and pass over none. -/
theorem build_primes (hprime : IsPrimeTest isprime) (layerIds numEmbeddings : List ℕ)
    (maxNgramSize nHeads headDim : ℕ) (vocabSize : ℤ) :
    ∃ enough, ∀ fuel, enough ≤ fuel → ∃ layout,
      EngramLayout.build isprime fuel layerIds numEmbeddings maxNgramSize nHeads headDim
        vocabSize = some layout ∧
      layout.flatPrimes.length = layerIds.length * ((maxNgramSize - 1) * nHeads) ∧
      ConsecutivePrimes vocabSize layout.flatPrimes := by
  refine ⟨(primeFrom vocabSize (layerIds.length * ((maxNgramSize - 1) * nHeads)) -
    vocabSize).toNat + 1, fun fuel hfuel => ⟨_, build_eq hprime layerIds numEmbeddings
      maxNgramSize nHeads headDim (by omega), ?_⟩⟩
  have hflat : ((List.range layerIds.length).map fun l =>
      (List.range (maxNgramSize - 1)).map fun i => (List.range nHeads).map fun j =>
        primeFrom vocabSize (l * ((maxNgramSize - 1) * nHeads) + i * nHeads + j)).flatten.flatten =
      (List.range (layerIds.length * ((maxNgramSize - 1) * nHeads))).map
        (primeFrom vocabSize) := by
    have hsizes := flatten_map_range (fun m => (List.range nHeads).map fun j =>
      primeFrom vocabSize (m * nHeads + j)) layerIds.length (maxNgramSize - 1)
    simp only [Nat.add_mul, Nat.mul_assoc] at hsizes
    rw [hsizes, flatten_map_range, Nat.mul_assoc]
  rw [EngramLayout.flatPrimes]
  dsimp only
  rw [hflat, List.length_map, List.length_range]
  exact ⟨rfl, consecutivePrimes_map_range vocabSize _⟩

end

/-- A primality test by trial division, for runs on concrete numbers. -/
def trialDivision (p : ℤ) : Bool :=
  decide (2 ≤ p.toNat) && decide (∀ m < p.toNat, 2 ≤ m → ¬m ∣ p.toNat)

theorem trialDivision_isPrimeTest : IsPrimeTest trialDivision := by
  intro p
  rw [trialDivision, Bool.and_eq_true, decide_eq_true_eq, decide_eq_true_eq]
  constructor
  · rintro ⟨htwo, hdvd⟩
    refine ⟨p.toNat, Nat.prime_def_lt'.mpr ⟨htwo, fun m hm hlt => hdvd m hlt hm⟩, by omega⟩
  · rintro ⟨q, hq, rfl⟩
    obtain ⟨htwo, hdvd⟩ := Nat.prime_def_lt'.mp hq
    exact ⟨htwo, fun m hlt hm => hdvd m hm hlt⟩

/-- Two layers, bigrams and trigrams, two heads, a vocabulary of 10. -/
theorem build_primes_ten :
    ∃ enough, ∀ fuel, enough ≤ fuel → ∃ layout,
      EngramLayout.build trialDivision fuel [1, 2] [100, 100] 3 2 64 10 = some layout ∧
      layout.flatPrimes.length = 8 ∧ ConsecutivePrimes 10 layout.flatPrimes :=
  build_primes trialDivision_isPrimeTest [1, 2] [100, 100] 3 2 64 10

/-- They are the primes from 11 to 37. -/
example : (EngramLayout.build trialDivision 40 [1, 2] [100, 100] 3 2 64 10).map
    EngramLayout.flatPrimes = some [11, 13, 17, 19, 23, 29, 31, 37] := by decide +kernel

end LuzServing

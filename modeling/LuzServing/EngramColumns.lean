import LuzServing.EngramHash
import LuzServing.EngramPrimes
import LuzServing.Segments

/-!
# Every hash id is in its column

The multipliers are bounded so that no product of a compressed id wraps around in `int64`.
So the running XOR is never negative, its remainder is below the prime, and a hash id is a
row of its own column (`hash_ids_in_columns`): the columns of a layer lie one after the
other, each with as many rows as its prime.
-/

namespace LuzServing

/-! ## Columns, one after the other -/

/-- The offset of a column is the sum of the sizes of the columns before it. -/
theorem cumsum_getD {sizes : List ℕ} {c : ℕ} (hc : c < sizes.length) :
    (cumsum (0 :: sizes.dropLast)).getD c 0 = (sizes.take c).sum := by
  have hlen : (0 :: sizes.dropLast).length = sizes.length := by
    rw [List.length_cons, List.length_dropLast]
    omega
  rw [cumsum, getD_map_range _ (hlen ▸ hc), List.take_succ_cons, List.sum_cons, Nat.zero_add,
    List.dropLast_eq_take, List.take_take, min_eq_left (by omega)]

/-- A column ends before any later column begins, since the offsets are running sums of the
sizes. -/
theorem take_sum_add_le {sizes : List ℕ} {c c' : ℕ} (hc : c < sizes.length) (hlt : c < c') :
    (sizes.take c).sum + sizes.getD c 0 ≤ (sizes.take c').sum := by
  rw [List.getD_eq_getElem _ _ hc, ← List.sum_take_succ _ _ hc]
  exact (List.take_sublist_take_left hlt).sum_le_sum fun _ _ => Nat.zero_le _

/-- A column ends where the table ends or before, since its rows are among all the rows. -/
theorem take_sum_add_le_sum {sizes : List ℕ} {c : ℕ} (hc : c < sizes.length) :
    (sizes.take c).sum + sizes.getD c 0 ≤ sizes.sum := by
  rw [List.getD_eq_getElem _ _ hc, ← List.sum_take_succ _ _ hc]
  exact (List.take_sublist _ _).sum_le_sum fun _ _ => Nat.zero_le _

/-- A table of rows of one length, laid out flat, holds an entry at its row times the length plus
its column. -/
theorem getD_flatten {α : Type*} {rows : List (List α)} {w : ℕ} (hw : ∀ row ∈ rows, row.length = w)
    (i : ℕ) {j : ℕ} (hj : j < w) (d : α) :
    rows.flatten.getD (i * w + j) d = (rows.getD i []).getD j d := by
  induction rows generalizing i with
  | nil => rfl
  | cons row rows ih =>
    have hlen := hw row (List.mem_cons_self ..)
    rw [List.flatten_cons]
    cases i with
    | zero =>
      rw [Nat.zero_mul, Nat.zero_add, List.getD_append _ _ _ _ (hlen ▸ hj)]
      rfl
    | succ i =>
      have hplace : (i + 1) * w + j = row.length + (i * w + j) := by
        rw [hlen, Nat.succ_mul]
        omega
      rw [hplace, List.getD_append_right _ _ _ _ (Nat.le_add_right _ _), Nat.add_sub_cancel_left,
        ih (fun row' hrow' => hw row' (List.mem_cons_of_mem _ hrow')) i]
      rfl

/-! ## The shape of a layout -/

/-- Repeated steps return as many things as there were steps, and things that steps
return. -/
theorem repeatStep_some {α σ : Type*} {step : σ → Option (α × σ)} {P : α → Prop}
    (hstep : ∀ s x s', step s = some (x, s') → P x) {n : ℕ} {s s' : σ} {xs : List α}
    (h : repeatStep step n s = some (xs, s')) : xs.length = n ∧ ∀ x ∈ xs, P x := by
  induction n generalizing s xs s' with
  | zero =>
    obtain ⟨rfl, rfl⟩ := Prod.ext_iff.mp (Option.some.inj h)
    exact ⟨rfl, fun x hx => absurd hx List.not_mem_nil⟩
  | succ n ih =>
    simp only [repeatStep, Option.bind_eq_bind, Option.bind_eq_some_iff] at h
    obtain ⟨⟨x, s₁⟩, hx, ⟨xs₁, s₂⟩, hxs, heq⟩ := h
    obtain ⟨rfl, rfl⟩ := Prod.ext_iff.mp (Option.some.inj heq)
    obtain ⟨hlen, hall⟩ := ih hxs
    refine ⟨congrArg Nat.succ hlen, fun y hy => ?_⟩
    rcases List.mem_cons.mp hy with rfl | hy
    · exact hstep _ _ _ hx
    · exact hall y hy

/-- When the search for the next prime returns, what it returns has passed the primality test. -/
theorem nextPrimeLoop_some {isprime : ℤ → Bool} {seen : List ℤ} {fuel : ℕ} {candidate p : ℤ}
    (h : nextPrimeLoop isprime seen fuel candidate = some p) : isprime p = true := by
  induction fuel generalizing candidate with
  | zero => cases h
  | succ fuel ih =>
    rw [nextPrimeLoop] at h
    split at h
    next => exact ih h
    next hstop =>
      obtain rfl := Option.some.inj h
      cases hp : isprime candidate with
      | false => simp [hp] at hstop
      | true => rfl

/-- A layout as `build` returns it: a positive prime for each n-gram size and head of each
layer. -/
structure EngramLayout.Shaped (layout : EngramLayout) : Prop where
  /-- the layers -/
  layers : layout.primes.length = layout.layerIds.length
  /-- the n-gram sizes -/
  ngrams : ∀ layer ∈ layout.primes, layer.length = layout.maxNgramSize - 1
  /-- the heads -/
  heads : ∀ layer ∈ layout.primes, ∀ sizes ∈ layer, sizes.length = layout.nHeads
  /-- the primes -/
  pos : ∀ layer ∈ layout.primes, ∀ sizes ∈ layer, ∀ p ∈ sizes, 0 < p

/-- A layout that `build` returns has the tables and the sizes that the configuration asks for. -/
theorem build_shaped {isprime : ℤ → Bool} (hprime : IsPrimeTest isprime) {fuel : ℕ}
    {layerIds numEmbeddings : List ℕ} {maxNgramSize nHeads headDim : ℕ} {vocabSize : ℤ}
    {layout : EngramLayout}
    (h : EngramLayout.build isprime fuel layerIds numEmbeddings maxNgramSize nHeads headDim
      vocabSize = some layout) : layout.Shaped := by
  simp only [EngramLayout.build, Option.bind_eq_bind, Option.bind_eq_some_iff] at h
  obtain ⟨⟨primes, seen⟩, hloop, heq⟩ := h
  obtain rfl := Option.some.inj heq
  have hhead : ∀ s p s', headStep isprime fuel s = some (p, s') → 0 < p := by
    intro s p s' hp
    simp only [headStep, Option.bind_eq_bind, Option.bind_eq_some_iff] at hp
    obtain ⟨q, hq, heq⟩ := hp
    obtain ⟨rfl, -⟩ := Prod.ext_iff.mp (Option.some.inj heq)
    obtain ⟨n, hn, rfl⟩ := (hprime q).mp (nextPrimeLoop_some hq)
    exact Int.natCast_pos.mpr hn.pos
  have hngram : ∀ seen sizes seen', ngramStep isprime fuel nHeads vocabSize seen =
      some (sizes, seen') → sizes.length = nHeads ∧ ∀ p ∈ sizes, 0 < p := by
    intro seen sizes seen' hsizes
    simp only [ngramStep, Option.bind_eq_bind, Option.bind_eq_some_iff] at hsizes
    obtain ⟨⟨sizes', s'⟩, hrun, heq⟩ := hsizes
    obtain ⟨rfl, -⟩ := Prod.ext_iff.mp (Option.some.inj heq)
    exact repeatStep_some hhead hrun
  obtain ⟨hlayers, hall⟩ := repeatStep_some
    (fun s layer s' hlayer => repeatStep_some hngram hlayer) hloop
  exact ⟨hlayers, fun layer hlayer => (hall layer hlayer).1,
    fun layer hlayer sizes hsizes => ((hall layer hlayer).2 sizes hsizes).1,
    fun layer hlayer sizes hsizes => ((hall layer hlayer).2 sizes hsizes).2⟩

/-! ## The columns of a hasher -/

namespace HasherConfig

variable {c : HasherConfig}

/-- A column of a layer, for the `(i + 1)`-gram and head `h`, is one of its columns, has
the prime's rows, and begins where the offset says. -/
theorem column (hshape : c.layout.Shaped) {l i h : ℕ} (hl : l < c.hasher.numLayers) (hi : 1 ≤ i)
    (hin : i < c.hasher.maxNgramSize) (hh : h < c.hasher.numHeads) :
    let col := (i - 1) * c.hasher.numHeads + h
    col < (c.layout.columnSizes l).length ∧
      (c.layout.columnSizes l).getD col 0 = c.hasher.primes l (i - 1) h ∧
      c.hasher.offsets l col = ((c.layout.columnSizes l).take col).sum ∧
      0 < c.hasher.primes l (i - 1) h := by
  intro col
  have hl' : l < c.layout.primes.length := hshape.layers ▸ hl
  have hlayer : c.layout.primes.getD l [] ∈ c.layout.primes := by
    rw [List.getD_eq_getElem _ _ hl']
    exact List.getElem_mem hl'
  have hngrams := hshape.ngrams _ hlayer
  have hheads := hshape.heads _ hlayer
  have hi' : i - 1 < (c.layout.primes.getD l []).length := by
    have hin : i < c.layout.maxNgramSize := hin
    omega
  have hsizes : (c.layout.primes.getD l []).getD (i - 1) [] ∈ c.layout.primes.getD l [] := by
    rw [List.getD_eq_getElem _ _ hi']
    exact List.getElem_mem hi'
  have hlen : (c.layout.columnSizes l).length =
      (c.layout.maxNgramSize - 1) * c.layout.nHeads := by
    rw [EngramLayout.columnSizes, List.length_map, List.length_flatten, ← hngrams]
    exact List.sum_eq_card_nsmul _ _ (by simpa using hheads) |>.trans (by simp)
  have hcol : col < (c.layout.columnSizes l).length := by
    rw [hlen, ← hngrams]
    calc (i - 1) * c.layout.nHeads + h < (i - 1) * c.layout.nHeads + c.layout.nHeads :=
          Nat.add_lt_add_left hh _
      _ = i * c.layout.nHeads := by rw [← Nat.succ_mul]; congr 1; omega
      _ ≤ _ := Nat.mul_le_mul_right _ (by omega)
  have hget : (c.layout.columnSizes l).getD col 0 = c.hasher.primes l (i - 1) h := by
    rw [EngramLayout.columnSizes, ← Int.toNat_zero, List.getD_map]
    exact congrArg Int.toNat (getD_flatten hheads (i - 1) hh 0)
  refine ⟨hcol, hget, cumsum_getD hcol, ?_⟩
  have hh' : h < ((c.layout.primes.getD l []).getD (i - 1) []).length := (hheads _ hsizes) ▸ hh
  have hpos := hshape.pos _ hlayer _ hsizes _ (List.getElem_mem hh')
  rw [← List.getD_eq_getElem _ 0 hh'] at hpos
  exact Int.pos_iff_toNat_pos.mp hpos

end HasherConfig

/-! ## The hash ids -/

/-- A remainder of something that is not negative is below what it is divided by. -/
theorem fmod_mem {a : ℤ} {p : ℕ} (ha : 0 ≤ a) (hp : 0 < p) : 0 ≤ a.fmod p ∧ a.fmod p < p := by
  have hp' : (0 : ℤ) < p := Int.natCast_pos.mpr hp
  exact ⟨Int.fmod_nonneg ha hp'.le, Int.fmod_lt_of_pos a hp'⟩

/-- **The columns of a hasher**: products fit in `int64`, and every hash id is in its
column. -/
structure HashesInColumns (c : HasherConfig) : Prop where
  /-- no compressed id times a multiplier overflows -/
  product_le : ∀ id, id < c.compressedVocabSize → ∀ l s,
    id * c.hasher.multipliers l s ≤ maxLong
  /-- so a product of the hash is the product of the numbers -/
  product_eq : ∀ tokens blocked l s, (c.hasher.product tokens blocked l s).toInt =
    ((if blocked s then c.hasher.padId else c.hasher.tokenMap (tokens s)) *
      c.hasher.multipliers l s : ℕ)
  /-- a running XOR is not negative -/
  rolling_nonneg : ∀ tokens blocked l i, 0 ≤ (c.hasher.rolling tokens blocked l i).toInt
  /-- a hash id is in the column of its n-gram size and head, and in the table -/
  mem_column : ∀ tokens blocked l i h, l < c.hasher.numLayers → 1 ≤ i → i < c.hasher.maxNgramSize →
    h < c.hasher.numHeads →
    let id := c.hasher.computeEngramHashIds tokens blocked l i h
    let offset := c.hasher.offsets l ((i - 1) * c.hasher.numHeads + h)
    (offset : ℤ) ≤ id ∧ id < offset + c.hasher.primes l (i - 1) h ∧
      id < (c.layout.columnSizes l).sum
  /-- hash ids of different columns of a layer differ -/
  apart : ∀ tokens blocked tokens' blocked' l i h i' h', l < c.hasher.numLayers →
    1 ≤ i → i < c.hasher.maxNgramSize → h < c.hasher.numHeads →
    1 ≤ i' → i' < c.hasher.maxNgramSize → h' < c.hasher.numHeads → (i, h) ≠ (i', h') →
    c.hasher.computeEngramHashIds tokens blocked l i h ≠
      c.hasher.computeEngramHashIds tokens' blocked' l i' h'

/-- **Every hash id is in its column**, for a layout that `build` returned: whatever the
tokens and whichever look-backs are blocked. -/
theorem hash_ids_in_columns {isprime : ℤ → Bool} (hprime : IsPrimeTest isprime) {fuel : ℕ}
    {layerIds numEmbeddings : List ℕ} {maxNgramSize nHeads headDim : ℕ} {vocabSize : ℤ}
    (c : HasherConfig)
    (hbuild : EngramLayout.build isprime fuel layerIds numEmbeddings maxNgramSize nHeads headDim
      vocabSize = some c.layout) : HashesInColumns c := by
  have hshape := build_shaped hprime hbuild
  have hnonneg : ∀ tokens blocked l i, 0 ≤ (c.hasher.rolling tokens blocked l i).toInt :=
    fun tokens blocked l i => BitVec.toInt_nonneg_of_msb_false (c.hasher.rolling_msb ..)
  have hmem : ∀ tokens blocked l i h, l < c.hasher.numLayers → 1 ≤ i →
      i < c.hasher.maxNgramSize → h < c.hasher.numHeads →
      let id := c.hasher.computeEngramHashIds tokens blocked l i h
      let offset := c.hasher.offsets l ((i - 1) * c.hasher.numHeads + h)
      (offset : ℤ) ≤ id ∧ id < offset + c.hasher.primes l (i - 1) h := by
    intro tokens blocked l i h hl hi hin hh
    obtain ⟨-, -, -, hpos⟩ := HasherConfig.column hshape hl hi hin hh
    have hrem := fmod_mem (hnonneg tokens blocked l i) hpos
    dsimp only [EngramHasher.computeEngramHashIds]
    omega
  refine ⟨fun id hid l s => c.hasher.mul_multiplier_le hid l s, fun tokens blocked l s => ?_,
    hnonneg, ?_, ?_⟩
  · rw [BitVec.toInt_eq_toNat_of_msb (c.hasher.product_msb ..), c.hasher.product_toNat]
  · intro tokens blocked l i h hl hi hin hh
    obtain ⟨hcol, hget, hoff, -⟩ := HasherConfig.column hshape hl hi hin hh
    obtain ⟨hle, hlt⟩ := hmem tokens blocked l i h hl hi hin hh
    have hend := take_sum_add_le_sum hcol
    refine ⟨hle, hlt, ?_⟩
    rw [hget, ← hoff] at hend
    omega
  · intro tokens blocked tokens' blocked' l i h i' h' hl hi hin hh hi' hin' hh' hne heq
    obtain ⟨hcol, hget, hoff, -⟩ := HasherConfig.column hshape hl hi hin hh
    obtain ⟨hcol', hget', hoff', -⟩ := HasherConfig.column hshape hl hi' hin' hh'
    obtain ⟨hle, hlt⟩ := hmem tokens blocked l i h hl hi hin hh
    obtain ⟨hle', hlt'⟩ := hmem tokens' blocked' l i' h' hl hi' hin' hh'
    -- two columns, of which one is before the other
    rcases lt_trichotomy ((i - 1) * c.hasher.numHeads + h) ((i' - 1) * c.hasher.numHeads + h') with
      hbefore | hsame | hafter
    · have hend := take_sum_add_le hcol hbefore
      rw [hget, ← hoff, ← hoff'] at hend
      omega
    · obtain ⟨hi₀, hh₀⟩ := mul_add_inj hh hh' hsame
      obtain rfl : i = i' := by omega
      exact hne (Prod.ext rfl hh₀)
    · have hend := take_sum_add_le hcol' hafter
      rw [hget', ← hoff, ← hoff'] at hend
      omega

/-! ## A small hasher -/

/-- A generator that yields the greatest number below the bound. -/
def greatest : Generator := fun _ high size => List.replicate size (high - 1)

theorem greatest_isGenerator : IsGenerator greatest where
  length _ _ _ _ := List.length_replicate
  lt _ _ _ hhigh v hv := by
    rw [List.eq_of_mem_replicate hv]
    omega

/-- One layer of bigrams with two heads, and three tokens of which two normalize alike. -/
def smallHasherConfig : HasherConfig where
  layout := ⟨2, [1], [100], [[[11, 13]]], 2, 64⟩
  two_le := Nat.le_refl 2
  keys := ["a", "b", "a"]
  compressedVocabSize := 2
  size_eq := by decide
  vocab_pos := Nat.two_pos
  vocab_lt := by decide
  generator := greatest
  isGenerator := greatest_isGenerator
  padId := 1
  imageTokenId := none
  numReqSlots := 4

/-- The hash ids of the small hasher are in the columns `[0, 11)` and `[11, 24)`. -/
theorem hash_ids_in_columns_small : HashesInColumns smallHasherConfig :=
  have hbuild : EngramLayout.build trialDivision 8 [1] [100] 2 2 64 10 =
      some smallHasherConfig.layout := by decide +kernel
  hash_ids_in_columns trialDivision_isPrimeTest smallHasherConfig hbuild

end LuzServing

import LuzServing.Engram

/-!
# The layout of the Engram tables

Every layer of Engram has a table with a column for each n-gram size and head, and a column
has as many rows as its prime. The primes of all columns of all layers are drawn from one
ascending sequence (`EngramLayout.build`), by a search that starts again at the vocabulary
for every n-gram size and passes over the primes it has seen.

The hasher is built from the layout: compressed token ids (`buildCompressedTokenMap`), odd
multipliers that are small enough for `int64` (`computeHashMultipliers`) and the first row
of every column. `isprime` and the random numbers are of libraries that are not part of
the repository: parameters, of which `IsPrimeTest` and `IsGenerator` say what they are for.
-/

namespace LuzServing

/-! ## The primes -/

/-- A prime, as a Python integer. -/
def IsPrime (p : ℤ) : Prop := ∃ q : ℕ, q.Prime ∧ (q : ℤ) = p

/-- `isprime` tells the primes. -/
def IsPrimeTest (isprime : ℤ → Bool) : Prop := ∀ p, isprime p = true ↔ IsPrime p

/-- Do a step `n` times, and collect what the steps return. -/
def repeatStep {α σ : Type*} (step : σ → Option (α × σ)) : ℕ → σ → Option (List α × σ)
  | 0, s => some ([], s)
  | n + 1, s => do
    let (x, s) ← step s
    let (xs, s) ← repeatStep step n s
    pure (x :: xs, s)

/-- `EngramLayout`. -/
structure EngramLayout : Type where
  /-- `max_ngram_size` -/
  maxNgramSize : ℕ
  /-- `layer_ids` -/
  layerIds : List ℕ
  /-- `num_embeddings` -/
  numEmbeddings : List ℕ
  /-- `primes`, by layer, n-gram size and head -/
  primes : List (List (List ℤ))
  /-- `n_heads` -/
  nHeads : ℕ
  /-- `head_dim` -/
  headDim : ℕ
  deriving DecidableEq

section

variable (isprime : ℤ → Bool) (fuel : ℕ)

/-- The loop of `_find_next_prime`, for as many candidates as there is fuel. -/
def nextPrimeLoop (seen : List ℤ) : ℕ → ℤ → Option ℤ
  | 0, _ => none
  | fuel + 1, candidate =>
    if !isprime candidate || decide (candidate ∈ seen) then nextPrimeLoop seen fuel (candidate + 1)
    else some candidate

/-- `_find_next_prime`. -/
def findNextPrime (start : ℤ) (seen : List ℤ) : Option ℤ :=
  nextPrimeLoop isprime seen fuel (start + 1)

/-- A head: the search goes on from the prime of the one before. -/
def headStep : ℤ × List ℤ → Option (ℤ × (ℤ × List ℤ)) := fun (current, seen) => do
  let current ← findNextPrime isprime fuel current seen
  pure (current, current, current :: seen)

/-- An n-gram size: the search starts again at the vocabulary. -/
def ngramStep (nHeads : ℕ) (vocabSize : ℤ) (seen : List ℤ) : Option (List ℤ × List ℤ) := do
  let (sizes, _, seen) ← repeatStep (headStep isprime fuel) nHeads (vocabSize - 1, seen)
  pure (sizes, seen)

/-- `EngramLayout.build`. -/
def EngramLayout.build (layerIds numEmbeddings : List ℕ) (maxNgramSize nHeads headDim : ℕ)
    (vocabSize : ℤ) : Option EngramLayout := do
  let layerStep := repeatStep (ngramStep isprime fuel nHeads vocabSize) (maxNgramSize - 1)
  let (primes, _) ← repeatStep layerStep layerIds.length []
  pure { maxNgramSize, layerIds, numEmbeddings, primes, nHeads, headDim }

end

/-- The primes of all columns, in the order of layer, n-gram size and head. -/
def EngramLayout.flatPrimes (layout : EngramLayout) : List ℤ := layout.primes.flatten.flatten

/-! ## The token map -/

/-- A token's compressed id: that of its key, a new one when the key is new. -/
def compressStep {κ : Type*} [DecidableEq κ] (known : List κ) (key : κ) : ℕ × List κ :=
  if key ∈ known then (known.idxOf key, known) else (known.length, known ++ [key])

/-- `build_compressed_token_map`, from the key that each token normalizes to: the compressed
ids, and how many there are. -/
def buildCompressedTokenMap {κ : Type*} [DecidableEq κ] : List κ → List κ → List ℕ × ℕ
  | known, [] => ([], known.length)
  | known, key :: keys =>
    let (id, known) := compressStep known key
    let (lookup, size) := buildCompressedTokenMap known keys
    (id :: lookup, size)

/-! ## The multipliers -/

/-- `np.iinfo(np.int64).max`. -/
def maxLong : ℕ := 2 ^ 63 - 1

/-- `multiplier_bound`. -/
def multiplierBound (vocabSize : ℕ) : ℕ := max 1 (maxLong / vocabSize / 2)

/-- `default_rng(seed).integers(0, high, size)`, by seed, `high` and size. -/
abbrev Generator : Type := ℕ → ℕ → ℕ → List ℕ

/-- A generator yields as many numbers as are asked for, all below the bound. -/
structure IsGenerator (generator : Generator) : Prop where
  /-- as many -/
  length : ∀ seed high size, 0 < high → (generator seed high size).length = size
  /-- below the bound -/
  lt : ∀ seed high size, 0 < high → ∀ v ∈ generator seed high size, v < high

/-- `compute_hash_multipliers`. -/
def computeHashMultipliers (generator : Generator) (layerIds : List ℕ)
    (maxNgramSize vocabSize : ℕ) : List (List ℕ) :=
  layerIds.map fun layerId =>
    (generator (10007 * layerId) (multiplierBound vocabSize) maxNgramSize).map (· * 2 + 1)

/-- What holds of the elements of a list and of the default holds at every place. -/
theorem getD_of_forall {α : Type*} {P : α → Prop} {xs : List α} {d : α} (hd : P d)
    (h : ∀ x ∈ xs, P x) (i : ℕ) : P (xs.getD i d) := by
  rw [List.getD_eq_getElem?_getD]
  cases hx : xs[i]? with
  | none => exact hd
  | some x => exact h x (List.mem_of_getElem? hx)

/-- Every multiplier times every id below the vocabulary fits in `int64`, when twice the
vocabulary does. -/
theorem multiplier_le {generator : Generator} (hgen : IsGenerator generator) {layerIds : List ℕ}
    {maxNgramSize vocabSize : ℕ} (hvocab : 2 * vocabSize < maxLong) (hpos : 0 < vocabSize)
    (l s : ℕ) :
    ((computeHashMultipliers generator layerIds maxNgramSize vocabSize).getD l []).getD s 0 ≤
      maxLong / vocabSize := by
  have htwo : 2 ≤ maxLong / vocabSize := (Nat.le_div_iff_mul_le hpos).mpr hvocab.le
  have hrow : ∀ row ∈ computeHashMultipliers generator layerIds maxNgramSize vocabSize,
      ∀ m ∈ row, m ≤ maxLong / vocabSize := by
    intro row hrow m hm
    obtain ⟨layerId, -, rfl⟩ := List.mem_map.mp hrow
    obtain ⟨v, hv, rfl⟩ := List.mem_map.mp hm
    have hlt := hgen.lt _ _ _ (lt_of_lt_of_le Nat.one_pos (le_max_left _ _)) v hv
    omega
  have hl := getD_of_forall (P := fun row : List ℕ => ∀ m ∈ row, m ≤ maxLong / vocabSize)
    (fun m hm => absurd hm List.not_mem_nil) hrow l
  exact getD_of_forall (P := (· ≤ maxLong / vocabSize)) (Nat.zero_le _) hl s

/-! ## The hasher -/

/-- `np.cumsum`. -/
def cumsum (xs : List ℕ) : List ℕ := (List.range xs.length).map fun i => (xs.take (i + 1)).sum

/-- `flat`: the sizes of the columns of a layer. -/
def EngramLayout.columnSizes (layout : EngramLayout) (l : ℕ) : List ℕ :=
  (layout.primes.getD l []).flatten.map Int.toNat

/-- What the hasher is built from. -/
structure HasherConfig : Type where
  /-- the layout -/
  layout : EngramLayout
  /-- an n-gram has at least two tokens -/
  two_le : 2 ≤ layout.maxNgramSize
  /-- the key of each token of the tokenizer -/
  keys : List String
  /-- the config's number of compressed ids -/
  compressedVocabSize : ℕ
  /-- which is asserted to be the tokenizer's -/
  size_eq : (buildCompressedTokenMap [] keys).2 = compressedVocabSize
  /-- it is not empty -/
  vocab_pos : 0 < compressedVocabSize
  /-- and twice as many fit in `int64` -/
  vocab_lt : 2 * compressedVocabSize < maxLong
  /-- the random numbers -/
  generator : Generator
  /-- are such -/
  isGenerator : IsGenerator generator
  /-- `engram_pad_token_id` -/
  padId : ℕ
  /-- the image token, for a vision model -/
  imageTokenId : Option ℕ
  /-- the number of request slots -/
  numReqSlots : ℕ

/-- A key that is known gets its place among the known ones, and a new one the next. -/
theorem compressStep_lt {κ : Type*} [DecidableEq κ] (known : List κ) (key : κ) :
    (compressStep known key).1 < (compressStep known key).2.length := by
  rw [compressStep]
  split
  next hmem => exact List.idxOf_lt_length_iff.mpr hmem
  next => simp

/-- **Compressed ids** are below the number of keys that the map returns, which never shrinks on the
way. -/
theorem buildCompressedTokenMap_lt {κ : Type*} [DecidableEq κ] (known keys : List κ) :
    known.length ≤ (buildCompressedTokenMap known keys).2 ∧
      ∀ id ∈ (buildCompressedTokenMap known keys).1,
        id < (buildCompressedTokenMap known keys).2 := by
  induction keys generalizing known with
  | nil => exact ⟨le_rfl, fun id hid => absurd hid List.not_mem_nil⟩
  | cons key keys ih =>
    obtain ⟨hle, hlt⟩ := ih (compressStep known key).2
    have hstep := compressStep_lt known key
    have hgrow : known.length ≤ (compressStep known key).2.length := by
      rw [compressStep]
      split
      next => exact le_rfl
      next => simp
    refine ⟨hgrow.trans hle, fun id hid => ?_⟩
    rcases List.mem_cons.mp hid with rfl | hid
    · exact lt_of_lt_of_le hstep hle
    · exact hlt id hid

namespace HasherConfig

variable (c : HasherConfig)

/-- `token_map[t]`. -/
def tokenMap (t : ℕ) : ℕ := (buildCompressedTokenMap [] c.keys).1.getD t 0

/-- The compressed id of any token is below the size of the compressed vocabulary. -/
theorem tokenMap_lt (t : ℕ) : c.tokenMap t < c.compressedVocabSize := by
  refine getD_of_forall (P := (· < c.compressedVocabSize)) c.vocab_pos (fun id hid => ?_) t
  rw [← c.size_eq]
  exact (buildCompressedTokenMap_lt [] c.keys).2 id hid

/-- `EngramHasher.__init__` and `init_history`. -/
def hasher : EngramHasher where
  maxNgramSize := c.layout.maxNgramSize
  two_le := c.two_le
  numLayers := c.layout.layerIds.length
  numHeads := c.layout.nHeads
  vocabSize := c.compressedVocabSize
  tokenMap := c.tokenMap
  tokenMap_lt := c.tokenMap_lt
  padId := c.tokenMap c.padId
  padId_lt := c.tokenMap_lt c.padId
  multipliers l s := ((computeHashMultipliers c.generator c.layout.layerIds
    c.layout.maxNgramSize c.compressedVocabSize).getD l []).getD s 0
  multipliers_le := multiplier_le c.isGenerator c.vocab_lt c.vocab_pos
  primes l i h := (((c.layout.primes.getD l []).getD i []).getD h 0).toNat
  offsets l col := (cumsum (0 :: (c.layout.columnSizes l).dropLast)).getD col 0
  imageTokenId := c.imageTokenId
  padRow := c.numReqSlots

end HasherConfig

end LuzServing

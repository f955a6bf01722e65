import Mathlib.Tactic

/-!
# Folding an operation over a range

A reduction over lanes, threads or elements folds one operation over consecutive places.
Where the operation is associative on the values met, it does not matter how the places are
grouped (`foldRange_add`, `foldRange_blocks`): a thread may reduce its own places first, and
a warp the threads.
-/

namespace LuzServing

universe u

variable {α : Type u}

/-- `f start`, `f (start + 1)` and so on up to `len` places, by one operation from the left. -/
def foldRange (op : α → α → α) (f : ℕ → α) (start len : ℕ) : α :=
  (List.range' (start + 1) (len - 1)).foldl (fun m i => op m (f i)) (f start)

variable {op : α → α → α} {f g : ℕ → α}

/-- A fold over one place more combines the fold over the places before with the last one. -/
theorem foldRange_succ {start len : ℕ} (hlen : 0 < len) :
    foldRange op f start (len + 1) = op (foldRange op f start len) (f (start + len)) := by
  obtain ⟨n, rfl⟩ := Nat.exists_eq_succ_of_ne_zero hlen.ne'
  rw [foldRange, foldRange, Nat.add_sub_cancel, Nat.succ_sub_one, Nat.succ_eq_add_one,
    List.range'_concat, List.foldl_append]
  simp only [List.foldl_cons, List.foldl_nil, Nat.one_mul, Nat.add_assoc, Nat.add_comm 1 n]

@[simp] theorem foldRange_one (start : ℕ) : foldRange op f start 1 = f start := rfl

/-- A fold depends on the values at its places, not on where the places are counted from. -/
theorem foldRange_shift {start len : ℕ} (hlen : 0 < len) (h : ∀ i, g i = f (start + i)) :
    foldRange op g 0 len = foldRange op f start len := by
  induction len with
  | zero => exact absurd hlen (Nat.lt_irrefl 0)
  | succ n ih =>
    rcases Nat.eq_zero_or_pos n with rfl | hn
    · exact h 0
    · rw [foldRange_succ hn, foldRange_succ hn, ih hn, h, Nat.zero_add]

/-- What holds of the places and of the operation's values holds of the result. -/
theorem foldRange_of {P : α → Prop} (hop : ∀ x y, P x → P y → P (op x y)) {start len : ℕ}
    (hlen : 0 < len) (h : ∀ i, start ≤ i → i < start + len → P (f i)) :
    P (foldRange op f start len) := by
  induction len with
  | zero => exact absurd hlen (Nat.lt_irrefl 0)
  | succ n ih =>
    rcases Nat.eq_zero_or_pos n with rfl | hn
    · exact h start le_rfl (by omega)
    · rw [foldRange_succ hn]
      exact hop _ _ (ih hn fun i hlo hhi => h i hlo (by omega)) (h _ (by omega) (by omega))

/-- What the operation keeps from either side is what one place has. -/
theorem foldRange_of_exists {P : α → Prop} (hleft : ∀ x y, P x → P (op x y))
    (hright : ∀ x y, P y → P (op x y)) {start len i : ℕ} (hlo : start ≤ i)
    (hhi : i < start + len) (h : P (f i)) : P (foldRange op f start len) := by
  induction len with
  | zero => omega
  | succ n ih =>
    rcases Nat.eq_zero_or_pos n with rfl | hn
    · obtain rfl : i = start := by omega
      exact h
    · rw [foldRange_succ hn]
      by_cases hi : i < start + n
      · exact hleft _ _ (ih hi)
      · obtain rfl : i = start + n := by omega
        exact hright _ _ h

/-- Two operations that agree on the values that a fold can meet give the same fold. -/
theorem foldRange_congr_op {op' : α → α → α} {P : α → Prop}
    (hclosed : ∀ x y, P x → P y → P (op x y)) (hop : ∀ x y, P x → P y → op' x y = op x y)
    {start len : ℕ} (hlen : 0 < len) (h : ∀ i, start ≤ i → i < start + len → P (f i)) :
    foldRange op' f start len = foldRange op f start len := by
  induction len with
  | zero => exact absurd hlen (Nat.lt_irrefl 0)
  | succ n ih =>
    rcases Nat.eq_zero_or_pos n with rfl | hn
    · rfl
    · have hlow : ∀ i, start ≤ i → i < start + n → P (f i) :=
        fun i hlo hhi => h i hlo (by omega)
      rw [foldRange_succ hn, foldRange_succ hn, ih hn hlow,
        hop _ _ (foldRange_of hclosed hn hlow) (h _ (by omega) (by omega))]

section

variable {P : α → Prop} (hclosed : ∀ x y, P x → P y → P (op x y))
  (hassoc : ∀ x y z, P x → P y → P z → op (op x y) z = op x (op y z))

include hclosed hassoc

/-- A fold over two stretches is the operation applied to the folds over each of them. -/
theorem foldRange_add {start a b : ℕ} (ha : 0 < a) (hb : 0 < b)
    (h : ∀ i, start ≤ i → i < start + (a + b) → P (f i)) :
    foldRange op f start (a + b) =
      op (foldRange op f start a) (foldRange op f (start + a) b) := by
  induction b with
  | zero => exact absurd hb (Nat.lt_irrefl 0)
  | succ b ih =>
    rcases Nat.eq_zero_or_pos b with rfl | hb
    · exact foldRange_succ ha
    · rw [← Nat.add_assoc, foldRange_succ (by omega), ih hb fun i hlo hhi => h i hlo (by omega),
        foldRange_succ hb, Nat.add_assoc start a b]
      exact hassoc _ _ _ (foldRange_of hclosed ha fun i hlo hhi => h i hlo (by omega))
        (foldRange_of hclosed hb fun i hlo hhi => h i (by omega) (by omega))
        (h _ (by omega) (by omega))

/-- Folding blocks of one width, and then what they fold to, is folding all. -/
theorem foldRange_blocks {start n w : ℕ} (hn : 0 < n) (hw : 0 < w)
    (h : ∀ i, start * w ≤ i → i < start * w + n * w → P (f i)) :
    foldRange op (fun l => foldRange op f (l * w) w) start n =
      foldRange op f (start * w) (n * w) := by
  induction n with
  | zero => exact absurd hn (Nat.lt_irrefl 0)
  | succ n ih =>
    rw [Nat.succ_mul] at h ⊢
    rcases Nat.eq_zero_or_pos n with rfl | hn
    · rw [Nat.zero_mul, Nat.zero_add, Nat.zero_add, foldRange_one]
    · rw [foldRange_succ hn, ih hn fun i hlo hhi => h i hlo (by omega),
        foldRange_add hclosed hassoc (Nat.mul_pos hn hw) hw h, Nat.add_mul]

end

end LuzServing

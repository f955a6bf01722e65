import Mathlib.Tactic

/-!
# Greedy decoding and drafts

Greedy decoding appends, step after step, the token that the model chooses after everything
before it (`greedyDecode`). A draft proposes tokens ahead; the model is asked for its choice
after each prefix of the proposals. The proposals up to the first that is not the model's
choice are what greedy decoding would have appended, and so is the model's choice after any
number of them (`greedyDecode_of_agree`): stopping early changes how many tokens a step gives,
never which.
-/

namespace LuzServing

universe u

variable {T : Type u} {next : List T → T} {ctx : List T} {d : ℕ → T} {m n c : ℕ}

/-! ## Greedy decoding -/

/-- `n` tokens after `ctx`, each the choice after what is before it. -/
def greedyDecode (next : List T → T) : List T → ℕ → List T
  | _, 0 => []
  | ctx, n + 1 => next ctx :: greedyDecode next (ctx ++ [next ctx]) n

@[simp] theorem length_greedyDecode : (greedyDecode next ctx n).length = n := by
  induction n generalizing ctx with
  | zero => rfl
  | succ n ih => rw [greedyDecode, List.length_cons, ih]

/-- Greedy decoding in two goes is greedy decoding in one: the second goes on from what the first
gave. -/
theorem greedyDecode_add : greedyDecode next ctx (m + n) =
    greedyDecode next ctx m ++ greedyDecode next (ctx ++ greedyDecode next ctx m) n := by
  induction m generalizing ctx with
  | zero => rw [Nat.zero_add, greedyDecode, List.nil_append, List.append_nil]
  | succ m ih =>
    rw [Nat.succ_add, greedyDecode, ih, greedyDecode, List.cons_append]
    simp only [List.append_assoc, List.cons_append, List.nil_append]

/-- The last token of a greedy decoding is the next one after all the tokens before it. -/
theorem greedyDecode_succ : greedyDecode next ctx (n + 1) =
    greedyDecode next ctx n ++ [next (ctx ++ greedyDecode next ctx n)] :=
  greedyDecode_add

/-! ## Longest prefixes -/

/-- `c` is how many of the first `n` agree before one does not. -/
structure IsLongestPrefix (agree : ℕ → Prop) (n c : ℕ) : Prop where
  /-- among the first `n` -/
  le : c ≤ n
  /-- all of them agree -/
  upto : ∀ j, j < c → agree j
  /-- and the next one does not -/
  stop : c < n → ¬ agree c

variable {agree agree' : ℕ → Prop}

/-- The longest prefix within a cap is the longest prefix, cut. -/
theorem IsLongestPrefix.cut (h : IsLongestPrefix agree n c) (cap : ℕ) (hcap : cap ≤ n) :
    IsLongestPrefix agree cap (min c cap) := by
  refine ⟨min_le_right c cap, fun j hj => h.upto j (hj.trans_le (min_le_left c cap)),
    fun hlt => ?_⟩
  have hc : c < cap := by
    rcases min_lt_iff.mp hlt with hc | hc
    · exact hc
    · exact absurd hc (lt_irrefl cap)
  rw [min_eq_left hc.le]
  exact h.stop (hc.trans_le hcap)

/-- The longest prefix in agreement is the same when the two notions of agreement are the same
within it. -/
theorem IsLongestPrefix.congr (h : IsLongestPrefix agree n c)
    (heq : ∀ j, j < n → (agree j ↔ agree' j)) : IsLongestPrefix agree' n c :=
  ⟨h.le, fun j hj => (heq j (hj.trans_le h.le)).mp (h.upto j hj),
    fun hlt hc => h.stop hlt ((heq c hlt).mpr hc)⟩

/-- Counting until one does not agree. -/
def longestPrefix (p : ℕ → Bool) : ℕ → ℕ
  | 0 => 0
  | n + 1 => if longestPrefix p n = n ∧ p n = true then n + 1 else longestPrefix p n

/-- The length that counting finds is that of the longest prefix where the test holds. -/
theorem longestPrefix_spec (p : ℕ → Bool) (n : ℕ) :
    IsLongestPrefix (fun j => p j = true) n (longestPrefix p n) := by
  induction n with
  | zero =>
    exact ⟨le_rfl, fun j hj => absurd hj (Nat.not_lt_zero j), fun h => absurd h (lt_irrefl 0)⟩
  | succ n ih =>
    rw [longestPrefix]
    split
    next h =>
      refine ⟨le_rfl, fun j hj => ?_, fun hlt => absurd hlt (lt_irrefl _)⟩
      rcases Nat.lt_succ_iff_lt_or_eq.mp hj with hlt | rfl
      · exact ih.upto j (h.1.symm ▸ hlt)
      · exact h.2
    next h =>
      refine ⟨ih.le.trans (Nat.le_succ n), ih.upto, fun _ hp => ?_⟩
      rcases ih.le.lt_or_eq with hlt | heq
      · exact ih.stop hlt hp
      · exact h ⟨heq, heq ▸ hp⟩

/-! ## Drafts -/

/-- The first `j` proposals. -/
def proposals (d : ℕ → T) (j : ℕ) : List T := (List.range j).map d

theorem proposals_succ (d : ℕ → T) (j : ℕ) : proposals d (j + 1) = proposals d j ++ [d j] := by
  rw [proposals, List.range_succ, List.map_append]
  rfl

/-- Proposals that are the model's choices are what greedy decoding appends. -/
theorem proposals_of_agree (h : ∀ j, j < n → d j = next (ctx ++ proposals d j)) :
    proposals d n = greedyDecode next ctx n := by
  induction n with
  | zero => rfl
  | succ n ih =>
    rw [proposals_succ, greedyDecode_succ, ← ih fun j hj => h j (hj.trans (Nat.lt_succ_self n)),
      ← h n (Nat.lt_succ_self n)]

/-- **The bonus**: proposals that are the model's choices, and the choice after them, are what
greedy decoding appends. -/
theorem greedyDecode_of_agree (h : ∀ j, j < n → d j = next (ctx ++ proposals d j)) :
    proposals d n ++ [next (ctx ++ proposals d n)] = greedyDecode next ctx (n + 1) := by
  rw [greedyDecode_succ, ← proposals_of_agree h]

/-- The proposals that are the model's choices, up to the first that is not, are those that
greedy decoding appends. -/
theorem IsLongestPrefix.greedy
    (h : IsLongestPrefix (fun j => d j = next (ctx ++ proposals d j)) n c) :
    IsLongestPrefix (fun j => proposals d (j + 1) = greedyDecode next ctx (j + 1)) n c := by
  refine ⟨h.le, fun j hj => ?_, fun hlt hgreedy => h.stop hlt ?_⟩
  · exact proposals_of_agree fun i hi => h.upto i (by omega)
  · have hstarts := proposals_of_agree h.upto
    rw [proposals_succ, greedyDecode_succ, ← hstarts] at hgreedy
    exact List.singleton_injective (List.append_cancel_left hgreedy)

end LuzServing

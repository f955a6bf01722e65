import LuzServing.GreedyDecode
import LuzServing.FastArgmax

/-!
# Accepting a verified block

A verify step runs the target on a block of candidates per request: the anchor, which is the
last token, and the drafts. `accept_greedy` counts the drafts that are the target's choices,
caps the count when the request verified fewer than the whole block, and gathers the bonus
again at the capped count; `finalize_accept_lens` counts the bonus in. Each has a torch and a
Triton version, and they agree (`accept_spec`, `finalize_spec`).
-/

namespace LuzServing

universe u

/-! ## What is outside -/

/-- `compute_dflash_correct_drafts_and_bonus`, which is not part of the repository. -/
structure DraftsOp : Type where
  /-- rows, columns, `candidates` and `target_predict` to `correct_len` and `bonus` -/
  run : ℕ → ℕ → (ℕ → ℕ → ℕ) → (ℕ → ℕ → ℕ) → (ℕ → ℤ) × (ℕ → ℕ)
  /-- how many of `candidates[:, 1:]` agree with `target_predict[:, :-1]`, and the prediction
  there -/
  spec : ∀ (bs cols : ℕ) (candidates predict : ℕ → ℕ → ℕ) (b : ℕ), b < bs → 0 < cols → ∃ c : ℕ,
      (run bs cols candidates predict).1 b = c ∧
      (run bs cols candidates predict).2 b = predict b c ∧
      IsLongestPrefix (fun j => candidates b (j + 1) = predict b j) (cols - 1) c

/-- Where a call runs, and what `torch.empty` finds there. -/
structure AcceptDevice : Type where
  /-- `inputs_on_cuda`, of the tensors of `AcceptGreedy` -/
  acceptOnCuda : Bool
  /-- and of `CapCorrectLen` -/
  capOnCuda : Bool
  /-- and of `FinalizeAcceptLens` -/
  finalizeOnCuda : Bool
  /-- the memory of new integer tensors -/
  emptyInt : ℕ → ℤ
  /-- the memory of a new tensor of tokens -/
  emptyTok : ℕ → ℕ

/-! ## `CapCorrectLen` -/

/-- `cap_correct_len`: the capped counts, and what the cap took off. -/
def capCorrectLen (correctLen verifyLens : ℕ → ℤ) : (ℕ → ℤ) × (ℕ → ℤ) :=
  let ellR := fun b => verifyLens b - 1
  let capped := fun b => min (correctLen b) (ellR b)
  (capped, fun b => correctLen b - capped b)

/-- `cap_correct_len_triton`. -/
def capCorrectLenTriton (dev : AcceptDevice) (n : ℕ) (correctLen verifyLens : ℕ → ℤ) :
    (ℕ → ℤ) × (ℕ → ℤ) :=
  (launch dev.emptyInt n 1024 fun offs => min (correctLen offs) (verifyLens offs - 1),
    launch dev.emptyInt n 1024 fun offs =>
      correctLen offs - min (correctLen offs) (verifyLens offs - 1))

/-- `CapCorrectLen.execute`. -/
def CapCorrectLen.execute (dev : AcceptDevice) (n : ℕ) (correctLen verifyLens : ℕ → ℤ) :
    (ℕ → ℤ) × (ℕ → ℤ) :=
  if dev.capOnCuda = true then capCorrectLenTriton dev n correctLen verifyLens
  else capCorrectLen correctLen verifyLens

/-! ## `AcceptGreedy` -/

/-- The arguments of `accept_greedy`. -/
structure AcceptArgs (S : Type u) : Type u where
  /-- requests -/
  bs : ℕ
  /-- `candidates`: the anchor and the drafts of a request -/
  candidates : ℕ → ℕ → ℕ
  /-- `target_logits`: the rows of request `0`, then of request `1`, and so on -/
  targetLogits : LogitsTensor S
  /-- its columns -/
  vocab : ℕ
  /-- the length of a block -/
  verifyNumDraftTokens : ℕ
  /-- how much of its block a request has verified; `none` when all have verified all of it -/
  cutoffVerifyLens : Option (ℕ → ℤ)

/-- What `accept_greedy` returns. -/
structure Accepted : Type where
  /-- the drafts that are accepted -/
  correctLen : ℕ → ℤ
  /-- the token after them -/
  bonus : ℕ → ℕ
  /-- what the cap took off -/
  capTrimLens : ℕ → ℤ

section

variable {S : Type u} [LinearOrder S] [OrderBot S]

/-- `_row_argmax(target_logits).view(bs, verify_num_draft_tokens)`. -/
def AcceptArgs.targetPredict (a : AcceptArgs S) (b j : ℕ) : ℕ :=
  rowArgmax a.targetLogits (a.bs * a.verifyNumDraftTokens) a.vocab
    (b * a.verifyNumDraftTokens + j)

/-- `target_predict[row_ids, idx]`: a negative index counts from the end. -/
def gatherRowBonus (table : ℕ → ℕ → ℕ) (cols : ℕ) (idx : ℕ → ℤ) (b : ℕ) : ℕ :=
  table b (if idx b < 0 then idx b + cols else idx b).toNat

/-- `gather_row_bonus_triton`: the row-major table is read at `offs * cols + idx`. -/
def gatherRowBonusTriton (dev : AcceptDevice) (bs : ℕ) (table : ℕ → ℕ → ℕ) (cols : ℕ)
    (idx : ℕ → ℤ) : ℕ → ℕ :=
  launch dev.emptyTok bs 256 fun offs =>
    table ((offs * cols + idx offs).toNat / cols) ((offs * cols + idx offs).toNat % cols)

/-- `accept_greedy`. -/
def acceptGreedy (op : DraftsOp) (dev : AcceptDevice) (a : AcceptArgs S) : Accepted :=
  let drafts := op.run a.bs a.verifyNumDraftTokens a.candidates a.targetPredict
  match a.cutoffVerifyLens with
  | none => ⟨drafts.1, drafts.2, fun _ => 0⟩
  | some verifyLens =>
    let cap := CapCorrectLen.execute dev a.bs drafts.1 verifyLens
    ⟨cap.1, gatherRowBonus a.targetPredict a.verifyNumDraftTokens cap.1, cap.2⟩

/-- `accept_greedy_triton`. -/
def acceptGreedyTriton (op : DraftsOp) (dev : AcceptDevice) (a : AcceptArgs S) : Accepted :=
  let drafts := op.run a.bs a.verifyNumDraftTokens a.candidates a.targetPredict
  match a.cutoffVerifyLens with
  | none => ⟨drafts.1, drafts.2, fun _ => 0⟩
  | some verifyLens =>
    let cap := CapCorrectLen.execute dev a.bs drafts.1 verifyLens
    ⟨cap.1, gatherRowBonusTriton dev a.bs a.targetPredict a.verifyNumDraftTokens cap.1, cap.2⟩

/-- `AcceptGreedy.execute`. -/
def AcceptGreedy.execute (op : DraftsOp) (dev : AcceptDevice) (a : AcceptArgs S) : Accepted :=
  if dev.acceptOnCuda = true then acceptGreedyTriton op dev a else acceptGreedy op dev a

end

/-! ## `FinalizeAcceptLens` -/

/-- `FinalizeAcceptLensResult`. -/
structure FinalizeAcceptLensResult : Type where
  /-- the tokens a request commits: its accepted drafts and the bonus -/
  commitLens : ℕ → ℤ
  /-- its length after the step -/
  newSeqLens : ℕ → ℤ
  /-- what the cap took off -/
  capTrimLens : ℕ → ℤ

/-- `finalize_accept_lens`. -/
def finalizeAcceptLens (correctLen capTrimLens prefixLens : ℕ → ℤ) : FinalizeAcceptLensResult :=
  let commitLens := fun b => correctLen b + 1
  ⟨commitLens, fun b => prefixLens b + commitLens b, capTrimLens⟩

/-- `finalize_accept_lens_triton`. -/
def finalizeAcceptLensTriton (dev : AcceptDevice) (bs : ℕ)
    (correctLen capTrimLens prefixLens : ℕ → ℤ) : FinalizeAcceptLensResult :=
  ⟨launch dev.emptyInt bs 256 fun offs => correctLen offs + 1,
    launch dev.emptyInt bs 256 fun offs => prefixLens offs + (correctLen offs + 1),
    launch dev.emptyInt bs 256 capTrimLens⟩

/-- `FinalizeAcceptLens.execute`. -/
def FinalizeAcceptLens.execute (dev : AcceptDevice) (bs : ℕ)
    (correctLen capTrimLens prefixLens : ℕ → ℤ) : FinalizeAcceptLensResult :=
  if dev.finalizeOnCuda = true then
    finalizeAcceptLensTriton dev bs correctLen capTrimLens prefixLens
  else finalizeAcceptLens correctLen capTrimLens prefixLens

/-! ## Both versions do the same -/

section

variable {S : Type u} [LinearOrder S] [OrderBot S] {op : DraftsOp} {a : AcceptArgs S} {b : ℕ}
  (dev : AcceptDevice)

omit [LinearOrder S] [OrderBot S] in
theorem capCorrectLen_spec (correctLen verifyLens : ℕ → ℤ) (hb : b < a.bs) :
    (CapCorrectLen.execute dev a.bs correctLen verifyLens).1 b =
        min (correctLen b) (verifyLens b - 1) ∧
      (CapCorrectLen.execute dev a.bs correctLen verifyLens).2 b =
        correctLen b - min (correctLen b) (verifyLens b - 1) := by
  rw [CapCorrectLen.execute, capCorrectLenTriton]
  split
  next =>
    dsimp only
    exact ⟨launch_eq (by decide) hb, launch_eq (by decide) hb⟩
  next => exact ⟨rfl, rfl⟩

/-- Where the index of a row is a column, both ways of gathering the bonus read the table there. -/
theorem gatherRowBonus_eq {table : ℕ → ℕ → ℕ} {cols c : ℕ} {idx : ℕ → ℤ} (hidx : idx b = c) :
    gatherRowBonus table cols idx b = table b c := by
  rw [gatherRowBonus, hidx, if_neg (not_lt.mpr (Int.natCast_nonneg c)), Int.toNat_natCast]

theorem gatherRowBonusTriton_eq {bs : ℕ} {table : ℕ → ℕ → ℕ} {cols c : ℕ} {idx : ℕ → ℤ}
    (hb : b < bs) (hidx : idx b = c) (hc : c < cols) :
    gatherRowBonusTriton dev bs table cols idx b = table b c := by
  have hcell : ((b : ℤ) * cols + idx b).toNat = b * cols + c := by
    rw [hidx]
    exact Int.toNat_natCast (b * cols + c)
  rw [gatherRowBonusTriton, launch_eq (by decide) hb, hcell, Nat.mul_comm b cols,
    Nat.mul_add_div (Nat.zero_lt_of_lt hc), Nat.div_eq_of_lt hc, Nat.add_zero,
    Nat.mul_add_mod, Nat.mod_eq_of_lt hc]

/-- How much of its block a request has verified. -/
def AcceptArgs.verified (a : AcceptArgs S) (b : ℕ) : ℤ :=
  match a.cutoffVerifyLens with
  | none => a.verifyNumDraftTokens
  | some verifyLens => verifyLens b

/-- **Both versions** accept the matching drafts within the cap, with the target's prediction
after them, and say what the cap took off. -/
theorem accept_spec {m : ℕ} (hb : b < a.bs) (hlo : 1 ≤ a.verified b)
    (hhi : a.verified b ≤ a.verifyNumDraftTokens)
    (hlen : (op.run a.bs a.verifyNumDraftTokens a.candidates a.targetPredict).1 b = m)
    (hbonus : (op.run a.bs a.verifyNumDraftTokens a.candidates a.targetPredict).2 b =
      a.targetPredict b m)
    (hm : m ≤ a.verifyNumDraftTokens - 1) :
    (AcceptGreedy.execute op dev a).correctLen b = (min m ((a.verified b).toNat - 1) : ℕ) ∧
      (AcceptGreedy.execute op dev a).bonus b =
        a.targetPredict b (min m ((a.verified b).toNat - 1)) ∧
      (AcceptGreedy.execute op dev a).capTrimLens b =
        m - (min m ((a.verified b).toNat - 1) : ℕ) := by
  rw [AcceptGreedy.execute, acceptGreedy, acceptGreedyTriton]
  rw [AcceptArgs.verified] at *
  cases hcut : a.cutoffVerifyLens with
  | none =>
    rw [hcut] at hlo
    dsimp only at *
    rw [ite_self, Int.toNat_natCast, min_eq_left hm]
    exact ⟨hlen, hbonus, (sub_self _).symm⟩
  | some verifyLens =>
    rw [hcut] at hlo hhi
    dsimp only at *
    obtain ⟨hcap, htrim⟩ := capCorrectLen_spec (a := a) dev
      (op.run a.bs a.verifyNumDraftTokens a.candidates a.targetPredict).1 verifyLens hb
    have hmin : min (m : ℤ) (verifyLens b - 1) = (min m ((verifyLens b).toNat - 1) : ℕ) := by
      omega
    rw [hlen, hmin] at hcap htrim
    split
    next =>
      dsimp only
      exact ⟨hcap, gatherRowBonusTriton_eq dev hb hcap (by omega), htrim⟩
    next =>
      dsimp only
      exact ⟨hcap, gatherRowBonus_eq hcap, htrim⟩

/-- Both versions of `FinalizeAcceptLens` count the bonus into the length that is committed. -/
theorem finalize_spec {bs : ℕ} (correctLen capTrimLens prefixLens : ℕ → ℤ) (hb : b < bs) :
    (FinalizeAcceptLens.execute dev bs correctLen capTrimLens prefixLens).commitLens b =
        correctLen b + 1 ∧
      (FinalizeAcceptLens.execute dev bs correctLen capTrimLens prefixLens).newSeqLens b =
        prefixLens b + (correctLen b + 1) ∧
      (FinalizeAcceptLens.execute dev bs correctLen capTrimLens prefixLens).capTrimLens b =
        capTrimLens b := by
  rw [FinalizeAcceptLens.execute, finalizeAcceptLensTriton]
  split
  next =>
    dsimp only
    exact ⟨launch_eq (by decide) hb, launch_eq (by decide) hb, launch_eq (by decide) hb⟩
  next => exact ⟨rfl, rfl, rfl⟩

end

end LuzServing

import LuzServing.AcceptGreedy
import LuzServing.Machine

/-!
# Speculation is lossless

Requests are decoded in verify steps: any batch of them, any drafts, any lengths up to which a
block is verified, on either device. What a step commits of a request is what greedy decoding
appends (`verifyStep_spec`), so in every state that a run reaches the committed tokens are
greedy decoding's, and a cap makes steps shorter and nothing else (`accept_lossless`).
-/

namespace LuzServing

universe u

/-! ## The target and the requests -/

/-- The target model, by what the decoding uses of it: its vocabulary and its logits after a
context. -/
structure TargetModel (S : Type u) : Type u where
  /-- the vocabulary's size -/
  vocab : ℕ
  /-- there is a token to choose -/
  vocab_pos : 0 < vocab
  /-- the lanes of the last tile have indices of 32 bits -/
  vocab_le : vocab + 2048 ≤ 2 ^ 31
  /-- the logits of the next token -/
  logits : List ℕ → ℕ → S

/-- The token that greedy decoding chooses next. -/
def TargetModel.choice {S : Type u} [LinearOrder S] (target : TargetModel S) (tokens : List ℕ) :
    ℕ :=
  argmax (target.logits tokens) target.vocab

/-- A request that is being decoded. -/
structure SpecRequest : Type where
  /-- its prompt -/
  prompt : List ℕ
  /-- the token that the prefill of the prompt has given, the first anchor -/
  first : ℕ
  /-- the tokens that the verify steps have committed -/
  out : List ℕ
  /-- its entry of `seq_lens` -/
  seqLen : ℤ

namespace SpecRequest

/-- All its tokens; the last is the anchor of the next block. -/
def tokens (q : SpecRequest) : List ℕ := q.prompt ++ [q.first] ++ q.out

/-- Commit the tokens of a step. -/
def commit (q : SpecRequest) (committed : List ℕ) (newSeqLen : ℤ) : SpecRequest :=
  { q with out := q.out ++ committed, seqLen := newSeqLen }

end SpecRequest

/-- The requests that are being decoded, by the slot that each of them has. -/
abbrev SpecState : Type := ℕ → Option SpecRequest

/-! ## Verify steps -/

/-- A batch of requests with their verified blocks. -/
structure VerifyBatch (S : Type u) : Type u where
  /-- the slot of a row -/
  reqs : ℕ → ℕ
  /-- the blocks -/
  args : AcceptArgs S
  /-- where the step runs -/
  dev : AcceptDevice

namespace VerifyBatch

variable {S : Type u} [LinearOrder S] [OrderBot S] (op : DraftsOp) (batch : VerifyBatch S)

/-- The drafts of a row: its candidates after the anchor. -/
def drafts (b j : ℕ) : ℕ := batch.args.candidates b (j + 1)

/-- What `AcceptGreedy` returns. -/
def accepted : Accepted := AcceptGreedy.execute op batch.dev batch.args

/-- The tokens that a row commits: its accepted drafts, and the bonus. -/
def committed (b : ℕ) : List ℕ :=
  proposals (batch.drafts b) ((batch.accepted op).correctLen b).toNat ++
    [(batch.accepted op).bonus b]

/-- What `FinalizeAcceptLens` returns. -/
def finalized (s : SpecState) : FinalizeAcceptLensResult :=
  FinalizeAcceptLens.execute batch.dev batch.args.bs (batch.accepted op).correctLen
    (batch.accepted op).capTrimLens fun b => (s (batch.reqs b)).elim 0 SpecRequest.seqLen

/-- A batch the scheduler may form: the rows are distinct requests, a row's block starts with
its anchor, and the target has been run on as much of the block as is verified; logits past
that may be anything. -/
structure Allowed (target : TargetModel S) (s : SpecState) : Prop where
  /-- a block has its anchor -/
  block : 0 < batch.args.verifyNumDraftTokens
  /-- the anchor at least is verified -/
  lo : ∀ b, b < batch.args.bs → 1 ≤ batch.args.verified b
  /-- and at most the block -/
  hi : ∀ b, b < batch.args.bs → batch.args.verified b ≤ batch.args.verifyNumDraftTokens
  /-- the logits are the target's -/
  vocab : batch.args.vocab = target.vocab
  /-- offsets in their tensor are of 32 bits -/
  offsets : batch.args.targetLogits.OffsetsFit
    (batch.args.bs * batch.args.verifyNumDraftTokens) target.vocab
  /-- no request twice -/
  distinct : ∀ b b', b < batch.args.bs → b' < batch.args.bs → batch.reqs b = batch.reqs b' →
    b = b'
  /-- a row is a request's, with its anchor -/
  live : ∀ b, b < batch.args.bs → ∃ q, s (batch.reqs b) = some q ∧
    q.tokens.getLast? = some (batch.args.candidates b 0)
  /-- the target has seen the tokens and the drafts before a place -/
  logits : ∀ b q, b < batch.args.bs → s (batch.reqs b) = some q → ∀ j : ℕ,
    (j : ℤ) < batch.args.verified b → ∀ token, token < target.vocab →
      batch.args.targetLogits.entry (b * batch.args.verifyNumDraftTokens + j) token =
        target.logits (q.tokens ++ proposals (batch.drafts b) j) token

end VerifyBatch

section

variable {S : Type u} [LinearOrder S] [OrderBot S] (op : DraftsOp) (target : TargetModel S)

/-- A verify step: every row's request commits its tokens. -/
def verifyStep (s : SpecState) (batch : VerifyBatch S) : SpecState :=
  storeAll s ((List.range batch.args.bs).map fun b => (batch.reqs b,
    (s (batch.reqs b)).map fun q =>
      q.commit (batch.committed op b) ((batch.finalized op s).newSeqLens b)))

/-- What can happen to the requests. -/
inductive SpecAct (S : Type u) : Type u where
  /-- a request has been prefilled, and its first token is known -/
  | enter (r : ℕ) (prompt : List ℕ) (first : ℕ) : SpecAct S
  /-- a batch is verified -/
  | verify (batch : VerifyBatch S) : SpecAct S

/-- A step of the decoding: a request comes in, or a batch is verified. -/
def specStep (s : SpecState) : SpecAct S → SpecState → Prop
  | .enter r prompt first, s' =>
    s' = Function.update s r (some ⟨prompt, first, [], prompt.length⟩)
  | .verify batch, s' => batch.Allowed target s ∧ s' = verifyStep op s batch

/-- The decoding of requests by verify steps. -/
def specMachine : Machine SpecState (SpecAct S) where
  init s := ∀ r, s r = none
  step := specStep op target

/-- The committed tokens are greedy decoding's. -/
structure SpecRequest.Lossless (q : SpecRequest) : Prop where
  /-- after the prompt and the prefill's token -/
  out : q.out = greedyDecode target.choice (q.prompt ++ [q.first]) q.out.length
  /-- and after the prompt, when the prefill's token is greedy too -/
  all : q.first = target.choice q.prompt →
    q.first :: q.out = greedyDecode target.choice q.prompt (q.out.length + 1)
  /-- all but the anchor is in the cache -/
  seqLen : q.seqLen = q.prompt.length + q.out.length

/-- What a step does for a row whose request is `q`. -/
structure StepRight (s : SpecState) (batch : VerifyBatch S) (b : ℕ) (q : SpecRequest) : Prop where
  /-- the request commits `commit_lens` tokens -/
  length : (batch.finalized op s).commitLens b = (batch.committed op b).length
  /-- at least one -/
  pos : 1 ≤ (batch.finalized op s).commitLens b
  /-- and at most as many as are verified -/
  le : (batch.finalized op s).commitLens b ≤ batch.args.verified b
  /-- greedy decoding's -/
  tokens : batch.committed op b =
    greedyDecode target.choice q.tokens (batch.committed op b).length
  /-- the accepted drafts are as many as greedy decoding agrees with, within the cap -/
  agree : IsLongestPrefix
    (fun j => proposals (batch.drafts b) (j + 1) = greedyDecode target.choice q.tokens (j + 1))
    ((batch.args.verified b).toNat - 1) ((batch.committed op b).length - 1)
  /-- the cap's trim is the matching drafts without the accepted ones -/
  trim : (batch.finalized op s).capTrimLens b =
    (op.run batch.args.bs batch.args.verifyNumDraftTokens batch.args.candidates
      batch.args.targetPredict).1 b - (batch.accepted op).correctLen b
  /-- the length grows by what is committed -/
  seqLen : (batch.finalized op s).newSeqLens b =
    q.seqLen + (batch.finalized op s).commitLens b

variable {op target} {s s' : SpecState} {batch : VerifyBatch S}

/-! ## A step -/

/-- A prediction of the verified part of a block is the target's choice. -/
theorem VerifyBatch.Allowed.predict_eq (hb : batch.Allowed target s) {b j : ℕ} {q : SpecRequest}
    (hlt : b < batch.args.bs) (hq : s (batch.reqs b) = some q)
    (hj : (j : ℤ) < batch.args.verified b) :
    batch.args.targetPredict b j = target.choice (q.tokens ++ proposals (batch.drafts b) j) := by
  -- the row is one of the tensor's
  have hrow : b * batch.args.verifyNumDraftTokens + j <
      batch.args.bs * batch.args.verifyNumDraftTokens := by
    have hhi := hb.hi b hlt
    have hmul := Nat.mul_le_mul_right batch.args.verifyNumDraftTokens (Nat.succ_le_of_lt hlt)
    rw [Nat.succ_mul] at hmul
    omega
  rw [AcceptArgs.targetPredict, hb.vocab,
    rowArgmax_eq _ target.vocab_pos target.vocab_le hb.offsets hrow]
  exact argmax_congr target.vocab_pos (hb.logits b q hlt hq j hj)

/-- In an allowed batch, a verify step does to the row of a request what `StepRight` asks of it. -/
theorem verifyStep_spec (hb : batch.Allowed target s) {b : ℕ} {q : SpecRequest}
    (hlt : b < batch.args.bs) (hq : s (batch.reqs b) = some q) :
    StepRight op target s batch b q := by
  have hlo := hb.lo b hlt
  have hhi := hb.hi b hlt
  obtain ⟨m, hlen, hbonus, hmatch⟩ := op.spec _ _ batch.args.candidates
    batch.args.targetPredict b hlt hb.block
  obtain ⟨hcorrect, hgather, htrim⟩ :=
    accept_spec batch.dev hlt hlo hhi hlen hbonus hmatch.le
  obtain ⟨hcommit, hseq, hcap⟩ := finalize_spec batch.dev (batch.accepted op).correctLen
    (batch.accepted op).capTrimLens (fun b => (s (batch.reqs b)).elim 0 SpecRequest.seqLen) hlt
  -- within the cap, agreeing with the predictions is agreeing with the target's choices
  have hcut : IsLongestPrefix
      (fun j => batch.drafts b j = target.choice (q.tokens ++ proposals (batch.drafts b) j))
      ((batch.args.verified b).toNat - 1) (min m ((batch.args.verified b).toNat - 1)) :=
    (hmatch.cut ((batch.args.verified b).toNat - 1) (by omega)).congr fun j hj => by
      rw [hb.predict_eq hlt hq (by omega), VerifyBatch.drafts]
  generalize hc : min m ((batch.args.verified b).toNat - 1) = c at hcorrect hgather htrim hcut
  rw [hb.predict_eq hlt hq (by omega)] at hgather
  have htokens : batch.committed op b = greedyDecode target.choice q.tokens (c + 1) := by
    rw [VerifyBatch.committed, VerifyBatch.accepted, hcorrect, hgather, Int.toNat_natCast]
    exact greedyDecode_of_agree hcut.upto
  have hlength : (batch.committed op b).length = c + 1 := by rw [htokens, length_greedyDecode]
  have hcommit' : (batch.finalized op s).commitLens b = c + 1 := by
    rw [VerifyBatch.finalized, hcommit, VerifyBatch.accepted, hcorrect]
  refine ⟨?_, ?_, ?_, ?_, ?_, ?_, ?_⟩
  · rw [hcommit', hlength, Nat.cast_succ]
  · omega
  · omega
  · rw [hlength, htokens]
  · rw [hlength]
    exact hcut.greedy
  · rw [VerifyBatch.finalized, hcap, VerifyBatch.accepted, htrim, hlen, hcorrect]
  · rw [hcommit', VerifyBatch.finalized, hseq, hq, VerifyBatch.accepted, hcorrect]
    rfl

/-! ## Runs -/

omit [OrderBot S] in
/-- A request that has just come in is lossless, since it has not committed anything yet. -/
theorem SpecRequest.lossless_enter (prompt : List ℕ) (first : ℕ) :
    (⟨prompt, first, [], prompt.length⟩ : SpecRequest).Lossless target := by
  refine ⟨rfl, fun hfirst => ?_, (add_zero _).symm⟩
  dsimp only at hfirst
  rw [hfirst]
  rfl

omit [OrderBot S] in
/-- A request that commits what greedy decoding appends to its tokens still has the tokens of greedy
decoding. -/
theorem SpecRequest.Lossless.commit {q : SpecRequest} (h : q.Lossless target) {l : List ℕ}
    {n : ℤ} (hl : l = greedyDecode target.choice q.tokens l.length) (hn : n = q.seqLen + l.length) :
    (q.commit l n).Lossless target := by
  have hout : q.out ++ l =
      greedyDecode target.choice (q.prompt ++ [q.first]) (q.out ++ l).length := by
    rw [List.length_append, greedyDecode_add, ← h.out, ← SpecRequest.tokens, ← hl]
  refine ⟨hout, fun hfirst => ?_, ?_⟩
  · change q.first = target.choice q.prompt at hfirst
    change q.first :: (q.out ++ l) = greedyDecode target.choice q.prompt ((q.out ++ l).length + 1)
    rw [greedyDecode, ← hfirst, ← hout]
  · change n = q.prompt.length + (q.out ++ l).length
    rw [hn, h.seqLen, List.length_append, Nat.cast_add, add_assoc]

/-- A verify step leaves every request that is decoded losslessly one whose tokens are greedy
decoding's. -/
theorem verifyStep_lossless (hb : batch.Allowed target s)
    (hs : ∀ r q, s r = some q → q.Lossless target) (r : ℕ) (q : SpecRequest)
    (hq : verifyStep op s batch r = some q) : q.Lossless target := by
  by_cases hin : ∃ b ∈ List.range batch.args.bs, batch.reqs b = r
  · obtain ⟨b, hmem, rfl⟩ := hin
    have hlt := List.mem_range.mp hmem
    obtain ⟨old, hold, -⟩ := hb.live b hlt
    have hstep : StepRight op target s batch b old := verifyStep_spec hb hlt hold
    rw [verifyStep, storeAll_map_eq batch.reqs _ hmem fun b' hb' heq => by
      rw [hb.distinct b' b (List.mem_range.mp hb') hlt heq], hold] at hq
    obtain rfl := Option.some.inj hq
    refine (hs _ old hold).commit hstep.tokens ?_
    rw [hstep.seqLen, hstep.length]
  · rw [verifyStep, storeAll_map_of_ne fun b hmem heq => hin ⟨b, hmem, heq⟩] at hq
    exact hs r q hq

variable (op target)

/-- The committed tokens of every request are greedy decoding's, over every run. -/
theorem lossless_invariant : (specMachine op target).Invariant
    fun s => ∀ r q, s r = some q → q.Lossless target := by
  refine ⟨fun s hs r q hq => ?_, fun s a s' hs hstep r q hq => ?_⟩
  · rw [hs r] at hq
    cases hq
  · cases a with
    | enter r' prompt first =>
      obtain rfl := hstep
      rcases eq_or_ne r r' with rfl | hne
      · rw [Function.update_self] at hq
        obtain rfl := Option.some.inj hq
        exact SpecRequest.lossless_enter prompt first
      · rw [Function.update_of_ne hne] at hq
        exact hs r q hq
    | verify batch =>
      obtain ⟨hb, rfl⟩ := hstep
      exact verifyStep_lossless hb hs r q hq

/-- **Speculation is lossless**: in every state that a run reaches, the committed tokens of
every request are those of greedy decoding, and every row of every verify step commits
between one token and as many as are verified, as many as agree. -/
theorem accept_lossless {s : SpecState} (hs : (specMachine op target).Reach s) :
    (∀ r q, s r = some q → q.Lossless target) ∧
      ∀ batch : VerifyBatch S, batch.Allowed target s → ∀ b q, b < batch.args.bs →
        s (batch.reqs b) = some q → StepRight op target s batch b q :=
  ⟨(lossless_invariant op target).reach hs, fun _ hb _ _ hlt hq => verifyStep_spec hb hlt hq⟩

end

/-! ## A capped step -/

/-- Counting the agreeing drafts, and gathering the prediction there. -/
def countDrafts : DraftsOp where
  run _ cols candidates predict :=
    (fun b => longestPrefix (fun j => candidates b (j + 1) == predict b j) (cols - 1),
      fun b => predict b (longestPrefix (fun j => candidates b (j + 1) == predict b j) (cols - 1)))
  spec _ cols candidates predict b _ _ :=
    ⟨longestPrefix (fun j => candidates b (j + 1) == predict b j) (cols - 1), rfl, rfl,
      (longestPrefix_spec _ _).congr fun _ _ => beq_iff_eq⟩

/-- A model of three tokens, which it takes in turn. -/
def turns : TargetModel ℕ where
  vocab := 3
  vocab_pos := by decide
  vocab_le := by decide
  logits tokens i := if i = tokens.length % 3 then 1 else 0

/-- A request whose prompt is one token. -/
def turnsRequest : SpecRequest := ⟨[0], 1, [], 1⟩

/-- The state of the example after its one request has come in. -/
def turnsState : SpecState := Function.update (fun _ => none) 0 (some turnsRequest)

/-- Its anchor and two drafts, which are right. -/
def turnsCandidates (_ j : ℕ) : ℕ := if j = 0 then 1 else if j = 1 then 2 else 0

/-- Its block, of which the first draft is verified and the second is not. -/
def turnsBatch : VerifyBatch ℕ where
  reqs _ := 0
  args :=
    { bs := 1
      candidates := turnsCandidates
      targetLogits := ⟨true, 2, true, 3, 1, fun off => turns.logits (turnsRequest.tokens ++
        proposals (fun j => turnsCandidates 0 (j + 1)) (off / 3).toNat) (off % 3).toNat⟩
      vocab := 3
      verifyNumDraftTokens := 3
      cutoffVerifyLens := some fun _ => 2 }
  dev := ⟨true, true, true, fun _ => 0, fun _ => 0⟩

theorem turnsBatch_allowed : turnsBatch.Allowed turns turnsState := by
  have hzero : ∀ b, b < turnsBatch.args.bs → b = 0 := fun b hb => Nat.lt_one_iff.mp hb
  constructor
  case block => decide
  case lo => exact fun _ _ => (by decide : (1 : ℤ) ≤ 2)
  case hi => exact fun _ _ => (by decide : (2 : ℤ) ≤ 3)
  case vocab => rfl
  case offsets => exact (by decide : (3 - 1) * 3 + 3 ≤ 2 ^ 31)
  case distinct =>
    intro b b' hb hb' _
    rw [hzero b hb, hzero b' hb']
  case live => exact fun b _ => ⟨turnsRequest, rfl, rfl⟩
  case logits =>
    intro b q hb hq j hj token htoken
    obtain rfl := hzero b hb
    obtain rfl := Option.some.inj hq
    have htoken : token < 3 := htoken
    -- the offset of the entry gives the row and the token again
    have hrow : (((0 * 3 + j) * 3 + token * 1 : ℕ) / 3 : ℤ).toNat = j := by omega
    have hcol : (((0 * 3 + j) * 3 + token * 1 : ℕ) % 3 : ℤ).toNat = token := by omega
    have hentry : turnsBatch.args.targetLogits.entry (0 * 3 + j) token = turns.logits
        (turnsRequest.tokens ++ proposals (fun j => turnsCandidates 0 (j + 1))
          (((0 * 3 + j) * 3 + token * 1 : ℕ) / 3 : ℤ).toNat)
        (((0 * 3 + j) * 3 + token * 1 : ℕ) % 3 : ℤ).toNat := rfl
    rw [hrow, hcol] at hentry
    exact hentry

/-- The step commits the first draft and the token after it, and trims one draft. -/
theorem accept_lossless_capped : turnsRequest.Lossless turns ∧
    StepRight countDrafts turns turnsState turnsBatch 0 turnsRequest := by
  have hinit : (specMachine (S := ℕ) countDrafts turns).Reach fun _ => none := .init fun _ => rfl
  have hentered : (specMachine countDrafts turns).Reach turnsState :=
    hinit.step (a := .enter 0 [0] 1) rfl
  obtain ⟨hall, hstep⟩ := accept_lossless countDrafts turns hentered
  exact ⟨hall 0 _ rfl, hstep _ turnsBatch_allowed 0 _ (by decide) rfl⟩

end LuzServing

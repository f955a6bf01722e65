import LuzServing.AcceptRuns
import LuzServing.FinishRuns

/-!
# What the user gets under speculation

A verify step commits several tokens of a request at once, and the scheduler checks them all in
one step. Here requests are decoded by verify steps and checked after each (`servingMachine`), in
any batches and with any drafts. What the user gets of a request is what decoding without
speculation gives, one token and one check at a time: the same tokens, and the same reason to
finish (`spec_output`).
-/

namespace LuzServing

universe u

open StopRules

/-! ## Serving -/

/-- The requests, how each is to stop, and what each has given. -/
structure Serving : Type where
  /-- the requests by slot -/
  spec : SpecState
  /-- when they stop -/
  rules : ℕ → StopRules
  /-- what they have given -/
  outputs : ℕ → OutputState

/-- Tokens as the scheduler has them. -/
def outputTokens (tokens : List ℕ) : List ℤ := tokens.map Nat.cast

theorem outputTokens_append (l l' : List ℕ) :
    outputTokens (l ++ l') = outputTokens l ++ outputTokens l' :=
  List.map_append

/-- What happens while requests are served. -/
inductive ServingAct (S : Type u) : Type u where
  /-- a request has been prefilled, and its first token is known -/
  | enter (r : ℕ) (prompt : List ℕ) (first : ℕ) (rules : StopRules) (text : String)
  /-- a batch is verified -/
  | verify (batch : VerifyBatch S)

section

variable {S : Type u} [LinearOrder S] [OrderBot S] (ops : TextOps) (op : DraftsOp)
  (target : TargetModel S)

/-- A step: what is decoded, and the check of every request that has new tokens. -/
def servingStep (s : Serving) : ServingAct S → Serving → Prop
  | .enter r prompt first rules text, s' =>
    specStep op target s.spec (.enter r prompt first) s'.spec ∧
      s'.rules = Function.update s.rules r rules ∧
      ∃ output, rules.acceptStep ops (.fresh text none) [(first : ℤ)] = .ok output ∧
        s'.outputs = Function.update s.outputs r output
  | .verify batch, s' =>
    specStep op target s.spec (.verify batch) s'.spec ∧ s'.rules = s.rules ∧
      (∀ b, b < batch.args.bs → (s.rules (batch.reqs b)).acceptStep ops
        (s.outputs (batch.reqs b)) (outputTokens (batch.committed op b)) =
          .ok (s'.outputs (batch.reqs b))) ∧
      ∀ r, (∀ b, b < batch.args.bs → batch.reqs b ≠ r) → s'.outputs r = s.outputs r

/-- Serving requests by verify steps. -/
def servingMachine : Machine Serving (ServingAct S) where
  init s := ∀ r, s.spec r = none
  step := servingStep ops op target

/-- A request that only tokens and the length end, in the model's vocabulary. -/
def TokenStops (_ : Serving) : ServingAct S → Prop
  | .enter _ _ first rules _ => rules.OnlyTokens ∧ first < target.vocab ∧
      ∀ n, n < target.vocab → rules.outside n = false
  | .verify _ => True

/-- What serving keeps of a request: it has given the tokens of the request, cut. -/
structure Serving.Right (s : Serving) (r : ℕ) (q : SpecRequest) : Prop where
  /-- only tokens and the length end it -/
  onlyTokens : (s.rules r).OnlyTokens
  /-- the model's tokens are in its vocabulary -/
  inside : ∀ n, n < target.vocab → (s.rules r).outside n = false
  /-- its first token is the model's -/
  first : q.first < target.vocab
  /-- it has been checked token for token -/
  output : ∃ text, s.outputs r = (s.rules r).decided text (outputTokens (q.first :: q.out))

variable {ops op target} {s s' : Serving} {a : ServingAct S}

omit [OrderBot S] in
/-- Every token of a greedy decoding is one that the model has in its vocabulary. -/
theorem greedyDecode_lt {ctx : List ℕ} {n t : ℕ} (h : t ∈ greedyDecode target.choice ctx n) :
    t < target.vocab := by
  induction n generalizing ctx with
  | zero => cases h
  | succ n ih =>
    rw [greedyDecode] at h
    rcases List.mem_cons.mp h with rfl | h
    · exact (argmax_spec target.vocab_pos).lt
    · exact ih h

/-- Whatever serving reaches, its speculative part is a state that decoding without any check
reaches. -/
theorem serving_spec_reach {guard : Serving → ServingAct S → Prop}
    (hs : ((servingMachine ops op target).guarded guard).Reach s) :
    (specMachine op target).Reach s.spec := by
  induction hs with
  | init hi => exact .init hi
  | @step s s' a _ hst ih =>
    cases a with
    | enter r prompt first rules text => exact ih.step (a := .enter r prompt first) hst.2.1
    | verify batch => exact ih.step (a := .verify batch) hst.2.1

/-- A verify step commits to the request of a row the tokens of the row, and to no more. -/
theorem verifyStep_row {st : SpecState} {batch : VerifyBatch S} (hb : batch.Allowed target st)
    {b : ℕ} (hlt : b < batch.args.bs) : verifyStep op st batch (batch.reqs b) =
      (st (batch.reqs b)).map fun q =>
        q.commit (batch.committed op b) ((batch.finalized op st).newSeqLens b) := by
  rw [verifyStep, storeAll_map_eq batch.reqs _ (List.mem_range.mpr hlt) fun b' hb' heq => by
    rw [hb.distinct b' b (List.mem_range.mp hb') hlt heq]]

/-- A verify step leaves the requests that have no row in its batch as they were. -/
theorem verifyStep_other {st : SpecState} {batch : VerifyBatch S} {r : ℕ}
    (hr : ∀ b, b < batch.args.bs → batch.reqs b ≠ r) : verifyStep op st batch r = st r := by
  rw [verifyStep, storeAll_map_of_ne fun b hb => hr b (List.mem_range.mp hb)]

omit [LinearOrder S] [OrderBot S] in
/-- The tokens of the model, read as output tokens, are all inside the vocabulary. -/
theorem outputTokens_inside {rules : StopRules} {tokens : List ℕ}
    (hinside : ∀ n, n < target.vocab → rules.outside n = false)
    (htokens : ∀ t ∈ tokens, t < target.vocab) :
    ∀ t ∈ outputTokens tokens, rules.outside t = false := by
  intro t ht
  obtain ⟨n, hn, rfl⟩ := List.mem_map.mp ht
  exact hinside n (htokens n hn)

/-- When what has been given is right before a verify step, it is right after it. -/
theorem serving_right_verify (hspec : (specMachine op target).Reach s.spec)
    (hright : ∀ r q, s.spec r = some q → s.Right target r q) {batch : VerifyBatch S}
    (h : servingStep ops op target s (.verify batch) s') {r : ℕ} {q : SpecRequest}
    (hq : s'.spec r = some q) : s'.Right target r q := by
  obtain ⟨⟨hb, hspec'⟩, hrules, haccept, hother⟩ := h
  rw [hspec'] at hq
  by_cases hin : ∃ b, b < batch.args.bs ∧ batch.reqs b = r
  · obtain ⟨b, hlt, rfl⟩ := hin
    rw [verifyStep_row hb hlt] at hq
    obtain ⟨old, hold, rfl⟩ := Option.map_eq_some_iff.mp hq
    obtain ⟨honly, hinside, hfirst, text, hout⟩ := hright _ old hold
    have hstep := (accept_lossless op target hspec).2 batch hb b old hlt hold
    have hcommitted : ∀ t ∈ batch.committed op b, t < target.vocab := fun t ht =>
      greedyDecode_lt (hstep.tokens ▸ ht)
    have hne : outputTokens (batch.committed op b) ≠ [] := by
      have hpos := hstep.pos
      rw [hstep.length] at hpos
      rw [outputTokens, Ne, List.map_eq_nil_iff, ← List.length_eq_zero_iff]
      omega
    have hnew := haccept b hlt
    rw [hout, acceptStep_decided honly hne (outputTokens_inside hinside hcommitted)] at hnew
    refine ⟨hrules ▸ honly, hrules ▸ hinside, hfirst, text, ?_⟩
    rw [← Except.ok.inj hnew, hrules, ← outputTokens_append]
    rfl
  · have hne : ∀ b, b < batch.args.bs → batch.reqs b ≠ r := fun b hlt heq => hin ⟨b, hlt, heq⟩
    rw [verifyStep_other hne] at hq
    obtain ⟨honly, hinside, hfirst, text, hout⟩ := hright r q hq
    exact ⟨hrules ▸ honly, hrules ▸ hinside, hfirst, text, by rw [hother r hne, hrules, hout]⟩

/-- What has been given is the request's tokens, cut, over every run. -/
theorem serving_right (hs : ((servingMachine ops op target).guarded (TokenStops target)).Reach s) :
    ∀ r q, s.spec r = some q → s.Right target r q := by
  induction hs with
  | init hi =>
    intro r q hq
    rw [hi r] at hq
    cases hq
  | @step s s' a hs hst hright =>
    intro r q hq
    cases a with
    | verify batch => exact serving_right_verify (serving_spec_reach hs) hright hst.2 hq
    | enter r' prompt first rules text =>
      obtain ⟨⟨honly, hfirst, hinside⟩, hspec, hrules, output, haccept, houtputs⟩ := hst
      rcases eq_or_ne r r' with rfl | hne
      · rw [hspec, Function.update_self] at hq
        obtain rfl := Option.some.inj hq
        have hopen : rules.acceptStep ops (.fresh text none) [(first : ℤ)] =
            .ok (rules.decided text [(first : ℤ)]) :=
          acceptStep_open honly (List.cons_ne_nil _ _) (fun t ht => by
            rw [List.mem_singleton.mp ht]
            exact hinside first hfirst) (.inr rfl)
        refine ⟨?_, ?_, hfirst, text, ?_⟩
        · rw [hrules, Function.update_self]
          exact honly
        · rw [hrules, Function.update_self]
          exact hinside
        · rw [hrules, houtputs, Function.update_self, Function.update_self]
          exact Except.ok.inj (haccept.symm.trans hopen)
      · rw [hspec, Function.update_of_ne hne] at hq
        obtain ⟨honly', hinside', hfirst', text', hout⟩ := hright r q hq
        refine ⟨?_, ?_, hfirst', text', ?_⟩
        · rw [hrules, Function.update_of_ne hne]
          exact honly'
        · rw [hrules, Function.update_of_ne hne]
          exact hinside'
        · rw [hrules, houtputs, Function.update_of_ne hne, Function.update_of_ne hne]
          exact hout

end

/-! ## Decoding without speculation -/

section

variable {S : Type u} [LinearOrder S] [OrderBot S] (ops : TextOps) (op : DraftsOp)
  (target : TargetModel S)

/-- Decoding `n` tokens of a prompt without speculation, each in a step of its own. -/
def plainDecode (rules : StopRules) (text : String) (prompt : List ℕ) (n : ℕ) :
    Except String OutputState :=
  ((outputTokens (greedyDecode target.choice prompt n)).map fun t => [t]).foldlM
    (rules.acceptStep ops) (.fresh text none)

variable {ops target} in
omit [OrderBot S] in
/-- Decoding one token at a time gives the tokens of greedy decoding, cut where the rules end
them. -/
theorem plainDecode_eq {rules : StopRules} (honly : rules.OnlyTokens)
    (hinside : ∀ n, n < target.vocab → rules.outside n = false) (text : String) {prompt : List ℕ}
    {n : ℕ} (hn : 0 < n) : plainDecode ops target rules text prompt n =
      .ok (rules.decided text (outputTokens (greedyDecode target.choice prompt n))) := by
  have hne : (outputTokens (greedyDecode target.choice prompt n)).map (fun t => [t]) ≠ [] := by
    rw [Ne, List.map_eq_nil_iff, outputTokens, List.map_eq_nil_iff, ← List.length_eq_zero_iff,
      length_greedyDecode]
    omega
  rw [plainDecode, steps_fresh honly hne fun new hnew => ?_]
  · rw [← List.flatMap_def, List.flatMap_singleton']
  · obtain ⟨t, ht, rfl⟩ := List.mem_map.mp hnew
    refine ⟨List.cons_ne_nil _ _, fun t' ht' => ?_⟩
    rw [List.mem_singleton.mp ht']
    exact outputTokens_inside hinside (fun _ => greedyDecode_lt) t ht

/-- **The user gets the same**: in every state that a run reaches, what a request has given and
why it has finished are what decoding without speculation comes to with as many tokens; and once
the request has finished, with any more. -/
theorem spec_output {s : Serving}
    (hs : ((servingMachine ops op target).guarded (TokenStops target)).Reach s) {r : ℕ}
    {q : SpecRequest} (hq : s.spec r = some q) (hfirst : q.first = target.choice q.prompt) (n : ℕ)
    (hn : n = q.out.length + 1 ∨ (s.outputs r).finished = true ∧ q.out.length < n)
    (text : String) : ∃ plain, plainDecode ops target (s.rules r) text q.prompt n = .ok plain ∧
      (s.outputs r).outputIdsThroughStop = plain.outputIdsThroughStop ∧
      (s.outputs r).finishedReason = plain.finishedReason := by
  have hlossless := (accept_lossless op target (serving_spec_reach hs)).1 r q hq
  obtain ⟨honly, hinside, -, text', hout⟩ := serving_right hs r q hq
  have hall := hlossless.all hfirst
  have hpos : 0 < n := by omega
  refine ⟨_, plainDecode_eq honly hinside text hpos, ?_⟩
  rw [hout, outputIdsThroughStop_decided, outputIdsThroughStop_decided, hall]
  rcases hn with rfl | ⟨hfin, hlt⟩
  · exact ⟨rfl, rfl⟩
  · -- the tokens after the end are cut off
    obtain ⟨k, rfl⟩ := Nat.exists_eq_add_of_le (Nat.succ_le_of_lt hlt)
    rw [hout, hall, OutputState.finished, decided, Option.isSome_map] at hfin
    obtain ⟨⟨m, reason⟩, hcut⟩ := Option.isSome_iff_exists.mp hfin
    rw [greedyDecode_add (m := q.out.length + 1), outputTokens_append]
    refine ⟨?_, ?_⟩
    · rw [cutTokens_append hcut]
    · rw [decided, decided, hcut, cut_append hcut]

end

/-! ## Two tokens in a step -/

/-- Room for two tokens of the model that takes three in turn. -/
def turnsRules : StopRules where
  samplingParams := ⟨true, [], 2, [], [], 0, 0⟩
  eosTokenIds := []
  tokenizer := none
  vocabSize := some 3

/-- Its request, with the first token. -/
def turnsServing : Serving where
  spec := turnsState
  rules := Function.update (fun _ => turnsRules) 0 turnsRules
  outputs := Function.update (fun _ => .fresh "" none) 0 (turnsRules.decided "" [1])

/-- The state of the example after its verify step. -/
def turnsServed : Serving where
  spec := verifyStep countDrafts turnsState turnsBatch
  rules := turnsServing.rules
  outputs := Function.update turnsServing.outputs 0 (turnsRules.decided "" [1, 2, 0])

theorem turnsRules_inside : ∀ n, n < turns.vocab → turnsRules.outside n = false := by
  intro n hn
  have hle : n < 3 := hn
  interval_cases n <;> rfl

theorem turnsServing_reach :
    ((servingMachine plainOps countDrafts turns).guarded (TokenStops turns)).Reach
      turnsServing := by
  have hinit : ((servingMachine plainOps countDrafts turns).guarded (TokenStops turns)).Reach
      ⟨fun _ => none, fun _ => turnsRules, fun _ => .fresh "" none⟩ := .init fun _ => rfl
  exact hinit.step (a := .enter 0 [0] 1 turnsRules "") ⟨⟨⟨rfl, rfl⟩, by decide, turnsRules_inside⟩,
    rfl, rfl, _, rfl, rfl⟩

/-- The verify step commits the draft that it has, and the bonus. -/
theorem turnsCommitted : turnsBatch.committed countDrafts 0 = [2, 0] := by
  have hstep : StepRight countDrafts turns turnsState turnsBatch 0 turnsRequest :=
    verifyStep_spec turnsBatch_allowed (by decide) rfl
  have hpos := hstep.pos
  have hle := hstep.le
  have htokens := hstep.tokens
  have hagree := hstep.agree.stop
  rw [hstep.length] at hpos hle
  generalize turnsBatch.committed countDrafts 0 = c at hpos hle htokens hagree ⊢
  have hle' : c.length ≤ 2 := Nat.cast_le.mp hle
  have hlen : c.length = 2 := by
    by_contra hne
    have hone : c.length = 1 := by omega
    rw [hone] at hagree
    exact hagree (by decide) (by decide)
  rw [htokens, hlen]
  decide

theorem turnsServed_zero : ∃ n, turnsServed.spec 0 = some (turnsRequest.commit [2, 0] n) := by
  have hold : turnsState (turnsBatch.reqs 0) = some turnsRequest := rfl
  refine ⟨(turnsBatch.finalized countDrafts turnsState).newSeqLens 0, ?_⟩
  change verifyStep countDrafts turnsState turnsBatch (turnsBatch.reqs 0) = _
  rw [verifyStep_row turnsBatch_allowed (by decide), hold, turnsCommitted, Option.map_some]

theorem turnsServed_reach :
    ((servingMachine plainOps countDrafts turns).guarded (TokenStops turns)).Reach turnsServed := by
  have hrow : ∀ b, b < turnsBatch.args.bs → b = 0 := fun b hb => Nat.lt_one_iff.mp hb
  refine turnsServing_reach.step (a := .verify turnsBatch) ⟨trivial, ⟨turnsBatch_allowed, rfl⟩, rfl,
    fun b hb => ?_, fun r hr => ?_⟩
  · obtain rfl := hrow b hb
    rw [turnsCommitted]
    rfl
  · have hne : r ≠ 0 := (hr 0 (by decide)).symm
    rw [turnsServed]
    dsimp only
    rw [Function.update_of_ne hne]

/-- The step gives two tokens, of which one is within the budget. -/
theorem spec_output_turns : ∃ plain,
    plainDecode plainOps turns (turnsServed.rules 0) "" [0] 5 = .ok plain ∧
      (turnsServed.outputs 0).outputIdsThroughStop = plain.outputIdsThroughStop ∧
      (turnsServed.outputs 0).finishedReason = plain.finishedReason := by
  obtain ⟨n, hq⟩ := turnsServed_zero
  have hfirst : turnsRequest.first = turns.choice [0] := by decide
  have hfin : (turnsServed.outputs 0).finished = true := rfl
  exact spec_output plainOps countDrafts turns turnsServed_reach hq hfirst 5
    (.inr ⟨hfin, Nat.lt_of_sub_eq_succ rfl⟩) ""

end LuzServing

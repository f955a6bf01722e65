import LuzServing.FinishState
import Mathlib.Data.List.GetD

/-!
# Where the tokens of a request end

Without stop strings a request gives the same tokens however they come in steps: those up to the
first stop token, that one included, and no more than the budget (`finish_any_steps`). So a step
of one token and a step of several accepted drafts end a request at the same place, and for the
same reason.
-/

namespace LuzServing

/-! ## Lists -/

section
variable {l l' : List ℤ} {n : ℕ}

theorem lastEntries_append (hne : l' ≠ []) : lastEntries (l ++ l') l'.length = l' := by
  rw [lastEntries, if_neg (by simpa using hne), List.length_append, Nat.add_sub_cancel,
    List.drop_left]

/-- A place past the first list is a place of the second. -/
theorem modify_append_right (f : ℤ → ℤ) :
    (l ++ l').modify (l.length + n) f = l ++ l'.modify n f := by
  induction l with
  | nil => rw [List.length_nil, Nat.zero_add, List.nil_append, List.nil_append]
  | cons a l ih => rw [List.length_cons, Nat.succ_add, List.cons_append, List.modify_succ_cons, ih,
      List.cons_append]

/-- Up to the place, a modified list has entries from before the place, and the modified one. -/
theorem mem_take_modify {f : ℤ → ℤ} {t : ℤ} (h : t ∈ (l.modify n f).take (n + 1)) :
    t ∈ l.take n ∨ ∃ a, t = f a := by
  induction l generalizing n with
  | nil =>
    rw [List.modify_nil, List.take_nil] at h
    cases h
  | cons a l ih =>
    cases n with
    | zero =>
      rw [List.modify_zero_cons, List.take_succ_cons, List.take_zero, List.mem_singleton] at h
      exact .inr ⟨a, h⟩
    | succ n =>
      rw [List.modify_succ_cons, List.take_succ_cons] at h
      rw [List.take_succ_cons]
      rcases List.mem_cons.mp h with rfl | h
      · exact .inl (List.mem_cons_self ..)
      · exact (ih h).imp_left (List.mem_cons_of_mem a)

end

/-- When a computation in two parts returns, its first part returns and the second returns on what
the first gave. -/
theorem bind_eq_ok {α β : Type} {x : Except String α} {f : α → Except String β} {b : β}
    (h : x >>= f = .ok b) : ∃ a, x = .ok a ∧ f a = .ok b := by
  cases x with
  | error e => cases h
  | ok a => exact ⟨a, rfl, h⟩

/-- A first part that returns hands what it returns on to the second part. -/
theorem ok_bind {α β : Type} {a : α} {f : α → Except String β} :
    (Except.ok a : Except String α) >>= f = f a :=
  rfl

/-! ## The cut of a stream -/

namespace StopRules

variable (ops : TextOps) (rules : StopRules)

/-- The index of the first token at which the stream stops, if there is one. -/
def stopAt (tokens : List ℤ) : Option ℕ :=
  if rules.samplingParams.ignoreEos then none else tokens.findIdx? rules.stops

/-- After how many tokens a stream ends, and why. -/
def cut (tokens : List ℤ) : Option (ℕ × FinishReason) :=
  match rules.stopAt tokens with
  | some i =>
    if i < rules.samplingParams.maxNewTokens then some (i + 1, .matchedToken (tokens.getD i 0))
    else some (rules.samplingParams.maxNewTokens, .length rules.samplingParams.maxNewTokens)
  | none =>
    if rules.samplingParams.maxNewTokens ≤ tokens.length then
      some (rules.samplingParams.maxNewTokens, .length rules.samplingParams.maxNewTokens)
    else none

/-- The tokens of a stream up to its end. -/
def cutTokens (tokens : List ℤ) : List ℤ :=
  match rules.cut tokens with
  | some (n, _) => tokens.take n
  | none => tokens

/-- Only tokens and the length end the request. -/
structure OnlyTokens : Prop where
  /-- no stop string -/
  strs : rules.samplingParams.stopStrs = []
  /-- no stop pattern -/
  regexes : rules.samplingParams.stopRegexStrs = []

/-- The request after a stream of tokens that has been cut. -/
def decided (text : String) (tokens : List ℤ) : OutputState :=
  ⟨tokens, (rules.cut tokens).map Prod.snd, (rules.cut tokens).map Prod.fst, none, text, none⟩

variable {ops rules} {text : String} {tokens new : List ℤ} {i n : ℕ} {reason : FinishReason}

theorem stopAt_append : rules.stopAt (tokens ++ new) =
    (rules.stopAt tokens).or ((rules.stopAt new).map fun i => i + tokens.length) := by
  rw [stopAt, stopAt, stopAt]
  split
  · rfl
  · exact List.findIdx?_append

theorem stopAt_lt (h : rules.stopAt tokens = some i) : i < tokens.length := by
  rw [stopAt] at h
  split at h
  · cases h
  · exact (List.findIdx?_eq_some_iff_findIdx_eq.mp h).1

/-- Once a stream has an end, the end stays where it is when more tokens come. -/
theorem cut_append (h : rules.cut tokens = some (n, reason)) :
    rules.cut (tokens ++ new) = some (n, reason) := by
  rw [cut] at h ⊢
  rw [stopAt_append]
  cases hstop : rules.stopAt tokens with
  | some i =>
    rw [hstop] at h
    rw [Option.some_or]
    dsimp only at h ⊢
    rw [List.getD_append _ _ _ _ (stopAt_lt hstop)]
    exact h
  | none =>
    rw [hstop] at h
    dsimp only at h
    rw [Option.none_or]
    split at h
    next hle =>
      -- the budget is used up: a later stop is past it
      cases hnew : rules.stopAt new with
      | none =>
        rw [Option.map_none]
        dsimp only
        rw [if_pos (hle.trans (by simp))]
        exact h
      | some j =>
        rw [Option.map_some]
        dsimp only
        rw [if_neg (by omega)]
        exact h
    next => cases h

/-- The end of a stream is within it: at most as many tokens are kept as the stream has. -/
theorem cut_le (h : rules.cut tokens = some (n, reason)) : n ≤ tokens.length := by
  rw [cut] at h
  cases hstop : rules.stopAt tokens with
  | some i =>
    have hi := stopAt_lt hstop
    rw [hstop] at h
    dsimp only at h
    split at h
    · obtain ⟨rfl, -⟩ := Prod.mk.inj (Option.some.inj h)
      exact hi
    · obtain ⟨rfl, -⟩ := Prod.mk.inj (Option.some.inj h)
      omega
  | none =>
    rw [hstop] at h
    dsimp only at h
    split at h
    · obtain ⟨rfl, -⟩ := Prod.mk.inj (Option.some.inj h)
      assumption
    · cases h

/-- Tokens that come after the end of a stream are cut off, so they do not change what is kept. -/
theorem cutTokens_append (h : rules.cut tokens = some (n, reason)) :
    rules.cutTokens (tokens ++ new) = rules.cutTokens tokens := by
  rw [cutTokens, cutTokens, cut_append h, h]
  exact List.take_append_of_le_length (cut_le h)

/-- In a stream that is empty or has no end no token is a stop. -/
theorem stopAt_of_cut_eq_none (h : rules.cut tokens = none ∨ tokens = []) :
    rules.stopAt tokens = none := by
  rcases h with h | rfl
  · rw [cut] at h
    cases hstop : rules.stopAt tokens with
    | none => rfl
    | some i =>
      rw [hstop] at h
      dsimp only at h
      split at h <;> cases h
  · rw [stopAt, List.findIdx?_nil, ite_self]

/-! ## A step where only tokens end the request -/

theorem checkStrBasedFinish_onlyTokens (h : rules.OnlyTokens) (r : OutputState) (n : ℕ) :
    rules.checkStrBasedFinish ops r n = .ok (r, false) :=
  if_pos ⟨h.strs, h.regexes⟩

theorem checkVocabBoundaryFinish_inside {r : OutputState}
    (h : ∀ t ∈ new, rules.outside t = false) :
    rules.checkVocabBoundaryFinish r new = (r, false) := by
  rw [checkVocabBoundaryFinish, List.findIdx?_eq_none_iff.mpr h]

/-- The check of the stop tokens finds the first of the step. -/
theorem checkTokenBasedFinish_eq (r : OutputState) (new : List ℤ) :
    rules.checkTokenBasedFinish r new = match rules.stopAt new with
      | some i => ({ r with finishedReason := some (.matchedToken (new.getD i 0)),
                            finishedLen := some (r.outputIds.length - new.length + i + 1) }, true)
      | none => (r, false) := by
  rw [checkTokenBasedFinish, stopAt]
  split
  · rfl
  · rfl

/-- The stop tokens and the length end a request where its stream is cut. -/
theorem checkTail_eq (hstop : rules.stopAt tokens = none) :
    rules.checkTail ⟨tokens ++ new, none, none, none, text, none⟩ new =
      .ok (rules.decided text (tokens ++ new)) := by
  have hcut : rules.stopAt (tokens ++ new) = (rules.stopAt new).map fun i => i + tokens.length := by
    rw [stopAt_append, hstop, Option.none_or]
  rw [checkTail, checkTokenBasedFinish_eq, decided, cut, hcut]
  cases hnew : rules.stopAt new with
  | none =>
    dsimp only [Option.map_none]
    split
    · rfl
    · rfl
  | some i =>
    have hpos : (tokens ++ new).length - new.length + i = i + tokens.length := by
      rw [List.length_append]
      omega
    have hget : (tokens ++ new).getD (i + tokens.length) 0 = new.getD i 0 := by
      rw [List.getD_append_right _ _ _ _ (Nat.le_add_left _ _), Nat.add_sub_cancel]
    dsimp only [Option.map_some]
    rw [capFinishedLenAtMaxNewTokens, hpos, hget]
    dsimp only
    by_cases hmax : i + tokens.length < rules.samplingParams.maxNewTokens
    · rw [if_pos hmax, if_neg (by omega)]
      rfl
    · rw [if_neg hmax, if_pos (by omega)]
      rfl

/-- A step of a request whose stream is not cut yet. -/
theorem acceptStep_open (hrules : rules.OnlyTokens) (hnew : new ≠ [])
    (hvocab : ∀ t ∈ new, rules.outside t = false)
    (hopen : rules.cut tokens = none ∨ tokens = []) :
    rules.acceptStep ops ⟨tokens, none, none, none, text, none⟩ new =
      .ok (rules.decided text (tokens ++ new)) := by
  rw [acceptStep, updateFinishState]
  dsimp only [OutputState.finished]
  rw [lastEntries_append hnew, checkVocabBoundaryFinish_inside hvocab]
  dsimp only [Option.isSome_none]
  rw [checkStrBasedFinish_onlyTokens hrules]
  exact checkTail_eq (stopAt_of_cut_eq_none hopen)

/-- A step of one whose stream is: the tokens are appended, and nothing else happens. -/
theorem acceptStep_decided (hrules : rules.OnlyTokens) (hnew : new ≠ [])
    (hvocab : ∀ t ∈ new, rules.outside t = false) :
    rules.acceptStep ops (rules.decided text tokens) new =
      .ok (rules.decided text (tokens ++ new)) := by
  cases hcut : rules.cut tokens with
  | none =>
    rw [decided, hcut]
    exact acceptStep_open hrules hnew hvocab (.inl hcut)
  | some p =>
    obtain ⟨n, reason⟩ := p
    rw [decided, hcut, decided, cut_append hcut]
    rfl

/-- The user gets exactly the tokens up to the end from a request that has been decided. -/
theorem outputIdsThroughStop_decided :
    (rules.decided text tokens).outputIdsThroughStop = rules.cutTokens tokens := by
  rw [OutputState.outputIdsThroughStop, decided, cutTokens]
  cases rules.cut tokens with
  | none => rfl
  | some p => rfl

/-- The tokens up to the end are those up to the first stop, and no more than `max_new_tokens`. -/
theorem cutTokens_eq : rules.cutTokens tokens = tokens.take
    (min rules.samplingParams.maxNewTokens ((rules.stopAt tokens).elim tokens.length (· + 1))) := by
  rw [cutTokens, cut]
  cases hstop : rules.stopAt tokens with
  | some i =>
    dsimp only [Option.elim_some]
    by_cases hlt : i < rules.samplingParams.maxNewTokens
    · rw [if_pos hlt, min_eq_right (Nat.succ_le_of_lt hlt)]
    · rw [if_neg hlt, min_eq_left (by omega)]
  | none =>
    dsimp only [Option.elim_none]
    by_cases hle : rules.samplingParams.maxNewTokens ≤ tokens.length
    · rw [if_pos hle, min_eq_left hle]
    · rw [if_neg hle, min_eq_right (by omega), List.take_length]

/-! ## Runs where only tokens end the request -/

/-- However the coming tokens are cut into steps, a request that has been decided stays decided by
all of them. -/
theorem steps_decided (hrules : rules.OnlyTokens) {chunks : List (List ℤ)}
    (hchunks : ∀ new ∈ chunks, new ≠ [] ∧ ∀ t ∈ new, rules.outside t = false) :
    chunks.foldlM (rules.acceptStep ops) (rules.decided text tokens) =
      .ok (rules.decided text (tokens ++ chunks.flatten)) := by
  induction chunks generalizing tokens with
  | nil => rw [List.flatten_nil, List.append_nil]; rfl
  | cons new chunks ih =>
    obtain ⟨hnew, hvocab⟩ := hchunks new (List.mem_cons_self ..)
    rw [List.foldlM_cons, acceptStep_decided hrules hnew hvocab, List.flatten_cons,
      ← List.append_assoc]
    exact ih fun c hc => hchunks c (List.mem_cons_of_mem new hc)

/-- However the tokens are cut into steps, a request that has given none before is decided by all of
them. -/
theorem steps_fresh (hrules : rules.OnlyTokens) {chunks : List (List ℤ)} (hne : chunks ≠ [])
    (hchunks : ∀ new ∈ chunks, new ≠ [] ∧ ∀ t ∈ new, rules.outside t = false) :
    chunks.foldlM (rules.acceptStep ops) (.fresh text none) =
      .ok (rules.decided text chunks.flatten) := by
  cases chunks with
  | nil => exact absurd rfl hne
  | cons new chunks =>
    obtain ⟨hnew, hvocab⟩ := hchunks new (List.mem_cons_self ..)
    have hfirst : rules.acceptStep ops ⟨[], none, none, none, text, none⟩ new =
        .ok (rules.decided text new) := acceptStep_open hrules hnew hvocab (.inr rfl)
    rw [List.foldlM_cons, OutputState.fresh, hfirst, List.flatten_cons]
    exact steps_decided hrules fun c hc => hchunks c (List.mem_cons_of_mem new hc)

variable (ops rules)

/-- **The steps do not matter**: a request without stop strings that gives its tokens in any
steps gives the user those up to the first stop token, that one included, and no more than its
budget; and it has finished for the reason that says which. -/
theorem finish_any_steps (hrules : rules.OnlyTokens) (text : String) (chunks : List (List ℤ))
    (hne : chunks ≠ [])
    (hchunks : ∀ new ∈ chunks, new ≠ [] ∧ ∀ t ∈ new, rules.outside t = false) :
    ∃ r, chunks.foldlM (rules.acceptStep ops) (.fresh text none) = .ok r ∧
      r.outputIdsThroughStop = chunks.flatten.take (min rules.samplingParams.maxNewTokens
        ((rules.stopAt chunks.flatten).elim chunks.flatten.length (· + 1))) ∧
      r.finishedReason = (rules.cut chunks.flatten).map Prod.snd := by
  refine ⟨rules.decided text chunks.flatten, steps_fresh hrules hne hchunks, ?_, rfl⟩
  rw [outputIdsThroughStop_decided, cutTokens_eq]

/-- A tokenizer whose tokens are single letters, for runs on concrete texts. -/
def letters : Tokenizer :=
  ⟨some 9, [], fun l => String.ofList (l.map fun t => Char.ofNat (t.toNat + 97))⟩

/-- Two stop tokens, and room for five. -/
def letterRules : StopRules where
  samplingParams := ⟨false, [7, 9], 5, [], [], 0, 0⟩
  eosTokenIds := [9]
  tokenizer := some letters
  vocabSize := some 26

/-- The search for a pattern without special characters. -/
def plainOps : TextOps := ⟨fun pattern text => .ok (containsStr pattern text), id⟩

/-- The second of three steps has a stop token, and a token after it that is not given. -/
theorem finish_any_steps_letters : ∃ r,
    [[1], [2, 7, 3], [9, 4]].foldlM (letterRules.acceptStep plainOps) (.fresh "" none) = .ok r ∧
      r.outputIdsThroughStop = [1, 2, 7] ∧ r.finishedReason = some (.matchedToken 7) :=
  finish_any_steps plainOps letterRules ⟨rfl, rfl⟩ "" [[1], [2, 7, 3], [9, 4]] (by decide)
    (by decide)

end StopRules

end LuzServing

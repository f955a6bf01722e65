import LuzServing.StopStrings

/-!
# What a request gives, over its steps

With stop strings, patterns and a grammar the end of a request may depend on the steps in which
its tokens come; what a step may do is `acceptStep`'s three outcomes (`Outcome`). What has been
given is never taken back (`output_monotone`), and a request that is not aborted gives no more
than its budget and nothing outside the vocabulary (`output_bounded`).
-/

namespace LuzServing

namespace StopRules

variable {ops : TextOps} {rules : StopRules} {tokens new : List ℤ} {reason : FinishReason} {n : ℕ}

/-! ## A step under any rules -/

/-- The request is unchanged but for why and where it ends. -/
structure Marks (r r' : OutputState) : Prop where
  /-- the tokens are the same -/
  outputIds : r'.outputIds = r.outputIds
  /-- the abort that waits, too -/
  toFinish : r'.toFinish = r.toFinish
  /-- and the text -/
  decodedText : r'.decodedText = r.decodedText

/-- The end is among the last `n` tokens. -/
structure EndsWithin (r r' : OutputState) (n : ℕ) : Prop where
  /-- only the end is written -/
  marks : Marks r r'
  /-- there is a reason -/
  finished : r'.finished = true
  /-- and a length, after the tokens before the step -/
  len : ∃ m, r'.finishedLen = some m ∧ r.outputIds.length < m + n ∧ m ≤ r.outputIds.length

variable {r r' : OutputState}

/-- The first length that matches is one of those asked for. -/
theorem firstMatch_mem {matched : String → Except String Bool} {window : List ℤ}
    {counts : List ℕ} {count : ℕ}
    (h : rules.firstMatch matched window counts = .ok (some count)) : count ∈ counts := by
  induction counts with
  | nil => cases h
  | cons c counts ih =>
    rw [firstMatch] at h
    obtain ⟨text, -, h⟩ := bind_eq_ok h
    obtain ⟨found, -, h⟩ := bind_eq_ok h
    cases found with
    | true =>
      obtain rfl := Option.some.inj (Except.ok.inj h)
      exact List.mem_cons_self ..
    | false => exact List.mem_cons_of_mem c (ih h)

/-- The place of a match is after the tokens before the step. -/
theorem locateStrStopFinishedLen_bounds {matched : String → Except String Bool} {n m : ℕ}
    (h : rules.locateStrStopFinishedLen r matched n = .ok m) (hn : 0 < n) :
    r.outputIds.length < m + n ∧ m ≤ r.outputIds.length := by
  rw [locateStrStopFinishedLen] at h
  obtain ⟨found, hfound, h⟩ := bind_eq_ok h
  cases found with
  | none =>
    obtain rfl := Except.ok.inj h
    exact ⟨Nat.lt_add_of_pos_right hn, le_rfl⟩
  | some count =>
    obtain rfl := Except.ok.inj h
    obtain ⟨hlo, hhi⟩ := List.mem_range'_1.mp (firstMatch_mem hfound)
    have htail : rules.stopMatchTailLen r n ≤ r.outputIds.length := min_le_right _ _
    rw [List.length_drop] at hlo hhi
    refine ⟨?_, ?_⟩
    · have := (le_max_right 1 _).trans hlo
      omega
    · omega

/-- A stop string ends the request within the step; or it is in the text so far, and no length
is written. -/
theorem checkStopStrs_some {n : ℕ} {tail : String} {strs : List String} (hn : 0 < n)
    (h : rules.checkStopStrs r n tail strs = .ok (some r')) :
    EndsWithin r r' n ∨ Marks r r' ∧ r'.finishedLen = r.finishedLen ∧ ∃ stop ∈ strs,
      r'.finishedReason = some (.matchedStr stop) ∧ containsStr stop r.decodedText = true := by
  induction strs with
  | nil => cases Except.ok.inj h
  | cons stop strs ih =>
    rw [checkStopStrs] at h
    split at h
    · obtain ⟨m, hm, h⟩ := bind_eq_ok h
      obtain rfl := Option.some.inj (Except.ok.inj h)
      exact .inl ⟨⟨rfl, rfl, rfl⟩, rfl, m, rfl, locateStrStopFinishedLen_bounds hm hn⟩
    · split at h
      next htext =>
        obtain rfl := Option.some.inj (Except.ok.inj h)
        exact .inr ⟨⟨rfl, rfl, rfl⟩, rfl, stop, List.mem_cons_self .., rfl, htext⟩
      next =>
        refine (ih h).imp_right ?_
        rintro ⟨hmarks, hlen, s, hs, hreason⟩
        exact ⟨hmarks, hlen, s, List.mem_cons_of_mem stop hs, hreason⟩

/-- A stop pattern ends the request within the step; and where none does no length is
written. -/
theorem checkStopRegexes_ok {n : ℕ} {tail : String} {patterns : List String} {found : Bool}
    (hn : 0 < n) (h : rules.checkStopRegexes ops r n tail patterns = .ok (r', found)) :
    found = true ∧ EndsWithin r r' n ∨
      found = false ∧ Marks r r' ∧ r'.finishedLen = r.finishedLen ∧ r'.grammar = r.grammar := by
  induction patterns with
  | nil =>
    obtain ⟨rfl, rfl⟩ := Prod.mk.inj (Except.ok.inj h)
    exact .inr ⟨rfl, ⟨rfl, rfl, rfl⟩, rfl, rfl⟩
  | cons pattern patterns ih =>
    rw [checkStopRegexes] at h
    split at h
    · obtain ⟨rfl, rfl⟩ := Prod.mk.inj (Except.ok.inj h)
      exact .inr ⟨rfl, ⟨rfl, rfl, rfl⟩, rfl, rfl⟩
    · obtain ⟨m, hm, h⟩ := bind_eq_ok h
      obtain ⟨rfl, rfl⟩ := Prod.mk.inj (Except.ok.inj h)
      exact .inl ⟨rfl, ⟨rfl, rfl, rfl⟩, rfl, m, rfl, locateStrStopFinishedLen_bounds hm hn⟩
    · exact ih h

/-- The stop strings and patterns: an end within the step, an end that is only in the text so
far, or none. -/
theorem checkStrBasedFinish_ok {n : ℕ} {found : Bool} (hn : 0 < n)
    (h : rules.checkStrBasedFinish ops r n = .ok (r', found)) :
    found = true ∧ EndsWithin r r' n ∨
      found = true ∧ Marks r r' ∧ r'.finishedLen = r.finishedLen ∧
        (∃ stop ∈ rules.samplingParams.stopStrs,
          r'.finishedReason = some (.matchedStr stop) ∧ containsStr stop r.decodedText = true) ∨
      found = false ∧ Marks r r' ∧ r'.finishedLen = r.finishedLen ∧ r'.grammar = r.grammar := by
  rw [checkStrBasedFinish] at h
  split at h
  · obtain ⟨rfl, rfl⟩ := Prod.mk.inj (Except.ok.inj h)
    exact .inr (.inr ⟨rfl, ⟨rfl, rfl, rfl⟩, rfl, rfl⟩)
  · obtain ⟨tail, -, h⟩ := bind_eq_ok h
    obtain ⟨strs, hstrs, h⟩ := bind_eq_ok h
    cases strs with
    | some r₁ =>
      obtain ⟨rfl, rfl⟩ := Prod.mk.inj (Except.ok.inj h)
      rcases checkStopStrs_some hn hstrs with hend | hend
      · exact .inl ⟨rfl, hend⟩
      · exact .inr (.inl ⟨rfl, hend⟩)
    | none =>
      rcases checkStopRegexes_ok hn h with hend | hnone
      · exact .inl hend
      · exact .inr (.inr hnone)

variable (rules) in
/-- The cap moves the end of a finished request to `max_new_tokens` when it is later, and leaves it
finished. -/
theorem capFinishedLenAtMaxNewTokens_spec {m : ℕ} (hm : r.finishedLen = some m)
    (hfin : r.finished = true) :
    (rules.capFinishedLenAtMaxNewTokens r).finishedLen =
        some (min m rules.samplingParams.maxNewTokens) ∧
      (rules.capFinishedLenAtMaxNewTokens r).finished = true ∧
      Marks r (rules.capFinishedLenAtMaxNewTokens r) := by
  rw [capFinishedLenAtMaxNewTokens, hm]
  dsimp only
  split
  next hlt => exact ⟨by rw [min_eq_right hlt.le], rfl, rfl, rfl, rfl⟩
  next hge => exact ⟨by rw [hm, min_eq_left (not_lt.mp hge)], hfin, rfl, rfl, rfl⟩

/-- A request that has no end yet is left as it is by the cap. -/
theorem capFinishedLenAtMaxNewTokens_none (hm : r.finishedLen = none) :
    rules.capFinishedLenAtMaxNewTokens r = r := by
  rw [capFinishedLenAtMaxNewTokens, hm]

variable (rules) in
/-- What a step makes of a request that has not finished: it goes on; it ends at a length; or it
ends with all its tokens. -/
inductive Outcome (tokens new : List ℤ) (text : String) (r' : OutputState) : Prop where
  /-- it goes on, within its budget -/
  | goes (finished : r'.finished = false) (pending : r'.toFinish = none)
      (len : r'.finishedLen = none)
      (outputIds : r'.outputIds = tokens ++ new)
      (inside : ∀ t ∈ new, rules.outside t = false)
      (budget : (tokens ++ new).length < rules.samplingParams.maxNewTokens)
  /-- it ends at a length within the budget, not before the step -/
  | ends (m : ℕ) (finished : r'.finished = true) (pending : r'.toFinish = none)
      (len : r'.finishedLen = some m)
      (prior : r'.outputIds.take tokens.length = tokens)
      (inside : (∀ t, rules.outside (rules.replacement t) = false) →
        ∀ t ∈ (r'.outputIds.take m).drop tokens.length, rules.outside t = false)
      (budget : m ≤ rules.samplingParams.maxNewTokens)
      (late : tokens.length < m ∨ m = rules.samplingParams.maxNewTokens)
      (le : m ≤ r'.outputIds.length)
  /-- it ends with all its tokens -/
  | whole (finished : r'.finished = true) (pending : r'.toFinish = none)
      (len : r'.finishedLen = none)
      (outputIds : r'.outputIds = tokens ++ new)
      (inside : ∀ t ∈ new, rules.outside t = false)
      (budget : (tokens ++ new).length < rules.samplingParams.maxNewTokens ∨
        ∃ stop ∈ rules.samplingParams.stopStrs,
          r'.finishedReason = some (.matchedStr stop) ∧ containsStr stop text = true)

variable {text' : String}

/-- An end that lies within the step, after the cap, is an outcome that the rules allow. -/
theorem EndsWithin.outcome (h : EndsWithin r r' new.length) (hout : r.outputIds = tokens ++ new)
    (hpending : r.toFinish = none) (hinside : ∀ t ∈ new, rules.outside t = false) :
    rules.Outcome tokens new text' (rules.capFinishedLenAtMaxNewTokens r') := by
  obtain ⟨m, hlen, hlo, hhi⟩ := h.len
  obtain ⟨hcap, hfin, hmarks⟩ :=
    capFinishedLenAtMaxNewTokens_spec rules hlen h.finished
  have hids := hmarks.outputIds.trans (h.marks.outputIds.trans hout)
  rw [hout, List.length_append] at hlo hhi
  refine .ends _ hfin (hmarks.toFinish.trans (h.marks.toFinish.trans hpending)) hcap ?_
    (fun _ t ht => hinside t ?_) (min_le_right _ _) ?_ ?_
  · rw [hids, List.take_left]
  · rw [hids, List.drop_take, List.drop_left] at ht
    exact List.mem_of_mem_take ht
  · rcases le_or_gt m rules.samplingParams.maxNewTokens with hle | hgt
    · exact .inl (by rw [min_eq_left hle]; omega)
    · exact .inr (min_eq_right hgt.le)
  · rw [hids, List.length_append]
    exact (min_le_left _ _).trans hhi

/-- When the check of the vocabulary ends a request, the first token outside is replaced and is the
last one. -/
theorem checkVocabBoundaryFinish_true (hout : r.outputIds = tokens ++ new)
    (h : rules.checkVocabBoundaryFinish r new = (r', true)) :
    ∃ i, i < new.length ∧ (∀ t ∈ new.take i, rules.outside t = false) ∧
      r'.outputIds = tokens ++ new.modify i rules.replacement ∧
      r'.finishedLen = some (tokens.length + i + 1) ∧ r'.finished = true ∧
      r'.toFinish = r.toFinish := by
  rw [checkVocabBoundaryFinish] at h
  split at h
  next i hfind =>
    obtain ⟨rfl, -⟩ := Prod.mk.inj h
    obtain ⟨hi, -, hbefore⟩ := List.findIdx?_eq_some_iff_getElem.mp hfind
    have hpos : r.outputIds.length - new.length + i = tokens.length + i := by
      rw [hout, List.length_append, Nat.add_sub_cancel]
    refine ⟨i, hi, fun t ht => ?_, ?_, ?_, rfl, rfl⟩
    · obtain ⟨j, hj, rfl⟩ := List.mem_take_iff_getElem.mp ht
      exact Bool.eq_false_iff.mpr (hbefore j (hj.trans_le (min_le_left _ _)))
    · dsimp only
      rw [hpos, hout, modify_append_right]
    · dsimp only
      rw [hpos]
  next => cases (Prod.mk.inj h).2

/-- A token outside the vocabulary ends the request at what takes its place. -/
theorem outcome_of_outside (hout : r.outputIds = tokens ++ new) (hpending : r.toFinish = none)
    (h : rules.checkVocabBoundaryFinish r new = (r', true)) :
    rules.Outcome tokens new text' (rules.capFinishedLenAtMaxNewTokens r') := by
  obtain ⟨i, hi, hbefore, hids, hlen, hfin, htofinish⟩ := checkVocabBoundaryFinish_true hout h
  obtain ⟨hcap, hfin', hmarks⟩ := capFinishedLenAtMaxNewTokens_spec rules hlen hfin
  have hids' := hmarks.outputIds.trans hids
  refine .ends _ hfin' (hmarks.toFinish.trans (htofinish.trans hpending)) hcap ?_
    (fun hreplace t ht => ?_) (min_le_right _ _) ?_ ?_
  · rw [hids', List.take_left]
  · rw [hids', List.drop_take, List.drop_left] at ht
    have hle : min (tokens.length + i + 1) rules.samplingParams.maxNewTokens - tokens.length
        ≤ i + 1 := by omega
    rcases mem_take_modify (List.take_subset_take_left _ hle ht) with hmem | ⟨a, rfl⟩
    · exact hbefore t hmem
    · exact hreplace a
  · rcases le_or_gt (tokens.length + i + 1) rules.samplingParams.maxNewTokens with hle | hgt
    · exact .inl (by omega)
    · exact .inr (min_eq_right hgt.le)
  · rw [hids', List.length_append, List.length_modify]
    exact (min_le_left _ _).trans (by omega)

/-- The last checks: a stop token within the step, the length, the grammar, or none of them. -/
theorem outcome_of_checkTail (hmarks : Marks r r') (hout : r.outputIds = tokens ++ new)
    (hpending : r.toFinish = none) (hlen : r'.finishedLen = none)
    (hinside : ∀ t ∈ new, rules.outside t = false) {r'' : OutputState}
    (h : rules.checkTail r' new = .ok r'') : rules.Outcome tokens new text' r'' := by
  have hids := hmarks.outputIds.trans hout
  have hpending' := hmarks.toFinish.trans hpending
  rw [checkTail, checkTokenBasedFinish_eq] at h
  cases hstop : rules.stopAt new with
  | some i =>
    rw [hstop] at h
    obtain rfl := Except.ok.inj h
    have hi := stopAt_lt hstop
    have hend : EndsWithin r' { r' with
        finishedReason := some (.matchedToken (new.getD i 0)),
        finishedLen := some (r'.outputIds.length - new.length + i + 1) } new.length := by
      refine ⟨⟨rfl, rfl, rfl⟩, rfl, _, rfl, ?_, ?_⟩
      · rw [hids, List.length_append]
        omega
      · rw [hids, List.length_append]
        omega
    exact hend.outcome hids hpending' hinside
  | none =>
    rw [hstop] at h
    dsimp only at h
    split at h
    next hmax =>
      obtain rfl := Except.ok.inj h
      refine .ends _ rfl hpending' rfl ?_ (fun _ t ht => hinside t ?_) le_rfl (.inr rfl) hmax
      · dsimp only
        rw [hids, List.take_left]
      · dsimp only at ht
        rw [hids, List.drop_take, List.drop_left] at ht
        exact List.mem_of_mem_take ht
    next hmax =>
      have hbudget : (tokens ++ new).length < rules.samplingParams.maxNewTokens := by
        rw [← hids]
        exact not_le.mp hmax
      split at h
      · split at h
        · obtain rfl := Except.ok.inj h
          exact .whole rfl hpending' hlen hids hinside (.inl hbudget)
        · cases h
      · obtain rfl := Except.ok.inj h
        cases hfin : r'.finished with
        | true => exact .whole hfin hpending' hlen hids hinside (.inl hbudget)
        | false => exact .goes hfin hpending' hlen hids hinside hbudget

/-- Where the check finds a token of the step that is none of the vocabulary's or none. -/
theorem checkVocabBoundaryFinish_false
    (h : rules.checkVocabBoundaryFinish r new = (r', false)) :
    r' = r ∧ ∀ t ∈ new, rules.outside t = false := by
  rw [checkVocabBoundaryFinish] at h
  split at h
  next => cases (Prod.mk.inj h).2
  next hfind => exact ⟨(Prod.mk.inj h).1.symm, List.findIdx?_eq_none_iff.mp hfind⟩

/-- The check of a request that has not finished and is not to be aborted: it goes on, it ends
at a length, or it ends with all its tokens. -/
theorem updateFinishState_outcome (hnew : new ≠ []) (hout : r.outputIds = tokens ++ new)
    (hfin : r.finished = false) (hlen : r.finishedLen = none) (hpending : r.toFinish = none)
    (h : rules.updateFinishState ops r new.length = .ok r') :
    rules.Outcome tokens new r.decodedText r' := by
  have hpos : 0 < new.length := List.length_pos_iff.mpr hnew
  rw [updateFinishState, if_neg (Bool.eq_false_iff.mp hfin), hpending, hout,
    lastEntries_append hnew] at h
  dsimp only at h
  cases hcheck : rules.checkVocabBoundaryFinish r new with
  | mk r₁ found =>
    rw [hcheck] at h
    cases found with
    | true =>
      obtain rfl := Except.ok.inj h
      exact outcome_of_outside hout hpending hcheck
    | false =>
      obtain ⟨rfl, hinside⟩ := checkVocabBoundaryFinish_false hcheck
      obtain ⟨⟨r₂, found⟩, hstr, h⟩ := bind_eq_ok h
      rcases checkStrBasedFinish_ok hpos hstr with
        ⟨rfl, hend⟩ | ⟨rfl, hmarks, hlen₂, hstop⟩ | ⟨rfl, hmarks, hlen₂, -⟩
      · obtain rfl := Except.ok.inj h
        exact hend.outcome hout hpending hinside
      · obtain rfl := Except.ok.inj h
        rw [capFinishedLenAtMaxNewTokens_none (hlen₂.trans hlen)]
        obtain ⟨stop, hmem, hreason, htext⟩ := hstop
        refine .whole ?_ (hmarks.toFinish.trans hpending) (hlen₂.trans hlen)
          (hmarks.outputIds.trans hout) hinside (.inr ⟨stop, hmem, hreason, htext⟩)
        rw [OutputState.finished, hreason]
        rfl
      · exact outcome_of_checkTail hmarks hout hpending (hlen₂.trans hlen) hinside h

/-- A request that is to be aborted is finished with the pending reason, before any other check is
made. -/
theorem updateFinishState_pending (hfin : r.finished = false)
    (hpending : r.toFinish = some reason) :
    rules.updateFinishState ops r n =
      .ok { r with finishedReason := some reason, toFinish := none } := by
  rw [updateFinishState, if_neg (Bool.eq_false_iff.mp hfin), hpending]

end StopRules

/-! ## Runs under any rules -/

/-- What happens to a request: a step accepts tokens, or an abort is asked for. -/
inductive OutputAct : Type where
  /-- a step gives tokens; by then the detokenizer has come to a text, and the grammar to a
  state -/
  | accept (new : List ℤ) (text : String) (grammar : Option Bool)
  /-- it is to be aborted with the next check -/
  | abort (reason : FinishReason)

section
variable (ops : TextOps) (rules : StopRules)

/-- A step of a request: tokens come only while it has not finished. -/
def outputStep (r : OutputState) : OutputAct → OutputState → Prop
  | .accept new text grammar, r' => r.finished = false ∧ new ≠ [] ∧
      rules.acceptStep ops { r with decodedText := text, grammar := grammar } new = .ok r'
  | .abort reason, r' => r' = { r with toFinish := some reason }

/-- A request over its steps, from its first token on. -/
def outputMachine : Machine OutputState OutputAct where
  init r := ∃ text grammar, r = .fresh text grammar
  step := outputStep ops rules

/-- The request is not aborted. -/
def NoAbort (_ : OutputState) : OutputAct → Prop
  | .accept _ _ _ => True
  | .abort _ => False

/-- A request that has not finished has room for a token, but for one that has given none. -/
def OutputState.Room (r : OutputState) : Prop :=
  r.finished = false →
    r.finishedLen = none ∧
      (r.outputIds = [] ∨ r.outputIds.length < rules.samplingParams.maxNewTokens)

/-- What a request that has not been aborted keeps. -/
structure OutputState.Bounded (r : OutputState) : Prop where
  /-- no abort waits -/
  pending : r.toFinish = none
  /-- it has room while it goes on -/
  room : r.Room rules
  /-- it gives no more than its budget, but for a stop string that only the text so far has -/
  budget : r.outputIdsThroughStop.length ≤ rules.samplingParams.maxNewTokens ∨
    r.finishedLen = none ∧ ∃ stop ∈ rules.samplingParams.stopStrs,
      r.finishedReason = some (.matchedStr stop)
  /-- and nothing outside the vocabulary, where what takes such a token's place is inside -/
  inside : (∀ t, rules.outside (rules.replacement t) = false) →
    ∀ t ∈ r.outputIdsThroughStop, rules.outside t = false

variable {ops rules} {r r' : OutputState} {a : OutputAct}

/-- A step of a request with room either aborts it or leaves one of the outcomes that the rules
allow. -/
theorem outputStep_accept {new : List ℤ} {text : String} {grammar : Option Bool}
    (hroom : r.Room rules) (h : outputStep ops rules r (.accept new text grammar) r') :
    (∃ reason, r.toFinish = some reason ∧ r'.outputIds = r.outputIds ++ new ∧
      r'.finished = true ∧ r'.finishedLen = none ∧ r'.toFinish = none) ∨
    r.toFinish = none ∧ rules.Outcome r.outputIds new text r' := by
  obtain ⟨hfin, hnew, h⟩ := h
  have hlen := (hroom hfin).1
  cases hpending : r.toFinish with
  | none =>
    exact .inr ⟨rfl, StopRules.updateFinishState_outcome
      (r := ⟨r.outputIds ++ new, r.finishedReason, r.finishedLen, r.toFinish, text, grammar⟩)
      hnew rfl hfin hlen hpending h⟩
  | some reason =>
    obtain rfl := Except.ok.inj ((StopRules.updateFinishState_pending
      (r := ⟨r.outputIds ++ new, r.finishedReason, r.finishedLen, r.toFinish, text, grammar⟩)
      hfin hpending).symm.trans h)
    exact .inl ⟨reason, rfl, rfl, rfl, hlen, rfl⟩

/-- The user gets all the tokens of a request that has no end yet. -/
theorem OutputState.outputIdsThroughStop_none (h : r.finishedLen = none) :
    r.outputIdsThroughStop = r.outputIds := by
  rw [outputIdsThroughStop, h]

/-- The user gets the tokens up to the end of a request that has one. -/
theorem OutputState.outputIdsThroughStop_some {m : ℕ} (h : r.finishedLen = some m) :
    r.outputIdsThroughStop = r.outputIds.take m := by
  rw [outputIdsThroughStop, h]

/-- In every run a request that is not finished goes on having room for at least one token. -/
theorem room_invariant : (outputMachine ops rules).Invariant (OutputState.Room rules) := by
  refine ⟨?_, fun r a r' hroom h => ?_⟩
  · rintro r ⟨text, grammar, rfl⟩ -
    exact ⟨rfl, .inl rfl⟩
  · cases a with
    | abort reason =>
      obtain rfl := h
      exact hroom
    | accept new text grammar =>
      intro hfin
      rcases outputStep_accept hroom h with ⟨reason, -, -, hfin', -⟩ | ⟨-, houtcome⟩
      · rw [hfin] at hfin'
        cases hfin'
      · cases houtcome with
        | goes _ _ hlen hids _ hbudget => exact ⟨hlen, .inr (hids ▸ hbudget)⟩
        | ends m hfin' =>
          rw [hfin] at hfin'
          cases hfin'
        | whole hfin' =>
          rw [hfin] at hfin'
          cases hfin'

/-- **What has been given is not taken back**: whatever a step does to a request, the tokens that
the user had are the first of those that the user has. -/
theorem output_monotone (hr : (outputMachine ops rules).Reach r)
    (h : (outputMachine ops rules).step r a r') :
    r.outputIdsThroughStop <+: r'.outputIdsThroughStop := by
  have hroom := room_invariant.reach hr
  cases a with
  | abort reason =>
    obtain rfl := h
    exact List.prefix_rfl
  | accept new text grammar =>
    obtain ⟨hlen, hids⟩ := hroom h.1
    rw [OutputState.outputIdsThroughStop_none hlen]
    rcases outputStep_accept hroom h with ⟨reason, -, hout, -, hlen', -⟩ | ⟨-, houtcome⟩
    · rw [OutputState.outputIdsThroughStop_none hlen', hout]
      exact List.prefix_append ..
    · cases houtcome with
      | goes _ _ hlen' hout =>
        rw [OutputState.outputIdsThroughStop_none hlen', hout]
        exact List.prefix_append ..
      | whole _ _ hlen' hout =>
        rw [OutputState.outputIdsThroughStop_none hlen', hout]
        exact List.prefix_append ..
      | ends m _ _ hlen' hprior _ _ hlate =>
        rw [OutputState.outputIdsThroughStop_some hlen']
        have hle : r.outputIds.length ≤ m := by
          rcases hlate with hlt | rfl
          · exact hlt.le
          · rcases hids with hnil | hlt
            · rw [hnil]
              exact Nat.zero_le _
            · exact hlt.le
        refine List.prefix_iff_eq_take.mpr ?_
        rw [List.take_take, min_eq_left hle, hprior]

/-- In every run without an abort a request stays within the bounds of its rules. -/
theorem bounded_invariant :
    ((outputMachine ops rules).guarded NoAbort).Invariant (OutputState.Bounded rules) := by
  refine ⟨?_, fun r a r' hr h => ?_⟩
  · rintro r ⟨text, grammar, rfl⟩
    exact ⟨rfl, fun _ => ⟨rfl, .inl rfl⟩, .inl (Nat.zero_le _), fun _ t ht => absurd ht
      List.not_mem_nil⟩
  · obtain ⟨hguard, h⟩ := h
    have hroom' := room_invariant.step r a r' hr.room h
    cases a with
    | abort reason => exact hguard.elim
    | accept new text grammar =>
      have hold : r.outputIdsThroughStop = r.outputIds :=
        OutputState.outputIdsThroughStop_none (hr.room h.1).1
      rcases outputStep_accept hr.room h with ⟨reason, hpending, -⟩ | ⟨-, houtcome⟩
      · rw [hr.pending] at hpending
        cases hpending
      · have hinside_append : (∀ t, rules.outside (rules.replacement t) = false) →
            (∀ t ∈ new, rules.outside t = false) →
            ∀ t ∈ r.outputIds ++ new, rules.outside t = false := by
          intro hreplace hnew t ht
          rcases List.mem_append.mp ht with ht | ht
          · exact hr.inside hreplace t (hold ▸ ht)
          · exact hnew t ht
        cases houtcome with
        | goes _ hpending hlen' hout hinside hbudget =>
          have hgiven := (OutputState.outputIdsThroughStop_none hlen').trans hout
          exact ⟨hpending, hroom', .inl (hgiven ▸ hbudget.le),
            fun hreplace => hgiven ▸ hinside_append hreplace hinside⟩
        | whole _ hpending hlen' hout hinside hbudget =>
          have hgiven := (OutputState.outputIdsThroughStop_none hlen').trans hout
          refine ⟨hpending, hroom', ?_, fun hreplace => hgiven ▸ hinside_append hreplace hinside⟩
          rcases hbudget with hlt | ⟨stop, hmem, hreason, -⟩
          · exact .inl (hgiven ▸ hlt.le)
          · exact .inr ⟨hlen', stop, hmem, hreason⟩
        | ends m _ hpending hlen' hprior hinside hbudget =>
          have hgiven := OutputState.outputIdsThroughStop_some hlen'
          refine ⟨hpending, hroom', .inl ?_, fun hreplace t ht => ?_⟩
          · rw [hgiven]
            exact (List.length_take_le m _).trans hbudget
          · rw [hgiven, ← List.take_append_drop r.outputIds.length (r'.outputIds.take m)] at ht
            rcases List.mem_append.mp ht with ht | ht
            · rw [List.take_take, min_comm, ← List.take_take, hprior] at ht
              exact hr.inside hreplace t (hold ▸ List.mem_of_mem_take ht)
            · exact hinside hreplace t ht

/-- **The bounds of a request**: one that is not aborted gives no more than its budget, unless it
has finished with a stop string that only the text so far has; and where an end of sequence is in
the vocabulary, it gives nothing outside the vocabulary. -/
theorem output_bounded (hr : ((outputMachine ops rules).guarded NoAbort).Reach r) :
    r.Bounded rules :=
  bounded_invariant.reach hr

end

open StopRules

/-- A request that has given one token. -/
def stringState : OutputState := ⟨[1], none, none, none, "", none⟩

/-- It gives three more, of which the second completes the stop string. -/
def stringDone : OutputState := ⟨[1, 1, 2, 3], some (.matchedStr "bc"), some 3, none, "b", none⟩

theorem stringState_reach :
    ((outputMachine plainOps stringRules).guarded NoAbort).Reach stringState := by
  have hinit : ((outputMachine plainOps stringRules).guarded NoAbort).Reach
      (.fresh "" none) := .init ⟨"", none, rfl⟩
  refine hinit.step (a := .accept [1] "" none) ⟨trivial, ?_⟩
  exact ⟨rfl, by decide, rfl⟩

theorem stringDone_step : (outputMachine plainOps stringRules).step stringState
    (.accept [1, 2, 3] "b" none) stringDone :=
  ⟨rfl, by decide, rfl⟩

/-- In the run of the example the one token that was given first is still the first of three. -/
theorem output_monotone_strings : ([1] : List ℤ) <+: [1, 1, 2] :=
  output_monotone stringState_reach.of_guarded stringDone_step

/-- In the run of the example the three tokens that are given are within the budget. -/
theorem output_bounded_strings : stringDone.Bounded stringRules :=
  output_bounded (stringState_reach.step (a := .accept [1, 2, 3] "b" none)
    ⟨trivial, stringDone_step⟩)

end LuzServing

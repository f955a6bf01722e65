import LuzServing.FinishCut

/-!
# Where a stop string ends a request

The text of the last tokens is searched for the stop strings, and the window is wide enough for
all the tokens of a step. Where a step brings a stop string in, its tokens are given back one by
one, so the request ends with the first of them that completes the string (`stop_str_first`):
nothing that comes after the string in the same step is given, a stop token or not.
-/

namespace LuzServing

namespace StopRules

variable {ops : TextOps} {rules : StopRules} {r : OutputState} {tokens new : List ℤ}

/-! ## The first match -/

/-- The search returns the first length that matches, or none when no length of the range does. -/
theorem firstMatch_spec {tk : Tokenizer} (htk : rules.tokenizer = some tk)
    (matched : String → Bool) (window : List ℤ) (a k : ℕ) :
    ∃ found, rules.firstMatch (fun text => .ok (matched text)) window (List.range' a k) =
        .ok found ∧
      (∀ c, a ≤ c → c < found.getD (a + k) → matched (tk.decode (window.take c)) = false) ∧
      ∀ c, found = some c → a ≤ c ∧ c < a + k ∧ matched (tk.decode (window.take c)) = true := by
  induction k generalizing a with
  | zero =>
    refine ⟨none, rfl, fun c hlo hhi => ?_, fun c hc => by cases hc⟩
    rw [Option.getD_none] at hhi
    omega
  | succ k ih =>
    have hdecode : rules.decode (window.take a) = .ok (tk.decode (window.take a)) := by
      rw [decode, htk]
    rw [List.range'_succ, firstMatch, hdecode]
    cases hmatch : matched (tk.decode (window.take a)) with
    | true =>
      refine ⟨some a, ?_, fun c hlo hhi => ?_, fun c hc => ?_⟩
      · change (if matched (tk.decode (window.take a)) = true then _ else _) = _
        rw [if_pos hmatch]
        rfl
      · rw [Option.getD_some] at hhi
        omega
      · obtain rfl := Option.some.inj hc
        exact ⟨le_rfl, by omega, hmatch⟩
    | false =>
      obtain ⟨found, hfound, hbefore, hat⟩ := ih (a + 1)
      refine ⟨found, ?_, fun c hlo hhi => ?_, fun c hc => ?_⟩
      · change (if matched (tk.decode (window.take a)) = true then _ else _) = _
        rw [if_neg (Bool.eq_false_iff.mp hmatch), hfound]
      · rcases hlo.eq_or_lt with rfl | hlt
        · exact hmatch
        · exact hbefore c hlt (by rwa [show a + (k + 1) = a + 1 + k by omega] at hhi)
      · obtain ⟨hlo, hhi, hm⟩ := hat c hc
        exact ⟨by omega, by omega, hm⟩

/-- The text in which the stop strings are looked for, up to a length. -/
def windowText (rules : StopRules) (tk : Tokenizer) (r : OutputState) (n m : ℕ) : String :=
  tk.decode ((r.outputIds.take m).drop (r.outputIds.length - rules.stopMatchTailLen r n))

/-- A text comes into the window with the token before a length: it is there with that token, and
it is not with fewer of the last `n`. -/
structure FirstAt (rules : StopRules) (tk : Tokenizer) (r : OutputState) (n m : ℕ)
    (stop : String) : Prop where
  /-- among the last `n` tokens -/
  lt : r.outputIds.length < m + n
  /-- it is a length of the tokens -/
  le : m ≤ r.outputIds.length
  /-- the text is there -/
  found : containsStr stop (windowText rules tk r n m) = true
  /-- and it was not before -/
  first : ∀ m', r.outputIds.length < m' + n → m' < m →
    containsStr stop (windowText rules tk r n m') = false

/-- A stop string that is in the window comes in with the token where the request ends. -/
theorem locateStrStopFinishedLen_first {tk : Tokenizer} (htk : rules.tokenizer = some tk) {n : ℕ}
    (hn : 0 < n) (hle : n ≤ r.outputIds.length) {stop : String}
    (htail : containsStr stop (windowText rules tk r n r.outputIds.length) = true) :
    ∃ m, rules.locateStrStopFinishedLen r (fun text => .ok (containsStr stop text)) n = .ok m ∧
      FirstAt rules tk r n m stop := by
  have hW : rules.stopMatchTailLen r n ≤ r.outputIds.length := min_le_right _ _
  have hnW : n ≤ rules.stopMatchTailLen r n := by
    refine le_min ?_ hle
    have := le_max_left (rules.samplingParams.stopStrMaxLen + 1)
      (rules.samplingParams.stopRegexMaxLen + 1)
    omega
  rw [locateStrStopFinishedLen, List.length_drop]
  set W := rules.stopMatchTailLen r n with hWdef
  have hstart : r.outputIds.length - (r.outputIds.length - W) = W := Nat.sub_sub_self hW
  rw [hstart]
  have hwindow : ∀ c, (r.outputIds.drop (r.outputIds.length - W)).take c =
      (r.outputIds.take (r.outputIds.length - W + c)).drop (r.outputIds.length - W) := by
    intro c
    rw [List.drop_take, Nat.add_sub_cancel_left]
  obtain ⟨found, hfound, hbefore, hat⟩ := firstMatch_spec htk (containsStr stop)
    (r.outputIds.drop (r.outputIds.length - W)) (max 1 (W - n + 1)) (W - max 1 (W - n + 1))
  rw [hfound]
  have hfirst : max 1 (W - n + 1) = W - n + 1 := max_eq_right (by omega)
  rw [hfirst] at hbefore hat
  have hbefore' : ∀ m', r.outputIds.length < m' + n →
      m' < r.outputIds.length - W + found.getD W →
      containsStr stop (windowText rules tk r n m') = false := by
    intro m' hlo hhi
    have := hbefore (m' - (r.outputIds.length - W)) (by omega) (by
      rw [show W - n + 1 + (W - (W - n + 1)) = W by omega]
      omega)
    rw [hwindow, Nat.add_sub_cancel' (by omega)] at this
    exact this
  cases found with
  | none =>
    refine ⟨r.outputIds.length, rfl, Nat.lt_add_of_pos_right hn, le_rfl, htail,
      fun m' hlo hhi => ?_⟩
    exact hbefore' m' hlo (by rw [Option.getD_none, Nat.sub_add_cancel hW]; exact hhi)
  | some c =>
    obtain ⟨hlo, hhi, hmatch⟩ := hat c rfl
    rw [hwindow] at hmatch
    exact ⟨r.outputIds.length - W + c, rfl, by omega, by omega, hmatch, fun m' hlo' hhi' =>
      hbefore' m' hlo' hhi'⟩

/-- The loop over the stop strings ends the request where one that is in the tail comes in. -/
theorem checkStopStrs_first {tk : Tokenizer} (htk : rules.tokenizer = some tk) {n : ℕ}
    (hn : 0 < n) (hle : n ≤ r.outputIds.length) {strs : List String}
    (hdecoded : ∀ stop ∈ strs, containsStr stop r.decodedText = false)
    (htail : ∃ stop ∈ strs, containsStr stop (windowText rules tk r n r.outputIds.length) = true) :
    ∃ stop ∈ strs, ∃ m, FirstAt rules tk r n m stop ∧
      rules.checkStopStrs r n (windowText rules tk r n r.outputIds.length) strs =
        .ok (some { r with finishedReason := some (.matchedStr stop), finishedLen := some m }) := by
  induction strs with
  | nil =>
    obtain ⟨stop, hmem, -⟩ := htail
    cases hmem
  | cons s strs ih =>
    rw [checkStopStrs]
    by_cases hs : containsStr s (windowText rules tk r n r.outputIds.length) = true
    · obtain ⟨m, hm, hfirst⟩ := locateStrStopFinishedLen_first htk hn hle hs
      refine ⟨s, List.mem_cons_self .., m, hfirst, ?_⟩
      rw [if_pos hs, hm]
      rfl
    · rw [if_neg hs, if_neg (Bool.eq_false_iff.mp (hdecoded s (List.mem_cons_self ..)))]
      obtain ⟨stop, hmem, m, hfirst, heq⟩ := ih
        (fun stop hmem => hdecoded stop (List.mem_cons_of_mem s hmem)) (by
          obtain ⟨stop, hmem, hstop⟩ := htail
          rcases List.mem_cons.mp hmem with rfl | hmem
          · exact absurd hstop hs
          · exact ⟨stop, hmem, hstop⟩)
      exact ⟨stop, List.mem_cons_of_mem s hmem, m, hfirst, heq⟩

/-- **Nothing after a stop string**: where a step of any number of tokens brings a stop string
into the tail, the request ends with the first token of the step that does, or at its budget,
whatever stop tokens the step has. -/
theorem stop_str_first {tk : Tokenizer} (htk : rules.tokenizer = some tk) (hnew : new ≠ [])
    (hout : r.outputIds = tokens ++ new) (hfin : r.finished = false) (hpending : r.toFinish = none)
    (hinside : ∀ t ∈ new, rules.outside t = false)
    (hdecoded : ∀ stop ∈ rules.samplingParams.stopStrs, containsStr stop r.decodedText = false)
    (htail : ∃ stop ∈ rules.samplingParams.stopStrs,
      containsStr stop (windowText rules tk r new.length r.outputIds.length) = true) :
    ∃ stop ∈ rules.samplingParams.stopStrs, ∃ m, FirstAt rules tk r new.length m stop ∧
      rules.updateFinishState ops r new.length = .ok
        { r with finishedReason := some (
                   if rules.samplingParams.maxNewTokens < m then
                     .length rules.samplingParams.maxNewTokens else .matchedStr stop),
                 finishedLen := some (min m rules.samplingParams.maxNewTokens) } := by
  have hpos : 0 < new.length := List.length_pos_iff.mpr hnew
  have hle : new.length ≤ r.outputIds.length := by
    rw [hout, List.length_append]
    exact Nat.le_add_left ..
  obtain ⟨stop, hmem, m, hfirst, hcheck⟩ := checkStopStrs_first htk hpos hle hdecoded htail
  have hstrs : ¬ (rules.samplingParams.stopStrs = [] ∧ rules.samplingParams.stopRegexStrs = []) :=
    fun h => by
      rw [h.1] at hmem
      cases hmem
  have hW : rules.stopMatchTailLen r new.length ≠ 0 := by
    have := le_max_left (rules.samplingParams.stopStrMaxLen + 1)
      (rules.samplingParams.stopRegexMaxLen + 1)
    rw [stopMatchTailLen]
    omega
  have htailStr : rules.tailStr r new.length =
      .ok (windowText rules tk r new.length r.outputIds.length) := by
    rw [tailStr, if_neg hstrs, lastEntries, if_neg hW, decode, htk, windowText, List.take_length]
  have hstr : rules.checkStrBasedFinish ops r new.length = .ok
      ({ r with finishedReason := some (.matchedStr stop), finishedLen := some m }, true) := by
    rw [checkStrBasedFinish, if_neg hstrs, htailStr, ok_bind, hcheck]
    rfl
  refine ⟨stop, hmem, m, hfirst, ?_⟩
  rw [updateFinishState, if_neg (Bool.eq_false_iff.mp hfin), hpending, hout,
    lastEntries_append hnew]
  dsimp only
  rw [checkVocabBoundaryFinish_inside hinside]
  dsimp only
  rw [hstr, ok_bind]
  dsimp only
  rw [capFinishedLenAtMaxNewTokens]
  dsimp only
  rcases le_or_gt m rules.samplingParams.maxNewTokens with hle' | hgt
  · rw [if_neg (not_lt.mpr hle'), if_neg (not_lt.mpr hle'), min_eq_left hle', hout, hpending]
    rfl
  · rw [if_pos hgt, if_pos hgt, min_eq_right hgt.le, hout, hpending]
    rfl

/-- A stop string, and a pattern that is searched for as a string. -/
def stringRules : StopRules where
  samplingParams := ⟨false, [], 5, ["bc"], ["de"], 2, 2⟩
  eosTokenIds := [9]
  tokenizer := some letters
  vocabSize := some 26

/-- A request whose last step gives three tokens. -/
def stringOpen : OutputState := ⟨[1, 1, 2, 3], none, none, none, "", none⟩

/-- In the run of the example, the second of three tokens is the one that completes the stop
string. -/
theorem stop_str_first_strings : ∃ stop ∈ ["bc"], ∃ m,
    FirstAt stringRules letters stringOpen 3 m stop ∧
      stringRules.updateFinishState plainOps stringOpen 3 =
        .ok { stringOpen with
          finishedReason := some (if 5 < m then .length 5 else .matchedStr stop),
          finishedLen := some (min m 5) } := by
  have hout : stringOpen.outputIds = [1] ++ [1, 2, 3] := rfl
  have hinside : ∀ t ∈ ([1, 2, 3] : List ℤ), stringRules.outside t = false := by decide
  have hdecoded : ∀ stop ∈ stringRules.samplingParams.stopStrs,
      containsStr stop stringOpen.decodedText = false := by decide
  have htail : containsStr "bc" (windowText stringRules letters stringOpen 3 4) = true := by decide
  exact stop_str_first rfl (by decide) hout rfl rfl hinside hdecoded ⟨"bc", by decide, htail⟩

end StopRules

end LuzServing

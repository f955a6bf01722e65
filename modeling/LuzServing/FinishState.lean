import LuzServing.Machine

/-!
# When a request has finished

After every step the scheduler appends the tokens of the step to `output_ids` and asks whether
the request has finished (`updateFinishState`): an abort that waits, a token outside the
vocabulary, a stop string or a stop pattern, a stop token, the length, the grammar, in this
order. A stop is looked for among the tokens of the step only, and where it is found after the
budget the request ends at the budget. What the user gets is `outputIdsThroughStop`.
-/

namespace LuzServing

/-! ## A request -/

/-- Why a request has finished. -/
inductive FinishReason : Type where
  /-- `FINISH_MATCHED_TOKEN` -/
  | matchedToken (matched : ℤ)
  /-- `FINISH_MATCHED_STR` -/
  | matchedStr (matched : String)
  /-- `FINISHED_MATCHED_REGEX` -/
  | matchedRegex (matched : String)
  /-- `FINISH_LENGTH` -/
  | length (length : ℕ)
  /-- `FINISH_ABORT` -/
  | abort (message : String) (statusCode : Option ℕ) (errType : Option String)
deriving DecidableEq

/-- What of the sampling parameters says when to stop. -/
structure SamplingParams : Type where
  /-- no stop token stops the request -/
  ignoreEos : Bool
  /-- the stop tokens that were asked for, in the order in which the set gives them -/
  stopTokenIds : List ℤ
  /-- the most tokens to give -/
  maxNewTokens : ℕ
  /-- the stop strings -/
  stopStrs : List String
  /-- the stop patterns -/
  stopRegexStrs : List String
  /-- how many tokens the longest stop string has at most -/
  stopStrMaxLen : ℕ
  /-- and what the longest stop pattern matches -/
  stopRegexMaxLen : ℕ

/-- The tokenizer, by what the checks use of it. -/
structure Tokenizer : Type where
  /-- its end of sequence, if it has one -/
  eosTokenId : Option ℤ
  /-- further tokens that end a turn -/
  additionalStopTokenIds : List ℤ
  /-- the text of tokens -/
  decode : List ℤ → String

/-- Python's `re.search`, which may raise, and `repr`. -/
structure TextOps : Type where
  /-- whether the pattern is found in the text, or why the search fails -/
  search : String → String → Except String Bool
  /-- a string as a literal -/
  repr : String → String

/-- What of a request stays as it is. -/
structure StopRules : Type where
  /-- its sampling parameters -/
  samplingParams : SamplingParams
  /-- the model's ends of sequence, in the order in which the set gives them -/
  eosTokenIds : List ℤ
  /-- the tokenizer, if the server has one -/
  tokenizer : Option Tokenizer
  /-- the size of the vocabulary, if it is known -/
  vocabSize : Option ℕ

/-- What of a request the check reads and writes. -/
structure OutputState : Type where
  /-- the tokens so far -/
  outputIds : List ℤ
  /-- why it has finished -/
  finishedReason : Option FinishReason
  /-- after how many tokens -/
  finishedLen : Option ℕ
  /-- an abort that waits for the next check -/
  toFinish : Option FinishReason
  /-- the text that the detokenizer has given back -/
  decodedText : String
  /-- whether the grammar has come to its end, where there is one -/
  grammar : Option Bool

/-- A request that has given no token. -/
def OutputState.fresh (text : String) (grammar : Option Bool) : OutputState :=
  ⟨[], none, none, none, text, grammar⟩

namespace OutputState

variable (r : OutputState)

/-- Whether the request has finished. -/
def finished : Bool := r.finishedReason.isSome

/-- The tokens that the user gets. -/
def outputIdsThroughStop : List ℤ :=
  match r.finishedLen with
  | some n => r.outputIds.take n
  | none => r.outputIds

end OutputState

/-- `l[-n:]`, which is the whole list where `n` is zero. -/
def lastEntries (l : List ℤ) (n : ℕ) : List ℤ := if n = 0 then l else l.drop (l.length - n)

/-! ## The checks -/

namespace StopRules

variable (ops : TextOps) (rules : StopRules) (r : OutputState)

/-- How many of the last tokens are searched for a stop string: those of the step, and as many
before them as a match may need. -/
def stopMatchTailLen (newAcceptedLen : ℕ) : ℕ :=
  min (max (rules.samplingParams.stopStrMaxLen + 1) (rules.samplingParams.stopRegexMaxLen + 1) +
    (newAcceptedLen - 1)) r.outputIds.length

/-- The text of tokens; without a tokenizer there is none. -/
def decode (tokens : List ℤ) : Except String String :=
  match rules.tokenizer with
  | some tokenizer => .ok (tokenizer.decode tokens)
  | none => .error "'NoneType' object has no attribute 'decode'"

/-- The text of the last tokens. -/
def tailStr (newAcceptedLen : ℕ) : Except String String :=
  if rules.samplingParams.stopStrs = [] ∧ rules.samplingParams.stopRegexStrs = [] then .ok ""
  else rules.decode (lastEntries r.outputIds (rules.stopMatchTailLen r newAcceptedLen))

/-- Whether a token stops the request. -/
def stops (token : ℤ) : Bool :=
  rules.samplingParams.stopTokenIds.contains token || rules.eosTokenIds.contains token ||
    rules.tokenizer.any fun t =>
      t.eosTokenId == some token || t.additionalStopTokenIds.contains token

/-- The first stop token of the step ends the request. The loop returns with the first token
for which `matched_eos` is set. -/
def checkTokenBasedFinish (new : List ℤ) : OutputState × Bool :=
  if rules.samplingParams.ignoreEos then (r, false)
  else match new.findIdx? rules.stops with
    | some i =>
      let matchedPos := r.outputIds.length - new.length + i
      ({ r with finishedReason := some (.matchedToken (new.getD i 0)),
                finishedLen := some (matchedPos + 1) }, true)
    | none => (r, false)

/-- The first of a range of lengths whose tokens match. -/
def firstMatch (matched : String → Except String Bool) (window : List ℤ) :
    List ℕ → Except String (Option ℕ)
  | [] => .ok none
  | count :: counts => do
    let text ← rules.decode (window.take count)
    if ← matched text then pure (some count) else firstMatch matched window counts

/-- After how many tokens the text matches, where the whole tail does: the tokens of the step
are given back one by one. -/
def locateStrStopFinishedLen (matched : String → Except String Bool) (newAcceptedLen : ℕ) :
    Except String ℕ := do
  let start := r.outputIds.length - rules.stopMatchTailLen r newAcceptedLen
  let window := r.outputIds.drop start
  let first := max 1 (window.length - newAcceptedLen + 1)
  match ← rules.firstMatch matched window (List.range' first (window.length - first)) with
  | some count => pure (start + count)
  | none => pure r.outputIds.length

/-- The test of a stop string. -/
def containsStr (stop text : String) : Bool := decide (stop.toList <:+: text.toList)

/-- The loop over the stop strings: the first that is in the tail, or in the text so far. -/
def checkStopStrs (newAcceptedLen : ℕ) (tail : String) :
    List String → Except String (Option OutputState)
  | [] => .ok none
  | stop :: stops =>
    if containsStr stop tail then do
      let n ← rules.locateStrStopFinishedLen r (fun text => .ok (containsStr stop text))
        newAcceptedLen
      pure (some { r with finishedReason := some (.matchedStr stop), finishedLen := some n })
    else if containsStr stop r.decodedText then
      .ok (some { r with finishedReason := some (.matchedStr stop) })
    else checkStopStrs newAcceptedLen tail stops

/-- The loop over the stop patterns: the first that is found in the tail. One that cannot be
searched for aborts the request, and ends the loop without a match. -/
def checkStopRegexes (newAcceptedLen : ℕ) (tail : String) :
    List String → Except String (OutputState × Bool)
  | [] => .ok (r, false)
  | pattern :: patterns =>
    match ops.search pattern tail with
    | .error e => .ok ({ r with finishedReason := some (.abort
        ("invalid stop_regex " ++ ops.repr pattern ++ ": " ++ e) (some 400)
        (some "BadRequestError")) }, false)
    | .ok true => do
      let n ← rules.locateStrStopFinishedLen r (ops.search pattern) newAcceptedLen
      pure ({ r with finishedReason := some (.matchedRegex pattern), finishedLen := some n }, true)
    | .ok false => checkStopRegexes newAcceptedLen tail patterns

/-- The checks on the text: the stop strings first, and then the stop patterns. -/
def checkStrBasedFinish (newAcceptedLen : ℕ) : Except String (OutputState × Bool) :=
  if rules.samplingParams.stopStrs = [] ∧ rules.samplingParams.stopRegexStrs = [] then
    .ok (r, false)
  else do
    let tail ← rules.tailStr r newAcceptedLen
    match ← rules.checkStopStrs r newAcceptedLen tail rules.samplingParams.stopStrs with
    | some r' => pure (r', true)
    | none => rules.checkStopRegexes ops r newAcceptedLen tail rules.samplingParams.stopRegexStrs

/-- A token that is none of the vocabulary's. -/
def outside (token : ℤ) : Bool :=
  decide (token < 0) || rules.vocabSize.any fun size => decide ((size : ℤ) ≤ token)

/-- What takes its place: a stop token, and rather the model's end of sequence. -/
def replacement (token : ℤ) : ℤ :=
  rules.eosTokenIds.head?.getD (rules.samplingParams.stopTokenIds.head?.getD token)

/-- The first token outside the vocabulary ends the request, and an end takes its place. -/
def checkVocabBoundaryFinish (new : List ℤ) : OutputState × Bool :=
  match new.findIdx? rules.outside with
  | some i =>
    let offset := r.outputIds.length - new.length + i
    ({ r with outputIds := r.outputIds.modify offset rules.replacement,
              finishedReason := some (.matchedStr "NaN happened"),
              finishedLen := some (offset + 1) }, true)
  | none => (r, false)

/-- A stop past the budget is a stop at the budget. -/
def capFinishedLenAtMaxNewTokens : OutputState :=
  match r.finishedLen with
  | some n =>
    if rules.samplingParams.maxNewTokens < n then
      { r with finishedReason := some (.length rules.samplingParams.maxNewTokens),
               finishedLen := some rules.samplingParams.maxNewTokens }
    else r
  | none => r

/-- The checks that end the request whatever its text is: a stop token, the length, the
grammar. -/
def checkTail (new : List ℤ) : Except String OutputState :=
  match rules.checkTokenBasedFinish r new with
  | (r', true) => .ok (rules.capFinishedLenAtMaxNewTokens r')
  | (r', false) =>
    if rules.samplingParams.maxNewTokens ≤ r'.outputIds.length then
      .ok { r' with finishedReason := some (.length rules.samplingParams.maxNewTokens),
                    finishedLen := some rules.samplingParams.maxNewTokens }
    else if r'.grammar = some true then
      match r'.outputIds.getLast? with
      | some token => .ok { r' with finishedReason := some (.matchedToken token) }
      | none => .error "array index out of range"
    else .ok r'

/-- Whether the request has finished with the last `newAcceptedLen` tokens. -/
def updateFinishState (newAcceptedLen : ℕ) : Except String OutputState :=
  if r.finished then .ok r
  else match r.toFinish with
    | some reason => .ok { r with finishedReason := some reason, toFinish := none }
    | none =>
      let new := lastEntries r.outputIds newAcceptedLen
      match rules.checkVocabBoundaryFinish r new with
      | (r', true) => .ok (rules.capFinishedLenAtMaxNewTokens r')
      | (r', false) => do
        match ← rules.checkStrBasedFinish ops r' newAcceptedLen with
        | (r', true) => pure (rules.capFinishedLenAtMaxNewTokens r')
        | (r', false) => rules.checkTail r' new

/-- A step gives tokens, and the check follows. -/
def acceptStep (new : List ℤ) : Except String OutputState :=
  rules.updateFinishState ops { r with outputIds := r.outputIds ++ new } new.length

end StopRules

end LuzServing

import Mathlib.Tactic

/-!
# Staged token inputs

A graph replay runs on the runner's token buffers. `load_batch` fills them on its full path, and
on the fast path, for a batch that is planned already, copies the batch's tokens again. With
`SGLANG_QW3_DSPARK_LAUNCH_PARAMS` the full path writes down whose tokens it staged, by the
identity of the batch and of its tensors, and the fast path leaves its copies out when these are
the ones. But its own copies of another batch's tokens are not written down: the record then
describes what is no longer in the buffers (`eachLoadRight_interleaved`). Loads are right in every
run in which no copies are left out after a fast load has copied (`eachLoadRight_of_undisturbed`).
-/

namespace LuzServing

universe u v

/-! ## Batches and the runner -/

/-- What `load_batch` reads of a batch; its tensors by their identity. -/
structure DecodeForwardBatch (T : Type v) : Type v where
  /-- `batch_size` -/
  batchSize : ℕ
  /-- `input_ids` -/
  inputIds : T
  /-- `positions` -/
  positions : T
  /-- `graph_num_tokens` of its ragged verify layout, where it has one -/
  graphNumTokens : Option ℕ
  /-- `forward_metadata_ready` -/
  forwardMetadataReady : Bool
  /-- `forward_metadata_planned_bs` -/
  plannedBs : Option ℕ
  /-- `forward_metadata_planned_num_tokens` -/
  plannedNumTokens : Option ℕ
  /-- `forward_metadata_replan_equivalent` -/
  replanEquivalent : Bool

/-- What the tensors hold. They are not written in place. -/
structure TensorData (T : Type v) : Type v where
  /-- how many entries -/
  numel : T → ℕ
  /-- the entries -/
  entry : T → ℕ → ℤ

/-- The graph's buffers of token inputs. -/
structure TokenBuffers : Type where
  /-- `input_ids` -/
  inputIds : ℕ → ℤ
  /-- `positions` -/
  positions : ℕ → ℤ

/-- The buffer registry: `fill_from` stages a batch's tokens. -/
structure BufferRegistry : Type where
  /-- `fill_from`, of the entries, `raw_num_tokens` and the buffers -/
  fillFrom : (ℕ → ℤ) → (ℕ → ℤ) → ℕ → TokenBuffers → TokenBuffers
  /-- the first entries are the batch's -/
  inputIds : ∀ ids pos n b i, i < n → (fillFrom ids pos n b).inputIds i = ids i
  /-- of both -/
  positions : ∀ ids pos n b i, i < n → (fillFrom ids pos n b).positions i = pos i

/-- `_StagedTokenInputs` -/
structure StagedTokenInputs (B : Type u) (T : Type v) : Type (max u v) where
  /-- the batch -/
  forwardBatch : B
  /-- its `input_ids` then -/
  inputIds : T
  /-- its `positions` then -/
  positions : T
  deriving DecidableEq

/-- The runner, and the live batches. -/
structure DecodeRunner (B : Type u) (T : Type v) : Type (max u v) where
  /-- the batches as they are -/
  batches : B → DecodeForwardBatch T
  /-- `buffers` -/
  buffers : TokenBuffers
  /-- `_staged_token_inputs` -/
  stagedTokenInputs : Option (StagedTokenInputs B T)
  /-- `raw_num_token` -/
  rawNumToken : ℕ

/-- What stays the same over a run of the decode runner. -/
structure DecodeRunnerConfig : Type where
  /-- `SGLANG_QW3_DSPARK_LAUNCH_PARAMS` -/
  launchParams : Bool
  /-- `captured_req_width` -/
  capturedReqWidth : ℕ
  /-- `buffer_registry` -/
  registry : BufferRegistry

variable {B : Type u} {T : Type v} [DecidableEq B] [DecidableEq T]

namespace DecodeForwardBatch

variable (t : TensorData T) (fb : DecodeForwardBatch T)

/-- `needs_forward_metadata_init` -/
def needsForwardMetadataInit : Bool :=
  if !fb.forwardMetadataReady then true
  else if !fb.replanEquivalent then false
  else some fb.batchSize ≠ fb.plannedBs || some (t.numel fb.inputIds) ≠ fb.plannedNumTokens

/-- `mark_forward_metadata_ready` -/
def markForwardMetadataReady (replanEquivalent : Bool) : DecodeForwardBatch T :=
  { fb with
    forwardMetadataReady := true
    plannedBs := some fb.batchSize
    plannedNumTokens := some (t.numel fb.inputIds)
    replanEquivalent := replanEquivalent }

/-- It has a number of tokens, in both tensors. -/
def HasTokens (n : ℕ) : Prop := t.numel fb.inputIds = n ∧ t.numel fb.positions = n

instance (n : ℕ) : Decidable (fb.HasTokens t n) := inferInstanceAs (Decidable (_ ∧ _))

end DecodeForwardBatch

namespace DecodeRunner

variable (cfg : DecodeRunnerConfig) (t : TensorData T) (s : DecodeRunner B T)

/-- `_token_inputs_staged` -/
def tokenInputsStaged (b : B) : Bool :=
  s.stagedTokenInputs = some ⟨b, (s.batches b).inputIds, (s.batches b).positions⟩

/-- `buffer[:n].copy_(entries)` -/
def copyPrefix (n : ℕ) (entries buffer : ℕ → ℤ) (i : ℕ) : ℤ :=
  if i < n then entries i else buffer i

/-- `load_batch`: the fast path for a batch that is planned, else the full one. A batch with
another number of tokens than the path copies cannot be loaded; that `copy_` would broadcast the
token of a batch that has only one is left out, as no batch that is loaded has fewer tokens than
its graph. -/
def loadBatch (b : B) : Option (DecodeRunner B T) :=
  let fb := s.batches b
  if !fb.needsForwardMetadataInit t then
    if fb.graphNumTokens.getD s.rawNumToken ≠ s.rawNumToken then none
    else if !fb.HasTokens t s.rawNumToken then none
    else if s.tokenInputsStaged b then some s
    else some { s with buffers :=
      ⟨copyPrefix s.rawNumToken (t.entry fb.inputIds) s.buffers.inputIds,
        copyPrefix s.rawNumToken (t.entry fb.positions) s.buffers.positions⟩ }
  else
    let rawNumToken := fb.graphNumTokens.getD (fb.batchSize * cfg.capturedReqWidth)
    if !fb.HasTokens t rawNumToken then none
    else some { s with
      buffers := cfg.registry.fillFrom (t.entry fb.inputIds) (t.entry fb.positions) rawNumToken
        s.buffers
      stagedTokenInputs := if cfg.launchParams then some ⟨b, fb.inputIds, fb.positions⟩
        else s.stagedTokenInputs
      rawNumToken := rawNumToken }

/-! ## Runs -/

/-- What happens between and at replays. -/
inductive Act (B : Type u) (T : Type v) : Type (max u v) where
  /-- a batch's size and tensors are rebound -/
  | rebind (b : B) (batchSize : ℕ) (inputIds positions : T)
  /-- a batch was planned outside of the forward -/
  | mark (b : B) (replanEquivalent : Bool)
  /-- `load_batch` -/
  | load (b : B)

/-- One step of the runner, which may fail. -/
def step : Act B T → Option (DecodeRunner B T)
  | .rebind b batchSize inputIds positions =>
    let fb := { s.batches b with batchSize, inputIds, positions }
    some { s with batches := Function.update s.batches b fb }
  | .mark b replanEquivalent =>
    let fb := (s.batches b).markForwardMetadataReady t replanEquivalent
    some { s with batches := Function.update s.batches b fb }
  | .load b => s.loadBatch cfg t b

/-- The buffers hold a batch's tokens. -/
structure Loaded (b : B) : Prop where
  /-- as many as it has -/
  count : (s.batches b).HasTokens t s.rawNumToken
  /-- its `input_ids` -/
  inputIds : ∀ i, i < s.rawNumToken → s.buffers.inputIds i = t.entry (s.batches b).inputIds i
  /-- its `positions` -/
  positions : ∀ i, i < s.rawNumToken → s.buffers.positions i = t.entry (s.batches b).positions i

/-- After each load of a run the buffers hold the tokens of the batch just loaded. -/
def EachLoadRight : DecodeRunner B T → List (Act B T) → Prop
  | _, [] => True
  | s, a :: acts => ∀ s', s.step cfg t a = some s' →
      (∀ b, a = .load b → s'.Loaded t b) ∧ EachLoadRight s' acts

/-- The next step is a fast load that leaves its copies out. -/
def Skips : Act B T → Prop
  | .load b => (s.batches b).needsForwardMetadataInit t = false ∧ s.tokenInputsStaged b = true
  | _ => False

/-- Whether a fast load has copied since the last full one, after a step. -/
def copiedAfter (copied : Bool) : Act B T → Bool
  | .load b => !(s.batches b).needsForwardMetadataInit t && (copied || !s.tokenInputsStaged b)
  | _ => copied

/-- In a run no copies are left out after a fast load has copied, until the next full load. -/
def Undisturbed : DecodeRunner B T → Bool → List (Act B T) → Prop
  | _, _, [] => True
  | s, copied, a :: acts => (s.Skips t a → copied = false) ∧
      ∀ s', s.step cfg t a = some s' → Undisturbed s' (s.copiedAfter t copied a) acts

/-! ## When the record describes the buffers -/

/-- Without flag nothing is recorded; and until a fast load has copied, the buffers hold what the
record says. -/
structure RecordRight (copied : Bool) : Prop where
  /-- the flag -/
  off : cfg.launchParams = false → s.stagedTokenInputs = none
  /-- the recorded `input_ids` -/
  inputIds : copied = false → ∀ m, s.stagedTokenInputs = some m → ∀ i, i < s.rawNumToken →
    s.buffers.inputIds i = t.entry m.inputIds i
  /-- the recorded `positions` -/
  positions : copied = false → ∀ m, s.stagedTokenInputs = some m → ∀ i, i < s.rawNumToken →
    s.buffers.positions i = t.entry m.positions i

variable {cfg t s} {s' : DecodeRunner B T} {copied : Bool} {b : B}

/-- A load takes the full path, copies on the fast path, or leaves the copies out. -/
theorem loadBatch_cases (h : s.loadBatch cfg t b = some s') :
    ((s.batches b).needsForwardMetadataInit t = true ∧ s'.batches = s.batches ∧
        (s.batches b).HasTokens t s'.rawNumToken ∧
        s'.buffers = cfg.registry.fillFrom (t.entry (s.batches b).inputIds)
          (t.entry (s.batches b).positions) s'.rawNumToken s.buffers ∧
        s'.stagedTokenInputs = if cfg.launchParams then
          some ⟨b, (s.batches b).inputIds, (s.batches b).positions⟩ else s.stagedTokenInputs) ∨
      ((s.batches b).needsForwardMetadataInit t = false ∧
        (s.batches b).HasTokens t s.rawNumToken ∧
        ((s.tokenInputsStaged b = true ∧ s' = s) ∨ (s.tokenInputsStaged b = false ∧
          s' = { s with buffers :=
            ⟨copyPrefix s.rawNumToken (t.entry (s.batches b).inputIds) s.buffers.inputIds,
              copyPrefix s.rawNumToken (t.entry (s.batches b).positions)
                s.buffers.positions⟩ }))) := by
  rw [loadBatch] at h
  cases hneeds : (s.batches b).needsForwardMetadataInit t with
  | false =>
    simp only [hneeds, Bool.not_false, if_true] at h
    split_ifs at h with hragged hcount hstaged
    · exact .inr ⟨rfl, by simpa using hcount, .inl ⟨hstaged, (Option.some.inj h).symm⟩⟩
    · exact .inr ⟨rfl, by simpa using hcount,
        .inr ⟨Bool.eq_false_iff.mpr hstaged, (Option.some.inj h).symm⟩⟩
  | true =>
    simp only [hneeds, Bool.not_true, Bool.false_eq_true, if_false] at h
    split at h
    · cases h
    next hcount =>
      obtain rfl := Option.some.inj h
      exact .inl ⟨rfl, rfl, by simpa using hcount, rfl, rfl⟩

/-- **A load** leaves its batch's tokens in the buffers, unless it leaves its copies out after a
fast load has copied; and the record stays right. -/
theorem loadBatch_right (hs : s.RecordRight cfg t copied)
    (hskip : s.Skips t (.load b) → copied = false) (h : s.loadBatch cfg t b = some s') :
    s'.Loaded t b ∧ s'.RecordRight cfg t (s.copiedAfter t copied (.load b)) := by
  rcases loadBatch_cases h with ⟨hneeds, hbatches, hcount, hbuffers, hstaged⟩ |
    ⟨hneeds, hcount, ⟨hhit, rfl⟩ | ⟨hmiss, rfl⟩⟩
  · have hids : ∀ i, i < s'.rawNumToken →
        s'.buffers.inputIds i = t.entry (s.batches b).inputIds i := fun i hi => by
      rw [hbuffers, cfg.registry.inputIds _ _ _ _ i hi]
    have hpos : ∀ i, i < s'.rawNumToken →
        s'.buffers.positions i = t.entry (s.batches b).positions i := fun i hi => by
      rw [hbuffers, cfg.registry.positions _ _ _ _ i hi]
    have hrecord : ∀ m, s'.stagedTokenInputs = some m →
        m = ⟨b, (s.batches b).inputIds, (s.batches b).positions⟩ := by
      intro m hm
      cases hflag : cfg.launchParams with
      | true =>
        rw [hstaged, hflag, if_pos rfl] at hm
        exact (Option.some.inj hm).symm
      | false =>
        rw [hstaged, hflag, if_neg Bool.false_ne_true, hs.off hflag] at hm
        cases hm
    refine ⟨⟨by rwa [hbatches], by rwa [hbatches], by rwa [hbatches]⟩, fun hflag => ?_,
      fun _ m hm => ?_, fun _ m hm => ?_⟩
    · rw [hstaged, hflag, if_neg Bool.false_ne_true, hs.off hflag]
    · rwa [hrecord m hm]
    · rwa [hrecord m hm]
  · have hclean := hskip ⟨hneeds, hhit⟩
    have hmemo : s'.stagedTokenInputs =
        some ⟨b, (s'.batches b).inputIds, (s'.batches b).positions⟩ := of_decide_eq_true hhit
    refine ⟨⟨hcount, hs.inputIds hclean _ hmemo, hs.positions hclean _ hmemo⟩, ?_⟩
    rwa [copiedAfter, hneeds, hhit, Bool.not_true, Bool.or_false, Bool.not_false, Bool.true_and]
  · refine ⟨⟨hcount, fun i hi => if_pos hi, fun i hi => if_pos hi⟩, hs.off, fun hclean => ?_,
      fun hclean => ?_⟩
    · rw [copiedAfter, hneeds, hmiss] at hclean
      simp at hclean
    · rw [copiedAfter, hneeds, hmiss] at hclean
      simp at hclean

/-- A step that skips no needed copy keeps the record of the table right, and what it loads is
loaded right. -/
theorem step_right {a : Act B T} (hs : s.RecordRight cfg t copied)
    (hskip : s.Skips t a → copied = false) (h : s.step cfg t a = some s') :
    (∀ b, a = .load b → s'.Loaded t b) ∧ s'.RecordRight cfg t (s.copiedAfter t copied a) := by
  cases a with
  | rebind b batchSize inputIds positions =>
    obtain rfl := Option.some.inj h
    exact ⟨fun _ hb => (nomatch hb), hs.off, hs.inputIds, hs.positions⟩
  | mark b replanEquivalent =>
    obtain rfl := Option.some.inj h
    exact ⟨fun _ hb => (nomatch hb), hs.off, hs.inputIds, hs.positions⟩
  | load b =>
    obtain ⟨hloaded, hrecord⟩ := loadBatch_right hs hskip h
    exact ⟨fun b' hb => Act.load.inj hb ▸ hloaded, hrecord⟩

/-- In a run without a disturbance every load is therefore right, by induction on the run. -/
theorem eachLoadRight_of_recordRight {acts : List (Act B T)} (hs : s.RecordRight cfg t copied)
    (h : s.Undisturbed cfg t copied acts) : s.EachLoadRight cfg t acts := by
  induction acts generalizing s copied with
  | nil => trivial
  | cons a acts ih =>
    intro s' hstep
    obtain ⟨hload, hrecord⟩ := step_right hs h.1 hstep
    exact ⟨hload, ih hrecord (h.2 s' hstep)⟩

/-- Nothing is recorded without the flag, so no copies are left out. -/
theorem undisturbed_off (hoff : cfg.launchParams = false) {acts : List (Act B T)}
    (hs : s.RecordRight cfg t copied) : s.Undisturbed cfg t copied acts := by
  induction acts generalizing s copied with
  | nil => trivial
  | cons a acts ih =>
    have hskip : ¬ s.Skips t a := by
      cases a with
      | load b =>
        rintro ⟨-, hhit⟩
        rw [tokenInputsStaged, hs.off hoff] at hhit
        exact absurd hhit (by simp)
      | rebind => exact id
      | mark => exact id
    exact ⟨fun h => absurd h hskip,
      fun s' hstep => ih (step_right hs (fun h => absurd h hskip) hstep).2⟩

/-- **Every load is right** in a run that leaves no copies out after a fast load has copied, and
with the flag off. -/
theorem eachLoadRight_of_undisturbed (cfg : DecodeRunnerConfig) (t : TensorData T)
    (s : DecodeRunner B T) (hnone : s.stagedTokenInputs = none) (acts : List (Act B T))
    (h : cfg.launchParams = true → s.Undisturbed cfg t false acts) :
    s.EachLoadRight cfg t acts := by
  have hs : s.RecordRight cfg t false := by
    refine ⟨fun _ => hnone, fun _ m hm => ?_, fun _ m hm => ?_⟩
    · rw [hnone] at hm
      cases hm
    · rw [hnone] at hm
      cases hm
  cases hflag : cfg.launchParams with
  | true => exact eachLoadRight_of_recordRight hs (h hflag)
  | false => exact eachLoadRight_of_recordRight hs (undisturbed_off hflag hs)

/-! ## Two batches -/

/-- A registry that copies the entries of a batch into the buffers. -/
def copyRegistry : BufferRegistry where
  fillFrom ids pos n b := ⟨copyPrefix n ids b.inputIds, copyPrefix n pos b.positions⟩
  inputIds _ _ _ _ _ hi := if_pos hi
  positions _ _ _ _ _ hi := if_pos hi

/-- With the flag, one token a request. -/
def oneTokenConfig : DecodeRunnerConfig := ⟨true, 1, copyRegistry⟩

/-- Tensors of one entry, each another one. -/
def oneEntry : TensorData ℕ := ⟨fun _ => 1, fun t _ => t⟩

/-- Two batches of one request each. -/
def twoBatches : DecodeRunner Bool ℕ where
  batches b := ⟨1, if b then 10 else 20, if b then 11 else 21, none, false, none, none, false⟩
  buffers := ⟨fun _ => 0, fun _ => 0⟩
  stagedTokenInputs := none
  rawNumToken := 0

/-- A batch is loaded, marked as planned and loaded again, and both loads are right. -/
theorem eachLoadRight_again : twoBatches.EachLoadRight oneTokenConfig oneEntry
    [.load true, .mark true false, .load true] :=
  eachLoadRight_of_undisturbed _ _ _ rfl _ fun _ =>
    ⟨fun _ => rfl, fun _ h => by
      obtain rfl := Option.some.inj h
      exact ⟨fun h => h.elim, fun _ h => by
        obtain rfl := Option.some.inj h
        exact ⟨fun _ => by decide, fun _ _ => trivial⟩⟩⟩

/-- **Two batches are loaded and planned**, then both again: the second finds its record, and
the first one's tokens are in the buffers. -/
theorem eachLoadRight_interleaved : ¬ twoBatches.EachLoadRight oneTokenConfig oneEntry
    [.load true, .mark true false, .load false, .mark false false, .load true, .load false] := by
  intro h
  have hlast := ((((((h _ rfl).2 _ rfl).2 _ rfl).2 _ rfl).2 _ rfl).2 _ rfl).1 false rfl
  have htoken : (10 : ℤ) = 20 := hlast.inputIds 0 (by decide)
  exact absurd htoken (by decide)

end DecodeRunner

end LuzServing
